import Mathlib.Data.List.Induction

/-! # Outcomes

A computation that may fail has a result or an error. Laws of its outcomes that hold whatever is
computed.
-/

namespace ChainPlan

variable {α β σ ε : Type}

/-- A result of two steps is one of the second step, on what the first has given. -/
theorem exists_of_bind_eq_ok {x : Except ε α} {f : α → Except ε β} {b : β}
    (h : x >>= f = .ok b) : ∃ a, x = .ok a ∧ f a = .ok b := by
  cases x with
  | error e => cases h
  | ok a => exact ⟨a, rfl, h⟩

/-- A changed result comes from a result. -/
theorem exists_of_map_eq_ok {x : Except ε α} {f : α → β} {b : β} (h : x.map f = .ok b) :
    ∃ a, x = .ok a ∧ f a = b := by
  cases x with
  | error e => cases h
  | ok a => exact ⟨a, rfl, Except.ok.inj h⟩

/-- An error of two steps is one of the first, or of the second on what the first has given. -/
theorem eq_error_or_of_bind {x : Except ε α} {f : α → Except ε β} {e : ε}
    (h : x >>= f = .error e) : x = .error e ∨ ∃ a, x = .ok a ∧ f a = .error e := by
  cases x with
  | error other =>
    cases h
    exact .inl rfl
  | ok a => exact .inr ⟨a, rfl, h⟩

/-- A computation fails exactly if it has no result. -/
theorem exists_error_iff {x : Except ε α} : (∃ e, x = .error e) ↔ ¬ ∃ a, x = .ok a := by
  cases x <;> simp

/-- The error of two steps is changed as that of either. -/
theorem mapError_bind {ε' : Type} (g : ε → ε') (x : Except ε α) (f : α → Except ε β) :
    (x >>= f).mapError g = x.mapError g >>= fun a ↦ (f a).mapError g := by
  cases x <;> rfl

/-- A fold whose steps succeed and keep an invariant of the members done succeeds and keeps it. -/
theorem exists_foldlM {f : σ → α → Except ε σ} {P : List α → σ → Prop}
    {xs : List α} {s : σ} (hs : P [] s)
    (step : ∀ done s, P done s → ∀ x ∈ xs, ∃ next, f s x = .ok next ∧ P (done ++ [x]) next) :
    ∃ last, xs.foldlM f s = .ok last ∧ P xs last := by
  induction xs using List.reverseRecOn with
  | nil => exact ⟨s, rfl, hs⟩
  | append_singleton xs x ih =>
    obtain ⟨last, hl, hp⟩ := ih fun done s h y hy ↦ step done s h y (List.mem_append_left _ hy)
    obtain ⟨next, hf, hn⟩ := step xs last hp x (by simp)
    refine ⟨next, ?_, hn⟩
    rw [List.foldlM_append, hl]
    change ([x].foldlM f last) = .ok next
    rw [List.foldlM_cons, hf]
    rfl

end ChainPlan
