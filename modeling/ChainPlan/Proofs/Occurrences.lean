import ChainPlan.Proofs.LocalSearch
import Mathlib.Data.List.Nodup
import Mathlib.Logic.Equiv.Defs

/-! # Occurrences of elements

A chain may list one element more than once, and an order of it lists it as often. The occurrences
are matched in their order, the last one with the last. The rows of a lineage belong to identities,
so they tell what the last occurrence observes. A search that keeps the rows keeps what that one
observes, but an earlier one may come to observe other writers.
-/

namespace ChainPlan

/-! ### Matched positions -/

section

variable {α : Type} {xs ys : List α}

/-- A list around one of its positions. -/
theorem take_append_getElem_cons (i : Fin xs.length) :
    xs.take i ++ xs[i] :: xs.drop (i + 1) = xs := by
  rw [Fin.getElem_fin, ← List.drop_eq_getElem_cons i.isLt, List.take_append_drop]

variable [DecidableEq α]

/-- The positions of a list and those of an order of it, matched so that equal members keep their
order. -/
def matched (h : xs.Perm ys) : Fin xs.length ≃ Fin ys.length where
  toFun := h.idxBij
  invFun := h.symm.idxBij
  left_inv := h.idxBij_rightInverse_idxBij_symm
  right_inv := h.idxBij_leftInverse_idxBij_symm

@[simp] theorem getElem_matched (h : xs.Perm ys) (i : Fin xs.length) : ys[matched h i] = xs[i] :=
  h.getElem_idxBij_eq_getElem i

/-- The last occurrence of a member is the one with all others in front of it. -/
theorem not_mem_drop_iff (i : Fin xs.length) :
    xs[i] ∉ xs.drop (i + 1) ↔ xs.countBefore xs[i] i + 1 = xs.count xs[i] := by
  have hs : xs.count xs[i] = (xs.take i).count xs[i] + ((xs.drop (i + 1)).count xs[i] + 1) := by
    rw [← List.count_cons_self, ← List.count_append, take_append_getElem_cons]
  rw [← List.count_eq_zero, List.countBefore_eq_count_take]
  omega

/-- Last occurrences are matched with last occurrences. -/
theorem getElem_matched_not_mem_drop (h : xs.Perm ys) {i : Fin xs.length}
    (hl : xs[i] ∉ xs.drop (i + 1)) : ys[matched h i] ∉ ys.drop (matched h i + 1) := by
  rw [not_mem_drop_iff] at hl ⊢
  rw [getElem_matched, ← h.count_eq, ← hl]
  congr 1
  refine List.countBefore_idxOfNth_of_lt_count ?_
  rw [← h.count_eq]
  exact List.countBefore_lt_count_getElem

end

namespace Chain

/-! ### Observed writers -/

/-- The current writers of a field when the walk along the chain reaches a position. -/
def writersAt (chain : Chain) (t : Traffic) (i : Nat) (f : Field) : List Writer :=
  (LineageWalk.along (chain.knownFields t) t (chain.take i)).writersOf f

/-- No element of the chain writes the field. -/
def Unwritten (t : Traffic) (f : Field) (chain : Chain) : Prop :=
  ∀ e ∈ chain, f ∉ e.accessed (chain.knownFields t) t .write

/-- The row of the lineage on a field is that of the element at a position: it is the last one of
its identity that reads the field, and all others that do are occurrences of it. -/
structure OwnsRow (t : Traffic) (chain : Chain) (i : Fin chain.length) (f : Field) : Prop where
  same : ∀ e ∈ chain, e.identity = chain[i].identity →
    f ∈ e.accessed (chain.knownFields t) t .read → e = chain[i]
  last : chain[i] ∉ chain.drop (i + 1)

/-- The positions of two chains can be matched so that equal elements are, and each of them observes
the same writers in both chains on those of the fields it reads that are compared. -/
def KeepsReads (t : Traffic) (chain out : Chain) (compared : Fin chain.length → Field → Prop) :
    Prop :=
  ∃ σ : Fin chain.length ≃ Fin out.length, ∀ i, out[σ i] = chain[i] ∧
    ∀ f ∈ chain[i].accessed (chain.knownFields t) t .read, compared i f →
      out.writersAt t (σ i) f = chain.writersAt t i f

variable {t : Traffic} {level : Level} {chain other : Chain} {f : Field}

theorem writersAt_eq (hd : chain.HasDistinctFields t) (hf : f ∈ chain.knownFields t) (i : Nat) :
    chain.writersAt t i f = writersOf (chain.knownFields t) t f (chain.take i) :=
  LineageWalk.writersOf_along (nodup_knownFields t chain)
    (fun e he ↦ hd e (List.mem_of_mem_take he)) hf

/-- A field that nothing writes comes from the input, wherever it is read. -/
theorem Unwritten.writersOf_eq (h : chain.Unwritten t f) {part : Chain}
    (hs : part.Sublist chain) : part.writersOf (chain.knownFields t) t f = [.input] := by
  induction part using List.reverseRecOn with
  | nil => rfl
  | append_singleton part e ih =>
    have he : e ∈ chain := hs.subset (by simp)
    rw [writersOf_concat, if_neg (h e he), ih ((List.sublist_append_left part [e]).trans hs)]

theorem Unwritten.perm (h : chain.Unwritten t f) (hp : chain.Perm other) :
    other.Unwritten t f := by
  intro e he
  rw [← Element.mem_accessed_congr fun _ ↦ mem_knownFields_perm hp]
  exact h e (hp.mem_iff.mpr he)

/-- An identity observes on a field the writers in front of the last position that reads it. -/
theorem observes_at (hd : chain.HasDistinctFields t) {i : Fin chain.length}
    (hf : f ∈ chain[i].accessed (chain.knownFields t) t .read)
    (hl : ∀ e ∈ chain.drop (i + 1), e.identity = chain[i].identity →
      f ∉ e.accessed (chain.knownFields t) t .read) :
    chain.observes t .read (.element chain[i].identity) f = some (chain.writersAt t i f) := by
  have known : f ∈ chain.knownFields t := mem_knownFields_of_mem_accessed (List.getElem_mem _) hf
  have ho := @observes_of_last (chain.take i) (chain.drop (i + 1)) chain[i] t .read f (by simp)
  rw [take_append_getElem_cons] at ho
  rw [writersAt_eq hd known]
  exact ho hd hf hl

/-- An identity observes what the element with its row does. -/
theorem OwnsRow.observes {i : Fin chain.length} (h : chain.OwnsRow t i f)
    (hd : chain.HasDistinctFields t) (hf : f ∈ chain[i].accessed (chain.knownFields t) t .read) :
    chain.observes t .read (.element chain[i].identity) f = some (chain.writersAt t i f) := by
  refine observes_at hd hf fun e he hi hr ↦ h.last ?_
  rw [← h.same e (List.mem_of_mem_drop he) hi hr]
  exact he

/-- In an order of the chain the matched position has the row. -/
theorem OwnsRow.perm {i : Fin chain.length} (h : chain.OwnsRow t i f) (hp : chain.Perm other) :
    other.OwnsRow t (matched hp i) f := by
  refine ⟨fun e he hi hr ↦ ?_, getElem_matched_not_mem_drop hp h.last⟩
  rw [getElem_matched] at hi ⊢
  rw [← Element.mem_accessed_congr fun _ ↦ mem_knownFields_perm hp] at hr
  exact h.same e (hp.mem_iff.mpr he) hi hr

/-- An element with an identity of its own has the row of its identity. -/
theorem OwnsRow.of_nodup (h : (chain.map Element.identity).Nodup) (i : Fin chain.length)
    (f : Field) : chain.OwnsRow t i f where
  same e he hi _ := List.inj_on_of_nodup_map h he (List.getElem_mem _) hi
  last hm := by
    rw [← take_append_getElem_cons i, List.map_append, List.map_cons] at h
    have hn := (List.nodup_cons.mp (List.nodup_append.mp h).2.1).1
    exact hn (List.mem_map_of_mem hm)

theorem KeepsReads.mono {out : Chain} {compared fewer : Fin chain.length → Field → Prop}
    (h : chain.KeepsReads t out compared) (hf : ∀ i f, fewer i f → compared i f) :
    chain.KeepsReads t out fewer := by
  obtain ⟨σ, hσ⟩ := h
  exact ⟨σ, fun i ↦ ⟨(hσ i).1, fun f hr hc ↦ (hσ i).2 f hr (hf i f hc)⟩⟩

/-- An order that agrees with a chain keeps the reads of fields that nothing writes, and those of the
elements with the rows of the lineage. -/
theorem Agree.keepsReads (hl : level ≠ .ignore) (ha : chain.Agree level t other)
    (hp : chain.Perm other) (hd : chain.HasDistinctFields t) :
    chain.KeepsReads t other fun i f ↦ chain.Unwritten t f ∨ chain.OwnsRow t i f := by
  refine ⟨matched hp, fun i ↦ ⟨getElem_matched hp i, fun f hf h ↦ ?_⟩⟩
  have known : f ∈ chain.knownFields t := mem_knownFields_of_mem_accessed (List.getElem_mem _) hf
  have known' : f ∈ other.knownFields t := (mem_knownFields_perm hp).mp known
  rcases h with h | h
  · rw [writersAt_eq (hd.perm hp) known', writersAt_eq hd known,
      h.writersOf_eq (List.take_sublist _ _), (h.perm hp).writersOf_eq (List.take_sublist _ _)]
  · have hf' : f ∈ other[matched hp i].accessed (other.knownFields t) t .read := by
      rw [getElem_matched, ← Element.mem_accessed_congr fun _ ↦ mem_knownFields_perm hp]
      exact hf
    have ho := (h.perm hp).observes (hd.perm hp) hf'
    rw [getElem_matched, ← ha.reads hl, h.observes hd hf] at ho
    exact (Option.some.inj ho).symm

/-! ### The local search -/

/-- The search keeps what is read of fields that nothing writes, and what the last element of its
identity reads of a field. -/
theorem reorder_keepsReads {out : Chain} {maxMoves : Nat} (hl : level ≠ .ignore)
    (h : chain.reorder t level maxMoves = .ok out) :
    (chain.withTraces t).KeepsReads t out fun i f ↦
      (chain.withTraces t).Unwritten t f ∨ (chain.withTraces t).OwnsRow t i f := by
  obtain ⟨hc, hr⟩ := reaches_of_reorder h
  exact hr.agree.keepsReads hl hr.perm (hc hl)

/-- The search keeps the reads of an element that is listed twice, as it hoists another one that
drops. -/
theorem reorder_keepsReads_repeated :
    let auth := Element.onRequests "auth" { PathEffects.none with read := .only ["user", "key"] }
    let stamp := Element.onRequests "stamp" { PathEffects.none with write := .only ["key"] }
    let limit := Element.onRequests "limit" { PathEffects.none with drop := true }
    let chain : Chain := [auth, stamp, limit, auth]
    let traced := chain.withTraces .request
    let out := Chain.withTraces .request [limit, auth, stamp, auth]
    Level.weak ≠ .ignore ∧ chain.reorder .request .weak 9 = .ok out ∧
      traced.Unwritten .request "user" ∧ traced.OwnsRow .request ⟨3, by decide⟩ "key" ∧
      traced.KeepsReads .request out fun i f ↦
        traced.Unwritten .request f ∨ traced.OwnsRow .request i f := by
  intro auth stamp limit chain traced out
  have hl : Level.weak ≠ .ignore := by decide
  have h : chain.reorder .request .weak 9 = .ok out := by
    rw [reorder, reorderCounted, Criterion.indexed_eq]
    decide +kernel
  have hu : traced.Unwritten .request "user" := by
    unfold Unwritten
    decide +kernel
  exact ⟨hl, h, hu, ⟨by decide +kernel, by decide +kernel⟩, reorder_keepsReads hl h⟩

/-- The first of two equal elements comes to observe a writer that it did not. -/
theorem reorder_weak_changes_repeated :
    let auth := Element.onRequests "auth" { PathEffects.none with read := .only ["user"] }
    let guest := Element.onRequests "guest"
      { PathEffects.none with write := .only ["user"], drop := true }
    let chain : Chain := [auth, guest, auth]
    let out := Chain.withTraces .request [guest, auth, auth]
    chain.isPlaced = true ∧ chain.reorder .request .weak 9 = .ok out ∧
      ¬ (chain.withTraces .request).KeepsReads .request out fun _ _ ↦ True := by
  intro auth guest chain out
  have h : chain.reorder .request .weak 9 = .ok out := by
    rw [reorder, reorderCounted, Criterion.indexed_eq]
    decide +kernel
  refine ⟨by decide, h, ?_⟩
  rintro ⟨σ, hσ⟩
  let first : Fin (chain.withTraces .request).length := ⟨0, by decide⟩
  -- wherever the first element goes, the user is from the guest there
  have hd : ∀ j : Fin out.length, out[j] = (chain.withTraces .request)[first] →
      out.writersAt .request j "user" ≠
        (chain.withTraces .request).writersAt .request first "user" := by
    decide +kernel
  exact hd (σ first) (hσ first).1 ((hσ first).2 "user" (by decide +kernel) trivial)

/-- Where no identity is repeated, the search keeps every read. -/
theorem reorder_keepsReads_of_nodup {out : Chain} {maxMoves : Nat}
    (hd : (chain.map Element.identity).Nodup) (hl : level ≠ .ignore)
    (h : chain.reorder t level maxMoves = .ok out) :
    (chain.withTraces t).KeepsReads t out fun _ _ ↦ True := by
  obtain ⟨hc, hr⟩ := reaches_of_reorder h
  rw [← map_identity_withTraces t] at hd
  exact (hr.agree.keepsReads hl hr.perm (hc hl)).mono fun i f _ ↦ .inr (.of_nodup hd i f)

end Chain

end ChainPlan
