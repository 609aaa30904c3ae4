import ChainPlan.Proofs.Dependencies
import ChainPlan.Proofs.LocalSearch

/-! # What chains do to messages

An interpretation gives elements a meaning: what they write is a function of what they read and of
the value that is overwritten, and whether a dropping element stops a message is decided by what it
reads. Elements that do not depend on each other may be exchanged under every interpretation. The
local search only shuffles such elements, so it keeps what a chain does to every message.
-/

namespace ChainPlan

universe u

/-- The values of the fields of a message. -/
abbrev Message (V : Type u) := Field → V

/-- The values of some fields of a message, those of the others unknown. -/
abbrev Excerpt (V : Type u) := Field → Option V

/-- The message as far as some fields show it. -/
def Message.excerpt {V : Type u} (m : Message V) (fields : List Field) : Excerpt V :=
  fun f ↦ if f ∈ fields then some (m f) else none

/-- A meaning of elements, over any type of values. -/
structure Interpretation (V : Type u) where
  /-- Whether a dropping element stops a message, by what it reads of it. -/
  stops : Element → Excerpt V → Bool
  /-- The new value of a field, by what the element reads of the message and by the old value. -/
  value : Element → Field → Excerpt V → V → V

/-- What becomes of a message. -/
inductive Fate (V : Type u) where
  /-- An element has stopped it. -/
  | dropped (e : Element)
  /-- It leaves the chain with these values of the known fields. -/
  | delivered (values : Excerpt V)

namespace Interpretation

variable {V : Type u} (I : Interpretation V) (known : List Field) (t : Traffic)

/-- What an element sees of a message: the fields that it reads. -/
def seen (e : Element) (m : Message V) : Excerpt V := m.excerpt (e.accessed known t .read)

/-- Whether an element stops a message. -/
def stopsAt (e : Element) (m : Message V) : Bool :=
  (e.on t).drop && I.stops e (seen known t e m)

/-- The message behind an element that lets it pass. -/
def pass (e : Element) (m : Message V) : Message V := fun f ↦
  if f ∈ e.accessed known t .write then I.value e f (seen known t e m) (m f) else m f

/-- What becomes of a message that visits elements in order. -/
def run : Chain → Message V → Fate V
  | [], m => .delivered (m.excerpt known)
  | e :: rest, m => if I.stopsAt known t e m then .dropped e else run rest (I.pass known t e m)

/-- What becomes of a message that enters a chain. -/
def outcome (chain : Chain) (m : Message V) : Fate V := I.run (chain.knownFields t) t chain m

variable {I known t}

theorem excerpt_congr {fields other : List Field} (h : ∀ f, f ∈ fields ↔ f ∈ other)
    (m : Message V) : m.excerpt fields = m.excerpt other := by
  funext f
  simp only [Message.excerpt, h f]

/-- Messages look the same where they have the same values. -/
theorem excerpt_eq {fields : List Field} {m n : Message V} (h : ∀ f ∈ fields, m f = n f) :
    m.excerpt fields = n.excerpt fields := by
  funext f
  unfold Message.excerpt
  split
  · next hf => rw [h f hf]
  · rfl

theorem pass_of_mem {e : Element} {f : Field} (h : f ∈ e.accessed known t .write)
    (m : Message V) : I.pass known t e m f = I.value e f (seen known t e m) (m f) := if_pos h

theorem pass_of_not_mem {e : Element} {f : Field} (h : f ∉ e.accessed known t .write)
    (m : Message V) : I.pass known t e m f = m f := if_neg h

/-- What becomes of a message hangs on which fields are known, not on their order. -/
theorem run_congr {other : List Field} (h : ∀ f, f ∈ known ↔ f ∈ other) (chain : Chain)
    (m : Message V) : I.run known t chain m = I.run other t chain m := by
  have hs (e : Element) (m : Message V) : seen known t e m = seen other t e m :=
    excerpt_congr (fun _ ↦ Element.mem_accessed_congr h) m
  have hp (e : Element) (m : Message V) : I.pass known t e m = I.pass other t e m := by
    funext f
    by_cases hf : f ∈ e.accessed known t .write
    · rw [pass_of_mem hf, pass_of_mem ((Element.mem_accessed_congr h).mp hf), hs]
    · rw [pass_of_not_mem hf, pass_of_not_mem (mt (Element.mem_accessed_congr h).mpr hf)]
  have hd (e : Element) (m : Message V) : I.stopsAt known t e m = I.stopsAt other t e m := by
    rw [stopsAt, stopsAt, hs]
  induction chain generalizing m with
  | nil => rw [run, run, excerpt_congr h]
  | cons e rest ih => rw [run, run, hd, hp, ih]

section

variable {level : Level} {a b : Element}

/-- An element sees the same in front of one that does not feed it and behind it. -/
theorem seen_pass (hl : level ≠ .ignore) (h : ¬ a.Feeds known t level b) (m : Message V) :
    seen known t b (I.pass known t a m) = seen known t b m := by
  refine excerpt_eq fun f hf ↦ pass_of_not_mem (fun ha ↦ h ⟨f, ha, .read, ?_, hf⟩) m
  cases level with
  | ignore => exact absurd rfl hl
  | weak => simp [Level.ordered]
  | strong => simp [Level.ordered]

/-- Independent elements that both let a message pass change it in the same way in either order. -/
theorem pass_pass (hl : level ≠ .ignore) (hab : ¬ a.Feeds known t level b)
    (hba : ¬ b.Feeds known t level a) (m : Message V) :
    I.pass known t b (I.pass known t a m) = I.pass known t a (I.pass known t b m) := by
  funext f
  by_cases hfa : f ∈ a.accessed known t .write
  · have hfb : f ∉ b.accessed known t .write := fun hfb ↦
      hab ⟨f, hfa, .write, (Level.mem_ordered hl).mpr (Or.inr rfl), hfb⟩
    rw [pass_of_not_mem hfb, pass_of_mem hfa, pass_of_mem hfa, seen_pass hl hba,
      pass_of_not_mem hfb]
  · by_cases hfb : f ∈ b.accessed known t .write
    · rw [pass_of_mem hfb, pass_of_not_mem hfa, pass_of_not_mem hfa, pass_of_mem hfb,
        seen_pass hl hab]
    · rw [pass_of_not_mem hfb, pass_of_not_mem hfa, pass_of_not_mem hfa, pass_of_not_mem hfb]

/-- Independent elements may be exchanged if not both of them drop messages. -/
theorem run_swap (hl : level ≠ .ignore) (hab : ¬ a.Feeds known t level b)
    (hba : ¬ b.Feeds known t level a) (hd : ¬ ((a.on t).drop = true ∧ (b.on t).drop = true))
    (rest : Chain) (m : Message V) :
    I.run known t (a :: b :: rest) m = I.run known t (b :: a :: rest) m := by
  have ha : I.stopsAt known t a (I.pass known t b m) = I.stopsAt known t a m := by
    rw [stopsAt, stopsAt, seen_pass hl hba]
  have hb : I.stopsAt known t b (I.pass known t a m) = I.stopsAt known t b m := by
    rw [stopsAt, stopsAt, seen_pass hl hab]
  simp only [run, ha, hb, pass_pass hl hab hba]
  cases hsa : I.stopsAt known t a m with
  | false => rfl
  | true =>
    cases hsb : I.stopsAt known t b m with
    | false => rfl
    | true =>
      simp only [stopsAt, Bool.and_eq_true] at hsa hsb
      exact absurd ⟨hsa.1, hsb.1⟩ hd

end

/-- Shuffles of independent elements do the same to every message, if every dropping element notes
that it drops. -/
theorem run_eq_of_shuffled {level : Level} (hl : level ≠ .ignore) {chain other : Chain}
    (h : Shuffled (Element.Feeds known t level) chain other)
    (hd : ∀ e ∈ chain, (e.on t).drop = true → Field.dropTrace ∈ e.accessed known t .write)
    (m : Message V) : I.run known t chain m = I.run known t other m := by
  induction h generalizing m with
  | nil => rfl
  | cons e _ ih =>
    have ih := ih fun d hm ↦ hd d (List.mem_cons_of_mem e hm)
    simp only [run, ih]
  | swap a b rest hab hba =>
    refine run_swap hl hab hba (fun hdrop ↦ hab ?_) rest m
    exact ⟨Field.dropTrace, hd a (by simp) hdrop.1, .write,
      (Level.mem_ordered hl).mpr (Or.inr rfl), hd b (by simp) hdrop.2⟩
  | trans h _ ih ih' =>
    exact (ih hd m).trans (ih' (fun e he ↦ hd e (h.perm.mem_iff.mpr he)) m)

end Interpretation

namespace Chain

variable {V : Type u}

/-- The local search keeps what becomes of every message under every interpretation. -/
theorem outcome_reorder {chain out : Chain} {t : Traffic} {level : Level} {maxMoves : Nat}
    (hl : level ≠ .ignore) (hd : (chain.map Element.identity).Nodup)
    (hu : ∀ e ∈ chain, e.partner = none) (h : chain.reorder t level maxMoves = .ok out)
    (I : Interpretation V) (m : Message V) :
    I.outcome t (chain.withTraces t) m = I.outcome t out m := by
  obtain ⟨hc, hr⟩ := reaches_of_reorder h
  have hd' : ((chain.withTraces t).map Element.identity).Nodup := by
    rwa [map_identity_withTraces]
  have hu' : ∀ e ∈ chain.withTraces t, e.partner = none := by
    simpa [withTraces] using hu
  have known (f : Field) : f ∈ (chain.withTraces t).knownFields t ↔ f ∈ out.knownFields t :=
    mem_knownFields_perm hr.perm
  have drops : ∀ e ∈ chain.withTraces t, (e.on t).drop = true →
      Field.dropTrace ∈ e.accessed ((chain.withTraces t).knownFields t) t .write := by
    intro e he hdrop
    obtain ⟨e, -, rfl⟩ := List.mem_map.mp he
    rw [Element.on_withTraces] at hdrop
    exact Element.mem_accessed_withTraces
      (mem_knownFields.mpr (Or.inl (by simp [Field.traces])))
      (PathEffects.mem_marks.mpr (Or.inl ⟨hdrop, rfl⟩))
  have ho := sameOrder_of_agree hl hd' hu' (hc hl) hr.perm hr.agree
  have hs := shuffled_of_sameOrder (hd'.of_map _) hr.perm ho
  rw [Interpretation.outcome, Interpretation.outcome,
    Interpretation.run_eq_of_shuffled hl hs drops, Interpretation.run_congr known]

/-- A message that a list of keys keeps out is still stopped by it when it is hoisted. -/
theorem outcome_reorder_hoisted :
    let tag := Element.onRequests "tag" { PathEffects.none with write := .only ["user"] }
    let acl := Element.onRequests "acl"
      { PathEffects.none with read := .only ["key"], drop := true }
    let I : Interpretation Nat := ⟨fun _ seen ↦ seen "key" = some 0, fun _ _ _ old ↦ old + 1⟩
    Chain.reorder [tag, acl] .request .weak 1 = .ok (Chain.withTraces .request [acl, tag]) ∧
      I.outcome .request (Chain.withTraces .request [tag, acl]) (fun _ ↦ 0) =
        I.outcome .request (Chain.withTraces .request [acl, tag]) (fun _ ↦ 0) := by
  intro tag acl I
  have h : Chain.reorder [tag, acl] .request .weak 1 =
      .ok (Chain.withTraces .request [acl, tag]) := by
    rw [reorder, reorderCounted, Criterion.indexed_eq]
    decide +kernel
  exact ⟨h, outcome_reorder (by decide) (by decide +kernel) (by decide) h I _⟩

end Chain

end ChainPlan
