import ChainPlan.Equivalence.Indexed
import ChainPlan.Proofs.Observations

/-! # Agreement of chains

Two chains agree at a level if every reader, and at the strong level every recorder, observes the
same writers in both. Agreement is an equivalence relation on chains. A candidate may stand for a
chain exactly if its placement is valid and the two agree; the only other outcome than a verdict
is a field that is listed twice, which the level `ignore` does not look for.
-/

namespace ChainPlan

/-- The accesses whose observations a level compares. -/
def Level.compared : Level → List Access
  | .ignore => []
  | .weak => [.read]
  | .strong => [.read, .record]

theorem Level.ne_write_of_mem_compared {level : Level} {k : Access} (h : k ∈ level.compared) :
    k ≠ .write := by
  rintro rfl
  cases level <;> simp [compared] at h

namespace Chain

/-- Whoever the level asks about observes the same writers in both chains. -/
def Agree (level : Level) (t : Traffic) (a b : Chain) : Prop :=
  ∀ k ∈ level.compared, ∀ r f, a.observes t k r f = b.observes t k r f

/-- The level can judge the chain: it compares nothing, or no set lists a field twice. -/
def Comparable (level : Level) (t : Traffic) (chain : Chain) : Prop :=
  level ≠ .ignore → chain.HasDistinctFields t

namespace Agree

variable {level : Level} {t : Traffic} {a b c : Chain}

theorem refl (level : Level) (t : Traffic) (a : Chain) : Agree level t a a :=
  fun _ _ _ _ ↦ rfl

theorem symm (h : Agree level t a b) : Agree level t b a :=
  fun k hk r f ↦ (h k hk r f).symm

theorem trans (h : Agree level t a b) (h' : Agree level t b c) : Agree level t a c :=
  fun k hk r f ↦ (h k hk r f).trans (h' k hk r f)

/-- Chains with the same lineage agree at every level. -/
theorem of_trace_eq (level : Level) (h : Lineage.trace a t = Lineage.trace b t) :
    Agree level t a b := by
  intro k _ r f
  rw [observes, observes, h]

/-- What the strict levels compare: the reads, whichever of them it is. -/
theorem reads (h : Agree level t a b) (hl : level ≠ .ignore) (r : Reader) (f : Field) :
    a.observes t .read r f = b.observes t .read r f := by
  apply h
  cases level with
  | ignore => exact absurd rfl hl
  | weak => simp [Level.compared]
  | strong => simp [Level.compared]

end Agree

namespace Comparable

variable {level : Level} {t : Traffic} {chain other : Chain}

theorem perm (h : chain.Comparable level t) (hp : chain.Perm other) :
    other.Comparable level t := fun hl ↦ (h hl).perm hp

theorem withTraces (h : chain.Comparable level t) : (chain.withTraces t).Comparable level t :=
  fun hl ↦ (h hl).withTraces

end Comparable

end Chain

/-- A lineage keeps another at a level exactly if their chains agree. -/
theorem Oracle.keeps_eq_true_iff (level : Level) (a b : Chain) (t : Traffic) :
    keeps level (.trace a t) (.trace b t) = true ↔ Chain.Agree level t a b := by
  have hr := Lineage.sameReads_iff b a t
  have hc := Lineage.sameRecords_iff b a t
  have hs : Chain.Agree level t a b ↔ Chain.Agree level t b a := ⟨.symm, .symm⟩
  rw [hs]
  cases level with
  | ignore => simp [keeps, Chain.Agree, Level.compared]
  | weak => simp [keeps, hr, Chain.Agree, Level.compared]
  | strong => simp [keeps, hr, hc, Chain.Agree, Level.compared]

/-- The strict levels first look for a duplicate field in the chain, then at the placement of the
candidate, then for a duplicate field in the candidate, and compare the lineages last. -/
theorem equivalent_strict {level : Level} (h : level ≠ .ignore) (chain candidate : Chain)
    (t : Traffic) :
    equivalent chain candidate t level =
      match chain.firstDuplicate? t with
      | some error => .error error
      | none =>
        if candidate.isPlaced then
          match candidate.firstDuplicate? t with
          | some error => .error error
          | none => .ok (Oracle.keeps level (.trace chain t) (.trace candidate t))
        else .ok false := by
  rw [equivalent_eq]
  cases level with
  | ignore => exact absurd rfl h
  | weak | strong =>
    simp only [Oracle.ofChain, Lineage.ofChain]
    cases chain.firstDuplicate? t with
    | some error => rfl
    | none =>
      simp only [Oracle.accepts, bind, Except.bind, pure, Except.pure, Lineage.ofChain]
      cases candidate.firstDuplicate? t <;> rfl

/-- Chains that the level can judge get a verdict: valid placement and agreement. -/
theorem exists_verdict {level : Level} {t : Traffic} {chain candidate : Chain}
    (h : chain.Comparable level t) (h' : candidate.Comparable level t) :
    ∃ verdict, equivalent chain candidate t level = .ok verdict ∧
      (verdict = true ↔ candidate.isPlaced = true ∧ chain.Agree level t candidate) := by
  by_cases hl : level = .ignore
  · subst level
    exact ⟨_, rfl, by simp [Chain.Agree, Level.compared]⟩
  · rw [equivalent_strict hl, (chain.firstDuplicate?_eq_none_iff t).mpr (h hl),
      (candidate.firstDuplicate?_eq_none_iff t).mpr (h' hl)]
    by_cases hp : candidate.isPlaced = true
    · exact ⟨_, if_pos hp, by rw [Oracle.keeps_eq_true_iff, and_iff_right hp]⟩
    · exact ⟨_, if_neg hp, by simp [hp]⟩

/-- A candidate may stand for a chain exactly if the level can judge both, the placement of the
candidate is valid, and the two agree. -/
theorem equivalent_eq_ok_true_iff {level : Level} {t : Traffic} {chain candidate : Chain} :
    equivalent chain candidate t level = .ok true ↔
      (chain.Comparable level t ∧ candidate.Comparable level t) ∧
        candidate.isPlaced = true ∧ chain.Agree level t candidate := by
  constructor
  · intro h
    have hc : chain.Comparable level t ∧ candidate.Comparable level t := by
      constructor <;>
      · intro hl
        rw [equivalent_strict hl] at h
        rw [← Chain.firstDuplicate?_eq_none_iff]
        split at h
        · cases h
        · next hd =>
          split at h
          · split at h
            · cases h
            · assumption
          · cases h
    obtain ⟨verdict, hv, hi⟩ := exists_verdict hc.1 hc.2
    rw [hv] at h
    exact ⟨hc, hi.mp (Except.ok.inj h)⟩
  · rintro ⟨hc, ha⟩
    obtain ⟨verdict, hv, hi⟩ := exists_verdict hc.1 hc.2
    rw [hv, hi.mpr ha]

/-- A chain with a valid placement may stand for itself. -/
theorem equivalent_self {level : Level} {t : Traffic} {chain : Chain}
    (hc : chain.Comparable level t) (hp : chain.isPlaced = true) :
    equivalent chain chain t level = .ok true :=
  equivalent_eq_ok_true_iff.mpr ⟨⟨hc, hc⟩, hp, .refl level t chain⟩

namespace Chain

/-- A criterion gives a chain the verdicts of the equivalence with it. -/
theorem equivalent_of_indexed {t : Traffic} {level : Level} {chain : Chain}
    {accepts : Chain → Except PlanError Bool} (h : Criterion.indexed t level chain = .ok accepts)
    (candidate : Chain) : equivalent chain candidate t level = accepts candidate := by
  rw [equivalent, h]
  rfl

/-- The strict levels judge by the lineage of the chain, unless it has a duplicate field. -/
theorem indexed_strict {level : Level} (h : level ≠ .ignore) (t : Traffic) (chain : Chain) :
    Criterion.indexed t level chain =
      match chain.firstDuplicate? t with
      | some error => .error error
      | none => .ok (LineageIndex.accepts t level (.trace chain t)) := by
  have hi : Criterion.indexed t level chain =
      (LineageIndex.ofChain chain t).map (LineageIndex.accepts t level) := by
    cases level with
    | ignore => exact absurd rfl h
    | weak => rfl
    | strong => rfl
  rw [hi, LineageIndex.ofChain_eq, Lineage.ofChain]
  cases chain.firstDuplicate? t <;> rfl

/-- A chain that the level cannot judge has no criterion. -/
theorem exists_indexed_iff {t : Traffic} {level : Level} {chain : Chain} :
    (∃ accepts, Criterion.indexed t level chain = .ok accepts) ↔ chain.Comparable level t := by
  by_cases hl : level = .ignore
  · subst level
    simp [Criterion.indexed, Comparable]
  · have hc : chain.Comparable level t ↔ chain.firstDuplicate? t = none := by
      rw [firstDuplicate?_eq_none_iff]
      exact ⟨fun h ↦ h hl, fun h _ ↦ h⟩
    rw [hc, indexed_strict hl]
    cases chain.firstDuplicate? t <;> simp

/-- A chain without a criterion has a field that is listed twice. -/
theorem exists_of_indexed_eq_error {t : Traffic} {level : Level} {chain : Chain}
    {error : PlanError} (h : Criterion.indexed t level chain = .error error) :
    ∃ element access field, error = .duplicateField element t access field := by
  by_cases hl : level = .ignore
  · subst level
    cases h
  · rw [indexed_strict hl] at h
    cases hd : chain.firstDuplicate? t with
    | none =>
      rw [hd] at h
      cases h
    | some first =>
      rw [hd] at h
      cases h
      exact exists_of_firstDuplicate? hd

end Chain

end ChainPlan
