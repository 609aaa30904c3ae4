import ChainPlan.Proofs.LocalSearch
import Mathlib.Algebra.Group.Nat.Defs
import Mathlib.Data.Nat.Choose.Basic

/-! # Convergence of the local search

The disorder of a chain for a goal is the number of its pairs in which an element that yields stands
in front of one that does not. A turn for a goal lowers it. A turn that sinks a copy leaves the
disorder of the stopping elements, which their rank measures, no higher than before. So each step
lowers the pair of the two disorders, that of the stopping elements first, and a search makes at
most `stepsLeft` steps.
-/

namespace ChainPlan

section

variable {α : Type}

/-- The pairs of members in order of which the first passes a test and the second does not. -/
def inversions (p : α → Bool) : List α → Nat
  | [] => 0
  | x :: xs => (if p x then xs.countP fun y ↦ !p y else 0) + inversions p xs

theorem inversions_cons_of_pos {p : α → Bool} {x : α} (h : p x = true) (xs : List α) :
    inversions p (x :: xs) = (xs.countP fun y ↦ !p y) + inversions p xs := by
  rw [inversions, if_pos h]

theorem inversions_cons_of_neg {p : α → Bool} {x : α} (h : p x = false) (xs : List α) :
    inversions p (x :: xs) = inversions p xs := by
  simp [inversions, h]

theorem inversions_append (p : α → Bool) (xs ys : List α) :
    inversions p (xs ++ ys) =
      inversions p xs + inversions p ys + xs.countP p * ys.countP fun y ↦ !p y := by
  induction xs with
  | nil => simp [inversions]
  | cons x xs ih =>
    rw [List.cons_append]
    cases hp : p x with
    | false =>
      rw [inversions_cons_of_neg hp, inversions_cons_of_neg hp, ih,
        List.countP_cons_of_neg (by simp [hp])]
    | true =>
      rw [inversions_cons_of_pos hp, inversions_cons_of_pos hp, ih, List.countP_append,
        List.countP_cons_of_pos hp, Nat.add_mul]
      omega

/-- Around a part of a list, inversions compare as those of the part do. -/
theorem inversions_context_le_iff (p : α → Bool) (front back : List α) {part other : List α}
    (h : part.Perm other) :
    inversions p (front ++ part ++ back) ≤ inversions p (front ++ other ++ back) ↔
      inversions p part ≤ inversions p other := by
  simp only [inversions_append, List.countP_append, h.countP_eq]
  omega

/-- There are no more inversions than pairs of one member that passes and one that does not. -/
theorem inversions_le (p : α → Bool) (xs : List α) :
    inversions p xs ≤ xs.countP p * xs.countP fun x ↦ !p x := by
  induction xs with
  | nil => simp [inversions]
  | cons x xs ih =>
    cases hp : p x with
    | false =>
      rw [inversions_cons_of_neg hp, List.countP_cons_of_neg (by simp [hp]),
        List.countP_cons_of_pos (by simp [hp]), Nat.mul_add]
      omega
    | true =>
      rw [inversions_cons_of_pos hp, List.countP_cons_of_pos hp,
        List.countP_cons_of_neg (by simp [hp]), Nat.add_mul]
      omega

theorem countP_mul_countP_not (p : α → Bool) (xs : List α) :
    (xs.countP p * xs.countP fun x ↦ !p x) = xs.countP p * (xs.length - xs.countP p) := by
  have hl : xs.length = xs.countP p + xs.countP fun x ↦ !p x := by
    simpa using List.length_eq_countP_add_countP p (l := xs)
  rw [hl, Nat.add_sub_cancel_left]

/-- Members that pass and members that do not make up at most all pairs of members. -/
theorem countP_mul_countP_le (p : α → Bool) (xs : List α) :
    (xs.countP p * xs.countP fun x ↦ !p x) ≤ xs.length * (xs.length - 1) / 2 := by
  have hl : xs.length = xs.countP p + xs.countP fun x ↦ !p x := by
    simpa using List.length_eq_countP_add_countP p (l := xs)
  rw [hl]
  generalize xs.countP p = c
  generalize (xs.countP fun x ↦ !p x) = d
  rw [Nat.le_div_iff_mul_le (by omega)]
  cases c with
  | zero => simp
  | succ c =>
    have hd : d ≤ d * d := Nat.le_mul_self d
    have hs : c + 1 + d - 1 = c + d := by omega
    rw [hs]
    simp only [Nat.add_mul, Nat.mul_add, Nat.one_mul, Nat.mul_comm d c]
    omega

private theorem sum_positions (p : α → Bool) (xs : List α) (n : Nat) :
    (((xs.zipIdx n).filter fun e ↦ p e.1).map Prod.snd).foldr (· + ·) 0 =
      n * xs.countP p + inversions (fun x ↦ !p x) xs + (xs.countP p).choose 2 := by
  have hn : (fun x ↦ !!p x) = p := by
    funext x
    exact Bool.not_not (p x)
  have hc (c : Nat) : (c + 1).choose 2 = c + c.choose 2 := by
    rw [Nat.choose_succ_succ' c 1, Nat.choose_one_right]
  induction xs generalizing n with
  | nil => simp [inversions]
  | cons x xs ih =>
    rw [List.zipIdx_cons]
    cases hp : p x with
    | false =>
      rw [List.filter_cons_of_neg (by simp [hp]), ih, inversions_cons_of_pos (by simp [hp]),
        List.countP_cons_of_neg (by simp [hp]), hn, Nat.add_mul]
      omega
    | true =>
      rw [List.filter_cons_of_pos (by exact hp), List.map_cons, List.foldr_cons, ih,
        inversions_cons_of_neg (by simp [hp]), List.countP_cons_of_pos hp,
        hc, Nat.add_mul, Nat.mul_add]
      omega

end

namespace Chain

/-- The pairs of elements of which the first yields and the second does not. -/
def disorder (t : Traffic) (g : Goal) (chain : Chain) : Nat := inversions (g.yields t) chain

/-- The pairs of one element that yields and one that does not, in whatever order. -/
def pairs (t : Traffic) (g : Goal) (chain : Chain) : Nat :=
  chain.countP (g.yields t) * chain.countP fun e ↦ !g.yields t e

/-- A bound for the steps of a search from a chain on. -/
def stepsLeft (t : Traffic) (chain : Chain) : Nat :=
  chain.disorder t .hoistStop * (chain.pairs t .sinkCopy + 1) + chain.disorder t .sinkCopy

variable {t : Traffic} {g : Goal} {level : Level} {chain next : Chain}

theorem disorder_le_pairs (t : Traffic) (g : Goal) (chain : Chain) :
    chain.disorder t g ≤ chain.pairs t g := inversions_le _ _

theorem pairs_perm (t : Traffic) (g : Goal) (h : chain.Perm next) :
    chain.pairs t g = next.pairs t g := by
  rw [pairs, pairs, h.countP_eq, h.countP_eq]

/-- The rank of the stopping elements measures how many elements they have in front of them that do
not stop messages. -/
theorem stopRank_eq (t : Traffic) (chain : Chain) :
    chain.stopRank t =
      chain.disorder t .hoistStop + (chain.countP fun e ↦ (e.on t).stops).choose 2 := by
  have := sum_positions (fun e : Element ↦ (e.on t).stops) chain 0
  rw [Nat.zero_mul, Nat.zero_add] at this
  exact this

theorem stopRank_le_iff (h : chain.Perm next) :
    next.stopRank t ≤ chain.stopRank t ↔
      next.disorder t .hoistStop ≤ chain.disorder t .hoistStop := by
  rw [stopRank_eq, stopRank_eq, h.countP_eq]
  omega

/-- A turn lowers the disorder for its goal. -/
theorem Turn.disorder_lt (h : Turn t g chain next) :
    next.disorder t g < chain.disorder t g := by
  unfold disorder
  cases h with
  | forward front mid back ha hb =>
    simp only [inversions_append, inversions, List.countP_append, List.countP_cons, ha, hb,
      Bool.not_true, Bool.not_false, Bool.false_eq_true, if_true, if_false, Nat.mul_add,
      Nat.zero_add, Nat.add_zero, Nat.mul_one]
    omega
  | backward front mid back ha hb =>
    simp only [inversions_append, inversions, List.countP_append, List.countP_cons, ha, hb,
      Bool.not_true, Bool.not_false, Bool.false_eq_true, if_true, if_false, Nat.mul_add,
      Nat.zero_add, Nat.add_zero, Nat.mul_one]
    omega

/-- An accepted move leaves fewer steps. -/
theorem Accepts.stepsLeft_lt (h : Accepts t level g chain next) :
    next.stepsLeft t < chain.stepsLeft t := by
  have hp := h.turn.perm
  have hd := h.turn.disorder_lt
  have hs := next.disorder_le_pairs t .sinkCopy
  rw [stepsLeft, stepsLeft, ← pairs_perm t .sinkCopy hp] at *
  cases g with
  | hoistStop =>
    have : (next.disorder t .hoistStop + 1) * (chain.pairs t .sinkCopy + 1) ≤
        chain.disorder t .hoistStop * (chain.pairs t .sinkCopy + 1) := Nat.mul_le_mul_right _ hd
    rw [Nat.add_mul, Nat.one_mul] at this
    omega
  | sinkCopy =>
    -- the guard on the rank keeps the leading disorder from growing
    have hr := (stopRank_le_iff hp).mp (h.guarded rfl)
    have : next.disorder t .hoistStop * (chain.pairs t .sinkCopy + 1) ≤
        chain.disorder t .hoistStop * (chain.pairs t .sinkCopy + 1) := Nat.mul_le_mul_right _ hr
    omega

/-- No accepted move raises the disorder of the stopping elements. -/
theorem Accepts.disorder_hoistStop_le (h : Accepts t level g chain next) :
    next.disorder t .hoistStop ≤ chain.disorder t .hoistStop := by
  cases g with
  | hoistStop => exact Nat.le_of_lt h.turn.disorder_lt
  | sinkCopy => exact (stopRank_le_iff h.turn.perm).mp (h.guarded rfl)

/-- A search does not spend a budget of all the steps that are left. -/
theorem exists_descend {limit budget : Nat} (stats : ReorderStats)
    (hc : chain.Comparable level t) (hb : chain.stepsLeft t ≤ budget) :
    ∃ stats' out, descend (.indexed t level) t limit budget stats chain = (stats', .ok out) := by
  induction budget generalizing stats chain with
  | zero =>
    obtain ⟨⟨count, found⟩, hs⟩ := exists_scan_iff.mpr hc
    rw [descend, hs]
    rcases found with _ | ⟨m, next⟩
    · exact ⟨_, _, rfl⟩
    · have := (accepts_of_scan hs).stepsLeft_lt
      omega
  | succ budget ih =>
    obtain ⟨⟨count, found⟩, hs⟩ := exists_scan_iff.mpr hc
    rw [descend, hs]
    rcases found with _ | ⟨m, next⟩
    · exact ⟨_, _, rfl⟩
    · have ha := accepts_of_scan hs
      have hl := ha.stepsLeft_lt
      exact ih _ (hc.perm ha.turn.perm) (by omega)

/-- A search that has no step to make ends where it is, within any budget. -/
theorem exists_descend_of_settled (limit budget : Nat) (stats : ReorderStats)
    (hc : chain.Comparable level t) (hs : ∀ next, ¬ Step t level chain next) :
    ∃ stats', descend (.indexed t level) t limit budget stats chain = (stats', .ok chain) := by
  obtain ⟨⟨count, found⟩, hf⟩ := exists_scan_iff.mpr hc
  rcases found with _ | ⟨m, next⟩
  · exact ⟨_, descend_of_scan hf limit budget stats⟩
  · exact absurd ⟨m.goal, accepts_of_scan hf⟩ (hs next)

/-- There are at most as many steps as pairs for the one goal and pairs for the other allow. -/
theorem stepsLeft_lt (t : Traffic) (chain : Chain) :
    chain.stepsLeft t < (chain.pairs t .hoistStop + 1) * (chain.pairs t .sinkCopy + 1) := by
  have hh := Nat.mul_le_mul_right (chain.pairs t .sinkCopy + 1)
    (chain.disorder_le_pairs t .hoistStop)
  have hs := chain.disorder_le_pairs t .sinkCopy
  rw [stepsLeft, Nat.add_mul, Nat.one_mul]
  omega

theorem pairs_le (t : Traffic) (g : Goal) (chain : Chain) :
    chain.pairs t g ≤ chain.length * (chain.length - 1) / 2 := countP_mul_countP_le _ _

/-- The pairs of one element that stops messages and one that does not. -/
theorem pairs_hoistStop (t : Traffic) (chain : Chain) :
    chain.pairs t .hoistStop = (chain.countP fun e ↦ (e.on t).stops) *
      (chain.length - chain.countP fun e ↦ (e.on t).stops) := by
  have hn : (fun e ↦ !Goal.hoistStop.yields t e) = fun e ↦ (e.on t).stops := by
    funext e
    exact Bool.not_not (e.on t).stops
  rw [pairs, hn, Nat.mul_comm]
  exact countP_mul_countP_not _ chain

/-- The pairs of one element that copies messages and one that does not. -/
theorem pairs_sinkCopy (t : Traffic) (chain : Chain) :
    chain.pairs t .sinkCopy = (chain.countP fun e ↦ (e.on t).copy) *
      (chain.length - chain.countP fun e ↦ (e.on t).copy) :=
  countP_mul_countP_not _ chain

@[simp] theorem pairs_withTraces (t : Traffic) (g : Goal) (chain : Chain) :
    (chain.withTraces t).pairs t g = chain.pairs t g := by
  have hy (e : Element) : g.yields t (e.withTraces t) = g.yields t e := by
    cases g <;> simp [Goal.yields]
  simp only [pairs, withTraces, List.countP_map, Function.comp_def, hy]

/-- A local search with a budget of all pairs for the one goal, and one, times all pairs for the
other, and one, ends. -/
theorem exists_reorderCounted {maxMoves : Nat} (hc : (chain.withTraces t).Comparable level t)
    (hb : (chain.pairs t .hoistStop + 1) * (chain.pairs t .sinkCopy + 1) - 1 ≤ maxMoves) :
    ∃ stats out, chain.reorderCounted t level maxMoves = (stats, .ok out) := by
  have hs := (chain.withTraces t).stepsLeft_lt t
  rw [pairs_withTraces, pairs_withTraces] at hs
  exact exists_descend .zero hc (by omega)

/-- A local search with a budget of the square of all pairs of elements, and one, ends. -/
theorem exists_reorder {maxMoves : Nat} (hc : chain.Comparable level t)
    (hb : (chain.length * (chain.length - 1) / 2 + 1) ^ 2 ≤ maxMoves) :
    ∃ out, chain.reorder t level maxMoves = .ok out := by
  have hm : (chain.pairs t .hoistStop + 1) * (chain.pairs t .sinkCopy + 1) - 1 ≤ maxMoves := by
    have hp := Nat.mul_le_mul (Nat.add_le_add_right (chain.pairs_le t .hoistStop) 1)
      (Nat.add_le_add_right (chain.pairs_le t .sinkCopy) 1)
    rw [← Nat.pow_two] at hp
    omega
  obtain ⟨stats, out, h⟩ := exists_reorderCounted hc.withTraces hm
  exact ⟨out, congrArg Prod.snd h⟩

/-! ### Budgets -/

/-- A search from a chain that the level cannot judge makes no move: a field is listed twice. -/
theorem descend_of_not_comparable (limit budget : Nat) (stats : ReorderStats)
    (hc : ¬ chain.Comparable level t) :
    ∃ element access field, descend (.indexed t level) t limit budget stats chain =
      (stats, .error (.duplicateField element t access field)) := by
  cases hs : chain.scan (.indexed t level) t with
  | ok r => exact absurd (exists_scan_iff.mp ⟨r, hs⟩) hc
  | error error =>
    obtain ⟨-, element, access, field, rfl⟩ := exists_of_scan_eq_error hs
    refine ⟨element, access, field, ?_⟩
    cases budget <;> rw [descend, hs]

/-- A search that ends within a budget is the same search under a larger one. -/
theorem descend_of_le {criterion : Criterion} {limit limit' budget budget' : Nat}
    {stats stats' : ReorderStats} {out : Chain} (hb : budget ≤ budget')
    (h : descend criterion t limit budget stats chain = (stats', .ok out)) :
    descend criterion t limit' budget' stats chain = (stats', .ok out) := by
  induction budget generalizing stats chain budget' with
  | zero =>
    rw [descend] at h ⊢
    split at h
    · cases h
    · exact h
    · cases h
  | succ budget ih =>
    obtain ⟨budget', rfl⟩ : ∃ more, budget' = more + 1 := ⟨budget' - 1, by omega⟩
    rw [descend] at h ⊢
    split at h
    · cases h
    · exact h
    · exact ih (by omega) h

/-- The budget is only a cut-off. One that allows for every pair of a stopping element and another,
and for every pair of a copying element and another, is never spent, and a search that ends within
some budget ends with the same chain and the same numbers within every larger one. -/
theorem reorderCounted_converges (chain : Chain) (t : Traffic) (level : Level) :
    let n := chain.length
    let d := chain.countP fun e ↦ (e.on t).stops
    let c := chain.countP fun e ↦ (e.on t).copy
    (∀ maxMoves, (d * (n - d) + 1) * (c * (n - c) + 1) - 1 ≤ maxMoves →
      (chain.Comparable level t →
        ∃ stats out, chain.reorderCounted t level maxMoves = (stats, .ok out)) ∧
      ∀ u moves, (chain.reorderCounted t level maxMoves).2 ≠ .error (.movesExhausted u moves)) ∧
    ∀ m m' stats out, m ≤ m' → chain.reorderCounted t level m = (stats, .ok out) →
      chain.reorderCounted t level m' = (stats, .ok out) := by
  intro n d c
  refine ⟨fun maxMoves hb ↦ ?_, fun m m' stats out hm h ↦ descend_of_le hm h⟩
  rw [← pairs_hoistStop, ← pairs_sinkCopy] at hb
  refine ⟨fun hc ↦ exists_reorderCounted hc.withTraces hb, fun u moves he ↦ ?_⟩
  by_cases hc : (chain.withTraces t).Comparable level t
  · obtain ⟨stats, out, h⟩ := exists_reorderCounted hc hb
    rw [h] at he
    cases he
  · obtain ⟨element, access, field, hd⟩ :=
      descend_of_not_comparable maxMoves maxMoves .zero hc
    rw [reorderCounted, hd] at he
    cases he

/-- One element is hoisted and another sunk, so two moves suffice here and eight do for every chain
of this length with one stopping and one copying element. -/
theorem reorderCounted_converges_both_goals :
    let mirror := Element.onRequests "mirror" { PathEffects.none with copy := true }
    let tag := Element.onRequests "tag" { PathEffects.none with write := .only ["user"] }
    let acl := Element.onRequests "acl" { PathEffects.none with read := .only ["key"], drop := true }
    let chain : Chain := [mirror, tag, acl]
    let out : Chain := Chain.withTraces .request [acl, tag, mirror]
    (1 * (3 - 1) + 1) * (1 * (3 - 1) + 1) - 1 ≤ 8 ∧
      (∃ stats out, chain.reorderCounted .request .weak 8 = (stats, .ok out)) ∧
      (∀ u moves, (chain.reorderCounted .request .weak 8).2 ≠ .error (.movesExhausted u moves)) ∧
      chain.reorderCounted .request .weak 2 = (⟨1, 1, 2⟩, .ok out) ∧
      chain.reorderCounted .request .weak 8 = (⟨1, 1, 2⟩, .ok out) := by
  intro mirror tag acl chain out
  have h : chain.reorderCounted .request .weak 2 = (⟨1, 1, 2⟩, .ok out) := by
    rw [reorderCounted, Criterion.indexed_eq]
    decide +kernel
  obtain ⟨enough, larger⟩ := reorderCounted_converges chain .request .weak
  have hd : chain.HasDistinctFields .request := by decide
  obtain ⟨ends, never⟩ := enough 8 (by decide)
  exact ⟨by decide, ends fun _ ↦ hd, never, h, larger 2 8 _ _ (by decide) h⟩

end Chain

end ChainPlan
