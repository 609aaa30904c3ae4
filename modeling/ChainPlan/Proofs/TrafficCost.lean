import ChainPlan.Proofs.Convergence
import ChainPlan.Proofs.Optimum
import Mathlib.Algebra.BigOperators.Group.List.Basic
import Mathlib.Algebra.Order.BigOperators.GroupWithZero.List
import Mathlib.Tactic.Linarith
import Mathlib.Tactic.Ring

/-! # Moves and the cost of traffic

The cost of running a chain is a sum in which each element counts with the part of the workload that
reaches it. To take one element past a part of the chain costs no more if it costs no more to let it
change places with each element of that part. For neighbours this is so unless a stopping element
goes behind one that is not. The moves of the local search are of this kind: the guard on the rank
of the stopping elements, under which copies sink, is a guard on the cost too.
-/

namespace ChainPlan

section

variable {α : Type} {p : α → Bool}

/-- In front of a part, a member that passes makes no more inversions than behind it only if all of
the part passes. -/
theorem forall_of_inversions_cons_le {x : α} {part : List α}
    (h : inversions p (x :: part) ≤ inversions p (part ++ [x])) (hx : p x = true) :
    ∀ y ∈ part, p y = true := by
  have hs : [x].countP (fun y ↦ !p y) = 0 := by simp [hx]
  have hc : part.countP (fun y ↦ !p y) = 0 := by
    rw [inversions_append, hs, inversions_cons_of_pos hx, inversions_cons_of_pos hx] at h
    simp only [inversions, List.countP_nil] at h
    omega
  simpa using hc

/-- Behind a part, a member that does not pass makes no more inversions than in front of it only if
none of the part passes. -/
theorem forall_of_inversions_concat_le {x : α} {part : List α}
    (h : inversions p (part ++ [x]) ≤ inversions p (x :: part)) (hx : p x = false) :
    ∀ y ∈ part, p y = false := by
  have hs : [x].countP (fun y ↦ !p y) = 1 := by simp [hx]
  have hc : part.countP p = 0 := by
    rw [inversions_append, hs, inversions_cons_of_neg hx, inversions_cons_of_neg hx] at h
    simp only [inversions] at h
    omega
  simpa using hc

end

section

variable {K : Type} [CommRing K]

/-- What an element costs at full workload. -/
def Weights.of (weights : Weights K) (e : Element) : K :=
  if e.isNetwork then weights.network else weights.element

/-- The part of the workload that an element lets through. -/
def Element.passing (weights : Weights K) (t : Traffic) (e : Element) : K :=
  if (e.on t).stops then 1 - weights.drop else 1

namespace Chain

variable (weights : Weights K) (t : Traffic)

/-- The part of the workload that a part of a chain lets through. -/
def passing (part : Chain) : K := (part.map (Element.passing weights t)).prod

/-- What a part of a chain costs at full workload. -/
def load : Chain → K
  | [] => 0
  | e :: rest => weights.of e + e.passing weights t * load rest

theorem load_append (front back : Chain) :
    load weights t (front ++ back) =
      load weights t front + passing weights t front * load weights t back := by
  induction front with
  | nil => simp [load, passing]
  | cons e front ih =>
    rw [List.cons_append, load, load, ih, passing, passing, List.map_cons, List.prod_cons]
    ring

theorem foldl_pass_total (part : Chain) (flow : Flow K) :
    (part.foldl (Flow.pass weights t) flow).total =
      flow.total + flow.workload * load weights t part := by
  induction part generalizing flow with
  | nil => simp [load]
  | cons e part ih =>
    rw [List.foldl_cons, ih, load]
    simp only [Flow.pass, Weights.of, Element.passing]
    split <;> split <;> ring

/-- The cost of running a chain is what it costs at full workload. -/
theorem trafficCost_eq_load (chain : Chain) :
    chain.trafficCost weights t = load weights t chain := by
  rw [trafficCost, foldl_pass_total]
  simp [Flow.full]

/-- Without extra costs, a chain costs what it costs to run it. -/
theorem costOf_eq_load {weights : Weights K} (hs : weights.strong = 0) (hd : weights.deploy = 0)
    (chain : Chain) : chain.costOf weights t = load weights t chain := by
  simp only [costOf, addDeployCost, addStrongCost, hs, hd, add_zero, ite_self,
    trafficCost_eq_load]

/-- In front of a part an element costs more than behind it by what it costs more in front of the
first element, and in front of the rest with what the first one lets through. -/
theorem load_front_sub_back (a e : Element) (part : Chain) :
    load weights t (a :: e :: part) - load weights t (e :: part ++ [a]) =
      load weights t [a, e] - load weights t [e, a] +
        e.passing weights t * (load weights t (a :: part) - load weights t (part ++ [a])) := by
  simp only [List.cons_append, load, mul_zero, add_zero]
  ring

theorem passing_perm {part other : Chain} (h : part.Perm other) :
    passing weights t part = passing weights t other := (h.map _).prod_eq

end Chain

end

section

variable {K : Type} [CommRing K] [LinearOrder K]

/-- Less traffic costs no more: to run an element costs something or nothing, and what stops
messages takes away a part of the workload, all of it at most. -/
structure Weights.Fair (weights : Weights K) : Prop where
  element : 0 ≤ weights.element
  network : 0 ≤ weights.network
  drop : 0 ≤ weights.drop
  drop_le : weights.drop ≤ 1

variable {weights : Weights K} {t : Traffic}

namespace Weights.Fair

theorem of_nonneg (h : weights.Fair) (e : Element) : 0 ≤ weights.of e := by
  unfold Weights.of
  split
  · exact h.network
  · exact h.element

end Weights.Fair

variable [IsStrictOrderedRing K]

theorem Element.passing_nonneg (hd : weights.drop ≤ 1) (e : Element) :
    0 ≤ e.passing weights t := by
  unfold passing
  split
  · exact sub_nonneg.mpr hd
  · exact zero_le_one

namespace Chain

theorem passing_nonneg (hd : weights.drop ≤ 1) (part : Chain) : 0 ≤ passing weights t part := by
  refine List.prod_nonneg fun x hx ↦ ?_
  obtain ⟨e, -, rfl⟩ := List.mem_map.mp hx
  exact e.passing_nonneg hd

/-! ### Changes of places -/

/-- An element in front of another costs no more than behind it, unless it stops nothing and the
other does. -/
theorem load_pair_le (hd : 0 ≤ weights.drop) {a b : Element} (hw : 0 ≤ weights.of b)
    (ha : a.isNetwork = true → (a.on t).stops = false)
    (hb : b.isNetwork = true → (b.on t).stops = false)
    (hs : (b.on t).stops = true → (a.on t).stops = true) :
    load weights t [a, b] ≤ load weights t [b, a] := by
  have hd := mul_nonneg hd hw
  have price {e : Element} (he : e.isNetwork = true → (e.on t).stops = false)
      (hs : (e.on t).stops = true) : weights.of e = weights.element := by
    rw [Weights.of, if_neg]
    intro hn
    rw [he hn] at hs
    cases hs
  simp only [load, mul_zero, add_zero]
  cases hbs : (b.on t).stops with
  | true =>
    simp only [Element.passing, hbs, hs hbs, if_true, price ha (hs hbs), price hb hbs]
    exact le_refl _
  | false =>
    cases has : (a.on t).stops with
    | true =>
      simp only [Element.passing, hbs, has, if_true, Bool.false_eq_true, if_false]
      linarith
    | false =>
      simp only [Element.passing, hbs, has, Bool.false_eq_true, if_false, one_mul]
      exact (add_comm _ _).le

/-- An element that costs no more behind each element of a part costs no more behind the part. -/
theorem load_sink_le (hd : weights.drop ≤ 1) {a : Element} {part : Chain}
    (hp : ∀ e ∈ part, load weights t [e, a] ≤ load weights t [a, e]) :
    load weights t (part ++ [a]) ≤ load weights t (a :: part) := by
  induction part with
  | nil => exact le_refl _
  | cons e part ih =>
    obtain ⟨he, hp⟩ := List.forall_mem_cons.mp hp
    rw [← sub_nonneg, load_front_sub_back]
    exact add_nonneg (sub_nonneg.mpr he)
      (mul_nonneg (e.passing_nonneg hd) (sub_nonneg.mpr (ih hp)))

/-- An element that costs no more in front of each element of a part costs no more in front of the
part. -/
theorem load_hoist_le (hd : weights.drop ≤ 1) {b : Element} {part : Chain}
    (hp : ∀ e ∈ part, load weights t [b, e] ≤ load weights t [e, b]) :
    load weights t (b :: part) ≤ load weights t (part ++ [b]) := by
  induction part with
  | nil => exact le_refl _
  | cons e part ih =>
    obtain ⟨he, hp⟩ := List.forall_mem_cons.mp hp
    rw [← sub_nonpos, load_front_sub_back]
    exact add_nonpos (sub_nonpos.mpr he)
      (mul_nonpos_of_nonneg_of_nonpos (e.passing_nonneg hd) (sub_nonpos.mpr (ih hp)))

/-- A cheaper order of a part makes the chain around it cheaper. -/
theorem load_context_le (hd : weights.drop ≤ 1) (front back : Chain) {part other : Chain}
    (hp : part.Perm other) (hl : load weights t part ≤ load weights t other) :
    load weights t (front ++ part ++ back) ≤ load weights t (front ++ other ++ back) := by
  simp only [List.append_assoc, load_append, passing_perm weights t hp]
  have := mul_le_mul_of_nonneg_left hl (passing_nonneg (t := t) hd front)
  linarith

/-! ### Moves -/

variable {chain next out : Chain} {g : Goal} {level : Level}

/-- A move that does not raise the disorder of the stopping elements does not raise the cost. -/
theorem Turn.load_le (ht : Turn t g chain next) (h : weights.Fair)
    (hd : next.disorder t .hoistStop ≤ chain.disorder t .hoistStop)
    (hn : ∀ e ∈ chain, e.isNetwork = true → (e.on t).stops = false) :
    load weights t next ≤ load weights t chain := by
  obtain ⟨front, part, x, back, ⟨rfl, rfl⟩ | ⟨rfl, rfl⟩⟩ := ht.exists_rotation
  · have hp : (x :: part).Perm (part ++ [x]) := (List.perm_append_singleton x part).symm
    have hi := (inversions_context_le_iff _ front back hp).mp hd
    refine load_context_le h.drop_le front back hp (load_hoist_le h.drop_le fun e he ↦ ?_)
    refine load_pair_le h.drop (h.of_nonneg e) (hn x (by simp)) (hn e (by simp [he])) fun hs ↦ ?_
    by_contra hx
    have := forall_of_inversions_cons_le hi (by simpa [Goal.yields] using hx) e he
    simp [Goal.yields, hs] at this
  · have hp : (part ++ [x]).Perm (x :: part) := List.perm_append_singleton x part
    have hi := (inversions_context_le_iff _ front back hp).mp hd
    refine load_context_le h.drop_le front back hp (load_sink_le h.drop_le fun e he ↦ ?_)
    refine load_pair_le h.drop (h.of_nonneg x) (hn e (by simp [he])) (hn x (by simp)) fun hs ↦ ?_
    have := forall_of_inversions_concat_le hi (by simpa [Goal.yields] using hs) e he
    simpa [Goal.yields] using this

/-- No run of the search raises the cost. -/
theorem Reaches.load_le (hr : Reaches t level chain out) (h : weights.Fair)
    (hn : ∀ e ∈ chain, e.isNetwork = true → (e.on t).stops = false) :
    load weights t out ≤ load weights t chain := by
  induction hr with
  | refl => exact le_refl _
  | tail hr hs ih =>
    obtain ⟨g, ha⟩ := hs
    refine (ha.turn.load_le h ha.disorder_hoistStop_le fun e he ↦ hn e ?_).trans ih
    exact (Reaches.perm hr).mem_iff.mpr he

/-- The local search does not raise the cost of the traffic of a chain whose networks let all
messages through. -/
theorem reorder_cost_le {maxMoves : Nat} (h : weights.Fair) (hs : weights.strong = 0)
    (hd : weights.deploy = 0) (hn : chain.any Element.isNetwork = true)
    (hi : ∀ e ∈ chain, e.isNetwork = true → (e.on t).stops = false)
    (ho : chain.reorder t level maxMoves = .ok out) :
    ∃ before after, chain.cost weights t = .ok before ∧ out.cost weights t = .ok after ∧
      after ≤ before := by
  obtain ⟨-, hr⟩ := reaches_of_reorder ho
  have hn' : (chain.withTraces t).any Element.isNetwork = true := by simpa using hn
  refine ⟨_, _, cost_perm weights hn (.refl chain), cost_perm weights hn' hr.perm, ?_⟩
  rw [← costOf_withTraces weights t chain, costOf_eq_load t hs hd,
    costOf_eq_load t hs hd]
  refine hr.load_le h fun e he hm ↦ ?_
  obtain ⟨d, hd, rfl⟩ := List.mem_map.mp he
  rw [Element.on_withTraces, PathEffects.stops_withTraces]
  exact hi d hd (by simpa using hm)

end Chain

end

/-- A stopping element goes to the front, and a copying one behind the network and to the end. -/
theorem Chain.reorder_cost_le_both_goals :
    let mirror := Element.onRequests "mirror" { PathEffects.none with copy := true }
    let tag := Element.onRequests "tag" { PathEffects.none with write := .only ["user"] }
    let acl := Element.onRequests "acl"
      { PathEffects.none with read := .only ["key"], drop := true }
    let chain : Chain := [mirror, .networkMarker, tag, acl]
    let out : Chain := Chain.withTraces .request [acl, .networkMarker, tag, mirror]
    let weights : Weights ℚ := ⟨1, 2, 1 / 10, 0, 0⟩
    weights.Fair ∧ weights.strong = 0 ∧ weights.deploy = 0 ∧ chain.any Element.isNetwork = true ∧
      (∀ e ∈ chain, e.isNetwork = true → (e.on .request).stops = false) ∧
      chain.reorder .request .weak 2 = .ok out ∧ chain.cost weights .request = .ok 5 ∧
      out.cost weights .request = .ok (23 / 5) ∧
      ∃ before after, chain.cost weights .request = .ok before ∧
        out.cost weights .request = .ok after ∧ after ≤ before := by
  intro mirror tag acl chain out weights
  have hf : weights.Fair := by
    constructor <;> decide +kernel
  have hn : chain.any Element.isNetwork = true := by decide
  have hi : ∀ e ∈ chain, e.isNetwork = true → (e.on .request).stops = false := by decide
  have ho : chain.reorder .request .weak 2 = .ok out := by
    rw [reorder, reorderCounted, Criterion.indexed_eq]
    decide +kernel
  exact ⟨hf, rfl, rfl, hn, hi, ho, by decide +kernel, by decide +kernel,
    reorder_cost_le hf rfl rfl hn hi ho⟩

end ChainPlan
