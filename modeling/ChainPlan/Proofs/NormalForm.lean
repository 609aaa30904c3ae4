import ChainPlan.Proofs.Convergence
import ChainPlan.Proofs.Hoisting

/-! # The normal form of a free search

At the level `ignore` only pinned elements hold the local search back. Without them every turn of a
chain is accepted, unless it sinks a copy and raises the rank of the stopping elements. So no
stopping element is left behind one that stops nothing. Between two elements that both stop messages,
or both do not, the same then holds of all elements in between, so that the copies among them sink
without changing the rank: the guard on it does not end the search early.
-/

namespace ChainPlan

/-- Members that all pass or all fail make no inversions. -/
theorem inversions_eq_zero {α : Type} {p : α → Bool} {v : Bool} {xs : List α}
    (h : ∀ x ∈ xs, p x = v) : inversions p xs = 0 := by
  have bound := inversions_le p xs
  cases v with
  | false =>
    have none : xs.countP p = 0 := List.countP_eq_zero.mpr (by simpa using h)
    rw [none, Nat.zero_mul] at bound
    exact Nat.le_zero.mp bound
  | true =>
    have none : (xs.countP fun x ↦ !p x) = 0 := List.countP_eq_zero.mpr (by simpa using h)
    rw [none, Nat.mul_zero] at bound
    exact Nat.le_zero.mp bound

namespace Chain

variable {t : Traffic} {g : Goal} {chain out next : Chain} {maxMoves : Nat}

/-- The elements that stop messages stand in front of the others, and of those that stop messages,
as of the others, the ones that copy nothing stand in front of the ones that copy. -/
structure IsNormal (chain : Chain) (t : Traffic) : Prop where
  stops_first : chain.Pairwise fun a b ↦ (b.on t).stops = true → (a.on t).stops = true
  copies_last : chain.Pairwise fun a b ↦
    (a.on t).stops = (b.on t).stops → (a.on t).copy = true → (b.on t).copy = true

/-- At the level `ignore`, a chain without pinned elements may stand for any chain. -/
theorem IsUnpinned.equivalent_ignore (h : next.IsUnpinned) (chain : Chain) :
    equivalent chain next t .ignore = .ok true :=
  equivalent_eq_ok_true_iff.mpr
    ⟨⟨fun hl ↦ absurd rfl hl, fun hl ↦ absurd rfl hl⟩, placedFrom_of_isUnpinned h false, nofun⟩

/-- Past elements that all stop messages, or all do not, an element of their kind goes without
raising the rank. -/
theorem stopRank_sink_le (front back : Chain) {mid : Chain} {a b : Element} {v : Bool}
    (h : ∀ c ∈ a :: (mid ++ [b]), (c.on t).stops = v) :
    stopRank (front ++ (mid ++ b :: a :: back)) t ≤ stopRank (front ++ a :: (mid ++ b :: back)) t := by
  have moved : (a :: (mid ++ [b])).Perm (mid ++ [b] ++ [a]) :=
    (List.perm_append_singleton a (mid ++ [b])).symm
  have start : front ++ a :: (mid ++ b :: back) = front ++ (a :: (mid ++ [b])) ++ back := by simp
  have last : front ++ (mid ++ b :: a :: back) = front ++ (mid ++ [b] ++ [a]) ++ back := by simp
  have flat {part : Chain} (hp : (a :: (mid ++ [b])).Perm part) :
      inversions (Goal.hoistStop.yields t) part = 0 :=
    inversions_eq_zero fun c hc ↦ congrArg not (h c (hp.mem_iff.mpr hc))
  rw [start, last, stopRank_le_iff ((moved.append_left front).append_right back), disorder, disorder,
    inversions_context_le_iff _ front back moved.symm, flat moved]
  exact Nat.zero_le _

/-- Between two elements that both stop messages, or both do not, all others do as they do if
stopping elements stand in front. -/
theorem stops_eq_of_between {front mid back : Chain} {a b c : Element}
    (sorted : (front ++ a :: (mid ++ b :: back)).Pairwise
      fun a b ↦ (b.on t).stops = true → (a.on t).stops = true)
    (alike : (a.on t).stops = (b.on t).stops) (hc : c ∈ a :: (mid ++ [b])) :
    (c.on t).stops = (b.on t).stops := by
  obtain ⟨ahead, rest⟩ := List.pairwise_cons.mp (List.pairwise_append.mp sorted).2.1
  rcases List.mem_cons.mp hc with rfl | hc
  · exact alike
  rcases List.mem_append.mp hc with hm | hb
  · have above := ahead c (List.mem_append_left _ hm)
    have below := (List.pairwise_append.mp rest).2.2 c hm b (.head _)
    rw [alike] at above
    exact Bool.eq_iff_iff.mpr ⟨above, below⟩
  · rw [List.mem_singleton.mp hb]

section

variable (free : out.IsUnpinned) (settled : ∀ next, ¬ Step t .ignore out next)
include free settled

/-- Where a free search ends, every turn sinks a copy and raises the rank. -/
theorem Turn.raises (turn : Turn t g out next) :
    g = .sinkCopy ∧ out.stopRank t < next.stopRank t := by
  by_contra unguarded
  refine settled next ⟨g, turn, fun sinks ↦ ?_, (free.perm turn.perm).equivalent_ignore out⟩
  exact Nat.not_lt.mp fun raised ↦ unguarded ⟨sinks, raised⟩

/-- Where a free search ends, stopping elements stand in front of the others. -/
theorem stops_first_of_settled :
    out.Pairwise fun a b ↦ (b.on t).stops = true → (a.on t).stops = true := by
  rw [List.pairwise_iff_getElem]
  intro i j hi hj hij stopping
  by_contra passing
  obtain ⟨hoist, -⟩ := turns_of_lt (t := t) (g := .hoistStop) hij (List.getElem?_eq_getElem hi)
    (List.getElem?_eq_getElem hj) (by simpa [Goal.yields] using passing)
    (by simpa [Goal.yields] using stopping)
  obtain ⟨sinks, -⟩ := hoist.raises free settled
  cases sinks

/-- Where a free search ends, no copying element is left in front of one of its kind that copies
nothing: the one could go behind the other without changing the rank. -/
theorem copies_last_of_settled : out.Pairwise fun a b ↦
    (a.on t).stops = (b.on t).stops → (a.on t).copy = true → (b.on t).copy = true := by
  have sorted := stops_first_of_settled free settled
  rw [List.pairwise_iff_getElem]
  intro i j hi hj hij alike copying
  by_contra plain
  obtain ⟨front, mid, back, ho, -, -⟩ :=
    exists_split_of_getElem? hij (List.getElem?_eq_getElem hi) (List.getElem?_eq_getElem hj)
  generalize out[i] = a at *
  generalize out[j] = b at *
  subst ho
  have turn : Turn t .sinkCopy (front ++ a :: (mid ++ b :: back))
      (front ++ (mid ++ b :: a :: back)) :=
    .backward front mid back copying (by simpa [Goal.yields] using plain)
  obtain ⟨-, raised⟩ := turn.raises free settled
  exact Nat.not_le.mpr raised
    (stopRank_sink_le front back fun c hc ↦ stops_eq_of_between sorted alike hc)

end

/-- A local search that nothing holds back ends with the elements of the chain in normal form, with
their traces, from whatever order it starts. -/
theorem reorder_normalizes (free : chain.IsUnpinned)
    (h : chain.reorder t .ignore maxMoves = .ok out) :
    (chain.withTraces t).Perm out ∧ out.IsNormal t := by
  have perm := (reaches_of_reorder h).2.perm
  have unpinned : out.IsUnpinned := free.withTraces.perm perm
  have settled (next : Chain) : ¬ Step t .ignore out next := not_step_of_reorder h
  exact ⟨perm, stops_first_of_settled unpinned settled, copies_last_of_settled unpinned settled⟩

/-- Elements that drop, copy, do both or neither are sorted around a network. -/
theorem reorder_normalizes_mixed :
    let log := Element.onRequests "log" PathEffects.none
    let tap := Element.onRequests "tap" { PathEffects.none with copy := true }
    let tee := Element.onRequests "tee" { PathEffects.none with drop := true, copy := true }
    let acl := Element.onRequests "acl" { PathEffects.none with read := .only ["user"], drop := true }
    let chain : Chain := [tap, log, tee, .networkMarker, acl]
    let out : Chain := Chain.withTraces .request [acl, tee, log, .networkMarker, tap]
    chain.IsUnpinned ∧ chain.reorder .request .ignore 9 = .ok out ∧
      (chain.withTraces .request).Perm out ∧ out.IsNormal .request := by
  intro log tap tee acl chain out
  have free : chain.IsUnpinned := by
    unfold IsUnpinned
    decide
  have h : chain.reorder .request .ignore 9 = .ok out := by
    rw [reorder, reorderCounted, Criterion.indexed_eq]
    decide +kernel
  exact ⟨free, h, reorder_normalizes free h⟩

end Chain

end ChainPlan
