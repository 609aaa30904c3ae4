import ChainPlan.Proofs.Consolidation
import ChainPlan.Proofs.LocalSearch

/-! # Local optima

A local search ends with a chain of which no scan accepts a move, although a scan looks at its moves
only up to the first success and passes over those that would raise the rank of the stopping
elements. So every two elements that should pass each other are held by the oracle of that chain, or
by the rank where a copy would sink. The chain has its trace fields already, so a search that starts
from it ends there with its first scan.
-/

namespace ChainPlan

namespace Chain

variable {t : Traffic} {level : Level} {g : Goal} {chain out next : Chain} {maxMoves : Nat}

/-- The level can judge the chain that a local search ends with. -/
theorem comparable_of_reorder (h : chain.reorder t level maxMoves = .ok out) :
    out.Comparable level t := by
  obtain ⟨hc, hr⟩ := reaches_of_reorder h
  exact hc.perm hr.perm

/-- A chain that the level can judge has an oracle, which tells what may stand for the chain. -/
theorem Comparable.exists_oracle (h : chain.Comparable level t) :
    ∃ oracle, Oracle.ofChain chain t level = .ok oracle ∧
      ∀ candidate, oracle.accepts candidate = equivalent chain candidate t level := by
  obtain ⟨accepts, hi⟩ := exists_indexed_iff.mpr h
  rw [Criterion.indexed_eq, Oracle.criterion] at hi
  cases ho : Oracle.ofChain chain t level with
  | error error =>
    rw [ho] at hi
    cases hi
  | ok oracle =>
    refine ⟨oracle, rfl, fun candidate ↦ ?_⟩
    rw [equivalent_eq, ho]
    rfl

/-- A turn of the chain that a local search ends with is refused, or raises the rank where it sinks
a copy. -/
theorem Turn.refused (turn : Turn t g out next) (h : chain.reorder t level maxMoves = .ok out) :
    g = .sinkCopy ∧ out.stopRank t < next.stopRank t ∨
      equivalent out next t level = .ok false := by
  have hc := comparable_of_reorder h
  obtain ⟨verdict, hv, -⟩ := exists_verdict hc (hc.perm turn.perm)
  cases verdict with
  | false => exact .inr hv
  | true =>
    refine .inl ?_
    by_contra guarded
    exact not_step_of_reorder h
      ⟨g, turn, fun hs ↦ Nat.not_lt.mp fun hr ↦ guarded ⟨hs, hr⟩, hv⟩

/-- The chain that a local search ends with has its trace fields. -/
theorem withTraces_of_reorder (h : chain.reorder t level maxMoves = .ok out) :
    out.withTraces t = out := by
  obtain ⟨-, hr⟩ := reaches_of_reorder h
  exact withTraces_of_isTraced fun e he ↦ isTraced_of_mem_withTraces (hr.perm.mem_iff.mpr he)

/-- A local search ends with a local optimum. Its oracle refuses to bring an element that stops
messages and an earlier one that does not past each other, in either of the two ways, and to sink a
copying element behind one that copies nothing unless this raises the rank of the stopping elements.
A search from there makes no move, whatever its budget. -/
theorem reorder_settles (h : chain.reorder t level maxMoves = .ok out) :
    (∃ oracle, Oracle.ofChain out t level = .ok oracle ∧
      ∀ i j a b, i < j → out[i]? = some a → out[j]? = some b →
        ∀ next ∈ ([relocate out j i, relocate out i j] : List Chain),
          ((a.on t).stops = false → (b.on t).stops = true → oracle.accepts next = .ok false) ∧
          ((a.on t).copy = true → (b.on t).copy = false →
            out.stopRank t < next.stopRank t ∨ oracle.accepts next = .ok false)) ∧
      ∀ budget, ∃ stats, out.reorderCounted t level budget = (stats, .ok out) ∧
        stats.totalMoves = 0 := by
  obtain ⟨oracle, ho, accepts⟩ := (comparable_of_reorder h).exists_oracle
  refine ⟨⟨oracle, ho, fun i j a b hij hi hj next hn ↦ ?_⟩, fun budget ↦ ?_⟩
  · have turn {g : Goal} (ha : g.yields t a = true) (hb : g.yields t b = false) :
        Turn t g out next := by
      obtain ⟨forward, backward⟩ := turns_of_lt hij hi hj ha hb
      rcases List.mem_pair.mp hn with rfl | rfl
      · exact forward
      · exact backward
    rw [accepts]
    constructor
    · intro ha hb
      have hoist : Turn t .hoistStop out next := turn (by simp [Goal.yields, ha])
        (by simp [Goal.yields, hb])
      exact (hoist.refused h).resolve_left fun sinks ↦ nomatch sinks.1
    · intro ha hb
      exact ((turn (g := .sinkCopy) ha hb).refused h).imp_left And.right
  · obtain ⟨count, hs⟩ := exists_scan_of_reorder h
    refine ⟨ReorderStats.zero.tried count, ?_, rfl⟩
    rw [reorderCounted, withTraces_of_reorder h]
    exact descend_of_scan hs budget budget .zero

/-- After one move, a dropping element is held by what it reads, and does not sink with its copies
as that would raise the rank. -/
theorem reorder_settles_held :
    let stamp := Element.onRequests "stamp" { PathEffects.none with write := .only ["time"] }
    let tag := Element.onRequests "tag" { PathEffects.none with write := .only ["user"] }
    let tee := Element.onRequests "tee"
      { PathEffects.none with read := .only ["user"], drop := true, copy := true }
    let chain : Chain := [stamp, tag, tee]
    let out : Chain := Chain.withTraces .request [tag, tee, stamp]
    chain.reorder .request .weak 1 = .ok out ∧
      (∃ oracle, Oracle.ofChain out .request .weak = .ok oracle ∧
        oracle.accepts (relocate out 1 0) = .ok false ∧
        (out.stopRank .request < Chain.stopRank (relocate out 1 2) .request ∨
          oracle.accepts (relocate out 1 2) = .ok false)) ∧
      ∃ stats, out.reorderCounted .request .weak 0 = (stats, .ok out) ∧ stats.totalMoves = 0 := by
  intro stamp tag tee chain out
  have h : chain.reorder .request .weak 1 = .ok out := by
    rw [reorder, reorderCounted, Criterion.indexed_eq]
    decide +kernel
  obtain ⟨⟨oracle, ho, held⟩, ends⟩ := reorder_settles h
  refine ⟨h, ⟨oracle, ho, ?_, ?_⟩, ends 0⟩
  · exact (held 0 1 _ _ (by decide) rfl rfl _ (by simp)).1 rfl rfl
  · exact (held 1 2 _ _ (by decide) rfl rfl _ (by simp)).2 rfl rfl

end Chain

end ChainPlan
