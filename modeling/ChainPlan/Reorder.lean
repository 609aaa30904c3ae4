import ChainPlan.Equivalence.Indexed

/-! # Local search

Elements that stop messages are hoisted, so that later elements see less traffic, and elements that
copy messages are sunk, so that fewer elements run on copies. A move takes one element to another
position and is accepted if the result may stand for the present chain. The first accepted move of a
scan is made, and the search ends when a scan accepts none or the budget is spent. A sinking move
may not raise the sum of the positions of the stopping elements, which is what the hoisting moves
lower.
-/

namespace ChainPlan

/-- The list with the member at one position taken out and put in at another. -/
def relocate {α : Type} (xs : List α) (source target : Nat) : List α :=
  match xs[source]? with
  | some x => (xs.eraseIdx source).insertIdx target x
  | none => xs

/-- What a move is made for. -/
inductive Goal where
  | hoistStop
  | sinkCopy
  deriving DecidableEq, Repr

/-- A move of the element at one position to another. -/
structure Move where
  source : Nat
  target : Nat
  goal : Goal
  deriving DecidableEq, Repr

/-- The chain after a move. -/
def Move.apply (m : Move) (chain : Chain) : Chain := relocate chain m.source m.target

namespace Goal

/-- The goals in the order in which a scan pursues them. -/
def all : List Goal := [.hoistStop, .sinkCopy]

/-- Whether an element should stand behind those that do not: behind stopping elements if it stops
nothing itself, and behind elements that copy nothing if it copies. -/
def yields (g : Goal) (t : Traffic) (e : Element) : Bool :=
  match g with
  | .hoistStop => !(e.on t).stops
  | .sinkCopy => (e.on t).copy

/-- The two moves that bring the element at a position behind the one at another, in the order in
which they are tried. -/
def swaps (g : Goal) (i j : Nat) : List Move :=
  match g with
  | .hoistStop => [⟨j, i, g⟩, ⟨i, j, g⟩]
  | .sinkCopy => [⟨i, j, g⟩, ⟨j, i, g⟩]

/-- The moves for a goal that bring the element at a position behind one of those at others, as far
as these come later. -/
def movesFrom (g : Goal) (others : List Nat) (i : Nat) : List Move :=
  (others.filter fun j ↦ i ≤ j).flatMap (g.swaps i)

end Goal

namespace Chain

/-- The positions of a chain whose elements pass a test, in order. -/
def positions (chain : Chain) (p : Element → Bool) : List Nat :=
  (chain.zipIdx.filter fun e ↦ p e.1).map Prod.snd

/-- The sum of the positions of the elements that may stop a message. -/
def stopRank (chain : Chain) (t : Traffic) : Nat :=
  (chain.positions fun e ↦ (e.on t).stops).foldr (· + ·) 0

/-- The positions of the elements that should stand in front of those that yield, the last one
first. -/
def leaders (chain : Chain) (t : Traffic) (g : Goal) : List Nat :=
  (chain.positions fun e ↦ !g.yields t e).reverse

/-- The moves for a goal, in the order in which they are tried: the far ones first. -/
def movesFor (chain : Chain) (t : Traffic) (g : Goal) : List Move :=
  let leaders := chain.leaders t g
  (chain.positions (g.yields t)).flatMap (g.movesFrom leaders)

/-- Every move of a scan, in the order in which they are tried. -/
def moves (chain : Chain) (t : Traffic) : List Move := Goal.all.flatMap (chain.movesFor t)

end Chain

/-- What a local search has done. -/
structure ReorderStats where
  /-- The accepted moves that hoisted a stopping element. -/
  stopsHoisted : Nat
  /-- The accepted moves that sank a copying element. -/
  copiesSunk : Nat
  /-- The chains that were compared with the present one. -/
  candidates : Nat
  deriving DecidableEq, Repr

namespace ReorderStats

/-- The numbers before the first scan. -/
def zero : ReorderStats := ⟨0, 0, 0⟩

/-- The number of accepted moves. -/
def totalMoves (s : ReorderStats) : Nat := s.stopsHoisted + s.copiesSunk

/-- The numbers after comparing some more chains. -/
def tried (s : ReorderStats) (count : Nat) : ReorderStats :=
  { s with candidates := s.candidates + count }

/-- The numbers after an accepted move. -/
def made (s : ReorderStats) : Goal → ReorderStats
  | .hoistStop => { s with stopsHoisted := s.stopsHoisted + 1 }
  | .sinkCopy => { s with copiesSunk := s.copiesSunk + 1 }

end ReorderStats

/-- The first success of an attempt on the members of a list, with the sum of what the attempts up
to it have counted. -/
def firstSuccess {α β ε : Type} (attempt : α → Except ε (Nat × Option β)) :
    List α → Except ε (Nat × Option β)
  | [] => .ok (0, none)
  | x :: rest => do
    match ← attempt x with
    | (count, some found) => return (count, some found)
    | (count, none) => do
      let (more, found) ← firstSuccess attempt rest
      return (count + more, found)

/-- The attempt at a move, with its chain, under a rank that sinking moves may not raise. What
raises it is not compared and not counted. -/
def Move.attempt (accepts : Chain → Except PlanError Bool) (chain : Chain) (t : Traffic)
    (rank : Nat) (m : Move) : Except PlanError (Nat × Option (Move × Chain)) :=
  let candidate := m.apply chain
  if m.goal = .sinkCopy ∧ rank < candidate.stopRank t then .ok (0, none)
  else do
    if ← accepts candidate then return (1, some (m, candidate)) else return (1, none)

/-- One scan: the first accepted move with its chain, and the number of chains compared. Moves are
listed only as far as they are tried. -/
def Chain.scan (criterion : Criterion) (t : Traffic) (chain : Chain) :
    Except PlanError (Nat × Option (Move × Chain)) := do
  let attempt := Move.attempt (← criterion chain) chain t (chain.stopRank t)
  Goal.all |> firstSuccess fun g ↦
    let leaders := chain.leaders t g
    chain.positions (g.yields t) |> firstSuccess fun i ↦
      firstSuccess attempt (g.movesFrom leaders i)

/-- The search from a chain on, with what is left of a budget of `limit` moves. -/
def Chain.descend (criterion : Criterion) (t : Traffic) (limit : Nat) :
    Nat → ReorderStats → Chain → ReorderStats × Except PlanError Chain
  | budget, stats, chain =>
    match chain.scan criterion t with
    | .error error => (stats, .error error)
    | .ok (count, none) => (stats.tried count, .ok chain)
    | .ok (count, some (move, next)) =>
      let stats := (stats.tried count).made move.goal
      match budget with
      | 0 => (stats, .error (.movesExhausted t limit))
      | left + 1 => descend criterion t limit left stats next

/-- The local search on a chain, with what it has done. -/
def Chain.reorderCounted (chain : Chain) (t : Traffic) (level : Level) (maxMoves : Nat) :
    ReorderStats × Except PlanError Chain :=
  descend (.indexed t level) t maxMoves maxMoves .zero (chain.withTraces t)

/-- The chain that the local search ends with. -/
def Chain.reorder (chain : Chain) (t : Traffic) (level : Level) (maxMoves : Nat) :
    Except PlanError Chain :=
  (chain.reorderCounted t level maxMoves).2

theorem firstSuccess_append {α β ε : Type} (attempt : α → Except ε (Nat × Option β))
    (xs ys : List α) :
    firstSuccess attempt (xs ++ ys) = (do
      match ← firstSuccess attempt xs with
      | (count, some found) => return (count, some found)
      | (count, none) => do
        let (more, found) ← firstSuccess attempt ys
        return (count + more, found)) := by
  induction xs with
  | nil =>
    simp only [List.nil_append, firstSuccess]
    cases firstSuccess attempt ys with
    | error => rfl
    | ok r => simp [bind, Except.bind, pure, Except.pure]
  | cons x rest ih =>
    simp only [List.cons_append, firstSuccess, ih, bind, Except.bind, pure, Except.pure]
    rcases attempt x with _ | ⟨count, _ | found⟩
    · rfl
    · rcases firstSuccess attempt rest with _ | ⟨more, _ | found⟩
      · rfl
      · cases firstSuccess attempt ys with
        | error => rfl
        | ok r => simp [Nat.add_assoc]
      · rfl
    · rfl

/-- To search lists one after the other is to search them joined. -/
theorem firstSuccess_flatMap {ι α β ε : Type} (attempt : α → Except ε (Nat × Option β))
    (lists : ι → List α) (xs : List ι) :
    firstSuccess attempt (xs.flatMap lists) =
      firstSuccess (fun x ↦ firstSuccess attempt (lists x)) xs := by
  induction xs with
  | nil => rfl
  | cons x rest ih => rw [List.flatMap_cons, firstSuccess_append, ih]; rfl

/-- A scan tries the moves of the chain in their order. -/
theorem Chain.scan_eq (criterion : Criterion) (t : Traffic) (chain : Chain) :
    chain.scan criterion t = (do
      let accepts ← criterion chain
      firstSuccess (Move.attempt accepts chain t (chain.stopRank t)) (chain.moves t)) := by
  simp only [scan, moves, firstSuccess_flatMap, movesFor]

end ChainPlan
