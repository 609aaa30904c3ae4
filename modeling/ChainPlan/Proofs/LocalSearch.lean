import ChainPlan.Reorder
import ChainPlan.Proofs.Agreement
import ChainPlan.Proofs.Outcomes
import Mathlib.Logic.Relation

/-! # Steps of the local search

A scan makes a step only if its move brings an element that yields and a later one that does not
past each other, does not raise the rank of the stopping elements where it sinks a copy, and is
accepted. Every search that ends is a run of such steps from the chain with its traces on, so
whatever a step keeps is kept by the search.
-/

namespace ChainPlan

/-! ### Moves -/

section

variable {α : Type}

private theorem insertIdx_length (xs ys : List α) (a : α) :
    (xs ++ ys).insertIdx xs.length a = xs ++ a :: ys := by
  induction xs with
  | nil => rfl
  | cons x xs ih => simp [ih]

private theorem getElem?_length (xs ys : List α) (a : α) :
    (xs ++ a :: ys)[xs.length]? = some a := by simp

/-- A list at two positions in order. -/
theorem exists_split_of_getElem? {xs : List α} {i j : Nat} {a b : α} (hij : i < j)
    (ha : xs[i]? = some a) (hb : xs[j]? = some b) :
    ∃ front mid back, xs = front ++ a :: (mid ++ b :: back) ∧
      i = front.length ∧ j = front.length + mid.length + 1 := by
  obtain ⟨hi, rfl⟩ := List.getElem?_eq_some_iff.mp ha
  obtain ⟨hj, rfl⟩ := List.getElem?_eq_some_iff.mp hb
  refine ⟨xs.take i, (xs.drop (i + 1)).take (j - i - 1), xs.drop (j + 1), ?_, ?_, ?_⟩
  · have hd : xs.drop j = xs[j] :: xs.drop (j + 1) := List.drop_eq_getElem_cons hj
    have hm : xs.drop (i + 1) =
        (xs.drop (i + 1)).take (j - i - 1) ++ (xs.drop (i + 1)).drop (j - i - 1) :=
      (List.take_append_drop _ _).symm
    rw [List.drop_drop, show i + 1 + (j - i - 1) = j by omega, hd] at hm
    rw [← hm, ← List.drop_eq_getElem_cons hi, List.take_append_drop]
  · rw [List.length_take]
    omega
  · rw [List.length_take, List.length_take, List.length_drop]
    omega

/-- A list at a stretch of positions. -/
theorem exists_stretch {xs : List α} {i j : Nat} (hij : i ≤ j) (hj : j < xs.length) :
    ∃ front part back, xs = front ++ part ++ back ∧ i = front.length ∧
      j + 1 = front.length + part.length := by
  refine ⟨xs.take i, (xs.drop i).take (j + 1 - i), (xs.drop i).drop (j + 1 - i), ?_, ?_, ?_⟩
  · rw [List.append_assoc, List.take_append_drop, List.take_append_drop]
  · rw [List.length_take]
    omega
  · rw [List.length_take, List.length_take, List.length_drop]
    omega

/-- The last member of a part is taken to the front of it. -/
theorem relocate_to_front (front part back : List α) (a : α) :
    relocate (front ++ (part ++ [a]) ++ back) (front.length + part.length) front.length =
      front ++ (a :: part) ++ back := by
  have hs : front ++ (part ++ [a]) ++ back = (front ++ part) ++ a :: back := by simp
  rw [relocate, hs, ← List.length_append, getElem?_length,
    List.eraseIdx_append_of_length_le (Nat.le_refl _)]
  simp only [Nat.sub_self, List.eraseIdx_cons_zero, List.append_assoc]
  exact insertIdx_length front _ a

/-- The first member of a part is taken to the back of it. -/
theorem relocate_to_back (front part back : List α) (a : α) :
    relocate (front ++ (a :: part) ++ back) front.length (front.length + part.length) =
      front ++ (part ++ [a]) ++ back := by
  have hs : front ++ (a :: part) ++ back = front ++ a :: (part ++ back) := by simp
  rw [relocate, hs, getElem?_length, List.eraseIdx_append_of_length_le (Nat.le_refl _)]
  simp only [Nat.sub_self, List.eraseIdx_cons_zero]
  rw [← List.append_assoc, ← List.length_append, insertIdx_length]
  simp

theorem relocate_forward (front mid back : List α) (a b : α) :
    relocate (front ++ a :: (mid ++ b :: back)) (front.length + mid.length + 1) front.length =
      front ++ b :: a :: (mid ++ back) := by
  simpa [Nat.add_assoc] using relocate_to_front front (a :: mid) back b

theorem relocate_backward (front mid back : List α) (a b : α) :
    relocate (front ++ a :: (mid ++ b :: back)) front.length (front.length + mid.length + 1) =
      front ++ (mid ++ b :: a :: back) := by
  simpa [Nat.add_assoc] using relocate_to_back front (mid ++ [b]) back a

end

namespace Chain

theorem mem_positions {chain : Chain} {p : Element → Bool} {i : Nat} :
    i ∈ chain.positions p ↔ ∃ e, chain[i]? = some e ∧ p e = true := by
  simp [positions, List.mem_zipIdx_iff_getElem?]

/-- A move for a goal: an element that yields and a later one that does not pass each other, as the
later one goes in front of the other, or the other behind it. -/
inductive Turn (t : Traffic) (g : Goal) : Chain → Chain → Prop where
  | forward (front mid back : Chain) {a b : Element} (ha : g.yields t a = true)
      (hb : g.yields t b = false) :
      Turn t g (front ++ a :: (mid ++ b :: back)) (front ++ b :: a :: (mid ++ back))
  | backward (front mid back : Chain) {a b : Element} (ha : g.yields t a = true)
      (hb : g.yields t b = false) :
      Turn t g (front ++ a :: (mid ++ b :: back)) (front ++ (mid ++ b :: a :: back))

/-- A turn leaves a chain with the same elements. -/
theorem Turn.perm {t : Traffic} {g : Goal} {chain next : Chain} (h : Turn t g chain next) :
    chain.Perm next := by
  cases h with
  | forward front mid back ha hb =>
    apply List.Perm.append_left
    exact (List.Perm.cons _ List.perm_middle).trans (List.Perm.swap _ _ _)
  | backward front mid back ha hb =>
    apply List.Perm.append_left
    exact List.perm_middle.symm.trans (List.Perm.append_left _ (List.Perm.swap _ _ _))

/-- A turn takes one element past a part of the chain, to the front or to the back. -/
theorem Turn.exists_rotation {t : Traffic} {g : Goal} {chain next : Chain}
    (h : Turn t g chain next) : ∃ (front part : Chain) (x : Element) (back : Chain),
      chain = front ++ (part ++ [x]) ++ back ∧ next = front ++ (x :: part) ++ back ∨
        chain = front ++ (x :: part) ++ back ∧ next = front ++ (part ++ [x]) ++ back := by
  cases h with
  | @forward front mid back a b => exact ⟨front, a :: mid, b, back, .inl (by simp)⟩
  | @backward front mid back a b => exact ⟨front, mid ++ [b], a, back, .inr (by simp)⟩

/-- An element that yields and a later one that does not can pass each other in two ways. -/
theorem turns_of_lt {t : Traffic} {g : Goal} {chain : Chain} {i j : Nat} {a b : Element}
    (hij : i < j) (hi : chain[i]? = some a) (hj : chain[j]? = some b) (ha : g.yields t a = true)
    (hb : g.yields t b = false) :
    Turn t g chain (relocate chain j i) ∧ Turn t g chain (relocate chain i j) := by
  obtain ⟨front, mid, back, rfl, rfl, rfl⟩ := exists_split_of_getElem? hij hi hj
  rw [relocate_forward, relocate_backward]
  exact ⟨.forward front mid back ha hb, .backward front mid back ha hb⟩

/-- Every move of a scan is a turn for its goal. -/
theorem turn_of_mem_moves {t : Traffic} {chain : Chain} {m : Move} (h : m ∈ chain.moves t) :
    Turn t m.goal chain (m.apply chain) := by
  simp only [moves, movesFor, leaders, Goal.movesFrom, List.mem_flatMap, List.mem_filter,
    List.mem_reverse, mem_positions, decide_eq_true_eq] at h
  obtain ⟨g, -, i, ⟨a, hi, ha⟩, j, ⟨⟨b, hj, hb⟩, hij⟩, hm⟩ := h
  have hb : g.yields t b = false := by simpa using hb
  have hlt : i < j := by
    refine Nat.lt_of_le_of_ne hij ?_
    rintro rfl
    rw [hi] at hj
    rw [Option.some.inj hj, hb] at ha
    cases ha
  obtain ⟨forward, backward⟩ := turns_of_lt hlt hi hj ha hb
  cases g with
  | hoistStop =>
    rcases List.mem_pair.mp hm with rfl | rfl
    · exact forward
    · exact backward
  | sinkCopy =>
    rcases List.mem_pair.mp hm with rfl | rfl
    · exact backward
    · exact forward

private theorem mem_moves {t : Traffic} {g : Goal} {chain : Chain} {i j : Nat} {a b : Element}
    {m : Move} (hij : i < j) (hi : chain[i]? = some a) (hj : chain[j]? = some b)
    (ha : g.yields t a = true) (hb : g.yields t b = false) (hm : m ∈ g.swaps i j) :
    m ∈ chain.moves t := by
  have hg : g ∈ Goal.all := by cases g <;> decide
  simp only [moves, movesFor, leaders, Goal.movesFrom, List.mem_flatMap, List.mem_filter,
    List.mem_reverse, mem_positions, decide_eq_true_eq]
  exact ⟨g, hg, i, ⟨a, hi, ha⟩, j, ⟨⟨b, hj, by rw [hb]; rfl⟩, Nat.le_of_lt hij⟩, hm⟩

/-- Every turn is made by a move of a scan. -/
theorem Turn.exists_move {t : Traffic} {g : Goal} {chain next : Chain} (h : Turn t g chain next) :
    ∃ m ∈ chain.moves t, m.goal = g ∧ m.apply chain = next := by
  have later (front mid : Chain) : front.length < front.length + mid.length + 1 := by omega
  cases h with
  | @forward front mid back a b ha hb =>
    refine ⟨⟨front.length + mid.length + 1, front.length, g⟩,
      mem_moves (later front mid) (getElem?_length _ _ _) ?_ ha hb ?_, rfl,
      relocate_forward front mid back a b⟩
    · simp [Nat.add_assoc]
    · cases g <;> simp [Goal.swaps]
  | @backward front mid back a b ha hb =>
    refine ⟨⟨front.length, front.length + mid.length + 1, g⟩,
      mem_moves (later front mid) (getElem?_length _ _ _) ?_ ha hb ?_, rfl,
      relocate_backward front mid back a b⟩
    · simp [Nat.add_assoc]
    · cases g <;> simp [Goal.swaps]

end Chain

/-! ### Scans -/

section

variable {α β ε : Type} {attempt : α → Except ε (Nat × Option β)}

/-- A success is that of the attempt on some member. -/
theorem exists_mem_of_firstSuccess {xs : List α} {count : Nat} {found : β}
    (h : firstSuccess attempt xs = .ok (count, some found)) :
    ∃ x ∈ xs, ∃ n, attempt x = .ok (n, some found) := by
  induction xs generalizing count with
  | nil => cases h
  | cons x xs ih =>
    obtain ⟨⟨n, first⟩, hr, h⟩ := exists_of_bind_eq_ok h
    cases first with
    | some y =>
      cases h
      exact ⟨x, List.mem_cons_self, _, hr⟩
    | none =>
      obtain ⟨⟨more, rest⟩, hr', h⟩ := exists_of_bind_eq_ok h
      cases h
      obtain ⟨z, hz, hn⟩ := ih hr'
      exact ⟨z, List.mem_cons_of_mem x hz, hn⟩

/-- A search without success has tried every member without success. -/
theorem forall_of_firstSuccess_none {xs : List α} {count : Nat}
    (h : firstSuccess attempt xs = .ok (count, none)) :
    ∀ x ∈ xs, ∃ n, attempt x = .ok (n, none) := by
  induction xs generalizing count with
  | nil => exact nofun
  | cons x xs ih =>
    obtain ⟨⟨n, found⟩, hx, h⟩ := exists_of_bind_eq_ok h
    cases found with
    | some y => cases h
    | none =>
      obtain ⟨⟨more, rest⟩, hr, h⟩ := exists_of_bind_eq_ok h
      obtain rfl : rest = none := congrArg Prod.snd (Except.ok.inj h)
      intro y hy
      rcases List.mem_cons.mp hy with rfl | hy
      · exact ⟨n, hx⟩
      · exact ih hr y hy

/-- Attempts that cannot fail find a success or none. -/
theorem exists_firstSuccess {xs : List α} (h : ∀ x ∈ xs, ∃ r, attempt x = .ok r) :
    ∃ r, firstSuccess attempt xs = .ok r := by
  induction xs with
  | nil => exact ⟨_, rfl⟩
  | cons x xs ih =>
    obtain ⟨⟨n, found⟩, hr⟩ := h x List.mem_cons_self
    obtain ⟨⟨more, rest⟩, hr'⟩ := ih fun y hy ↦ h y (List.mem_cons_of_mem x hy)
    rw [firstSuccess, hr]
    cases found with
    | some y => exact ⟨_, rfl⟩
    | none =>
      simp only [bind, Except.bind, hr']
      exact ⟨_, rfl⟩

end

namespace Chain

/-- What a scan accepts for a goal: a turn that does not raise the rank of the stopping elements
where it sinks a copy, to a chain that may stand for the present one. -/
structure Accepts (t : Traffic) (level : Level) (g : Goal) (chain next : Chain) : Prop where
  turn : Turn t g chain next
  guarded : g = .sinkCopy → next.stopRank t ≤ chain.stopRank t
  stands : equivalent chain next t level = .ok true

/-- A step of the search: a turn accepted for some goal. -/
def Step (t : Traffic) (level : Level) (chain next : Chain) : Prop :=
  ∃ g, Accepts t level g chain next

/-- A scan that makes a move makes one that it accepts. -/
theorem accepts_of_scan {t : Traffic} {level : Level} {chain next : Chain} {count : Nat}
    {m : Move} (h : chain.scan (.indexed t level) t = .ok (count, some (m, next))) :
    Accepts t level m.goal chain next := by
  rw [scan_eq] at h
  obtain ⟨accepts, hi, h⟩ := exists_of_bind_eq_ok h
  obtain ⟨m', hm, n, ha⟩ := exists_mem_of_firstSuccess h
  simp only [Move.attempt, ← equivalent_of_indexed hi] at ha
  split at ha
  · cases ha
  · next hg =>
    obtain ⟨verdict, he, ha⟩ := exists_of_bind_eq_ok ha
    cases verdict with
    | false => cases ha
    | true =>
      cases ha
      exact ⟨turn_of_mem_moves hm, fun hs ↦ Nat.not_lt.mp fun hr ↦ hg ⟨hs, hr⟩, he⟩

/-- A scan that makes no move leaves none that it would accept. -/
theorem not_accepts_of_scan {t : Traffic} {level : Level} {g : Goal} {chain next : Chain}
    {count : Nat} (h : chain.scan (.indexed t level) t = .ok (count, none)) :
    ¬ Accepts t level g chain next := by
  rintro ⟨turn, guarded, stands⟩
  rw [scan_eq] at h
  obtain ⟨accepts, hi, h⟩ := exists_of_bind_eq_ok h
  obtain ⟨m, hm, rfl, rfl⟩ := turn.exists_move
  obtain ⟨n, ha⟩ := forall_of_firstSuccess_none h m hm
  simp only [Move.attempt, ← equivalent_of_indexed hi, stands] at ha
  split at ha
  · next raised => exact absurd raised.2 (Nat.not_lt.mpr (guarded raised.1))
  · cases ha

/-- A scan of a chain that the level can judge does not fail. -/
theorem exists_scan_iff {t : Traffic} {level : Level} {chain : Chain} :
    (∃ r, chain.scan (.indexed t level) t = .ok r) ↔ chain.Comparable level t := by
  rw [scan_eq, ← exists_indexed_iff]
  constructor
  · rintro ⟨r, h⟩
    obtain ⟨accepts, hi, -⟩ := exists_of_bind_eq_ok h
    exact ⟨accepts, hi⟩
  · rintro ⟨accepts, hi⟩
    have hc : chain.Comparable level t := exists_indexed_iff.mp ⟨accepts, hi⟩
    rw [hi]
    refine exists_firstSuccess fun m hm ↦ ?_
    have hp : chain.Perm (m.apply chain) := (turn_of_mem_moves hm).perm
    obtain ⟨verdict, hv, -⟩ := exists_verdict hc (hc.perm hp)
    simp only [Move.attempt, ← equivalent_of_indexed hi, hv]
    split
    · exact ⟨_, rfl⟩
    · cases verdict <;> exact ⟨_, rfl⟩

/-- A scan fails only on a chain that the level cannot judge, with a field that is listed twice. -/
theorem exists_of_scan_eq_error {t : Traffic} {level : Level} {chain : Chain} {error : PlanError}
    (h : chain.scan (.indexed t level) t = .error error) :
    ¬ chain.Comparable level t ∧
      ∃ element access field, error = .duplicateField element t access field := by
  have hc : ¬ chain.Comparable level t := by
    rw [← exists_scan_iff, h]
    rintro ⟨r, hr⟩
    cases hr
  refine ⟨hc, ?_⟩
  rw [scan_eq] at h
  cases hi : Criterion.indexed t level chain with
  | ok accepts => exact absurd (exists_indexed_iff.mp ⟨accepts, hi⟩) hc
  | error first =>
    rw [hi] at h
    cases h
    exact exists_of_indexed_eq_error hi

/-! ### Runs -/

/-- A run of the search from one chain to another. -/
abbrev Reaches (t : Traffic) (level : Level) : Chain → Chain → Prop :=
  Relation.ReflTransGen (Step t level)

/-- A search that ends has made a run of steps, and a scan of its start did not fail. -/
theorem reaches_of_descend {t : Traffic} {level : Level} {limit budget : Nat}
    {stats stats' : ReorderStats} {chain out : Chain}
    (h : descend (.indexed t level) t limit budget stats chain = (stats', .ok out)) :
    chain.Comparable level t ∧ Reaches t level chain out := by
  induction budget generalizing stats chain with
  | zero =>
    rw [descend] at h
    split at h
    · cases h
    · next hs =>
      cases h
      exact ⟨exists_scan_iff.mp ⟨_, hs⟩, .refl⟩
    · cases h
  | succ budget ih =>
    rw [descend] at h
    split at h
    · cases h
    · next hs =>
      cases h
      exact ⟨exists_scan_iff.mp ⟨_, hs⟩, .refl⟩
    · next hs =>
      exact ⟨exists_scan_iff.mp ⟨_, hs⟩, .head ⟨_, accepts_of_scan hs⟩ (ih h).2⟩

/-- A search ends only when a scan makes no move. -/
theorem exists_scan_of_descend {criterion : Criterion} {t : Traffic} {limit budget : Nat}
    {stats stats' : ReorderStats} {chain out : Chain}
    (h : descend criterion t limit budget stats chain = (stats', .ok out)) :
    ∃ count, out.scan criterion t = .ok (count, none) := by
  induction budget generalizing stats chain with
  | zero =>
    rw [descend] at h
    split at h
    · cases h
    · next count hs =>
      cases h
      exact ⟨count, hs⟩
    · cases h
  | succ budget ih =>
    rw [descend] at h
    split at h
    · cases h
    · next count hs =>
      cases h
      exact ⟨count, hs⟩
    · exact ih h

/-- A search whose first scan makes no move ends where it is, within any budget. -/
theorem descend_of_scan {criterion : Criterion} {t : Traffic} {chain : Chain} {count : Nat}
    (h : chain.scan criterion t = .ok (count, none)) (limit budget : Nat) (stats : ReorderStats) :
    descend criterion t limit budget stats chain = (stats.tried count, .ok chain) := by
  cases budget <;> rw [descend, h]

/-- A local search ends only when a scan makes no move. -/
theorem exists_scan_of_reorder {t : Traffic} {level : Level} {chain out : Chain} {maxMoves : Nat}
    (h : chain.reorder t level maxMoves = .ok out) :
    ∃ count, out.scan (.indexed t level) t = .ok (count, none) := by
  have hr : chain.reorderCounted t level maxMoves =
      ((chain.reorderCounted t level maxMoves).1, .ok out) := Prod.ext rfl h
  exact exists_scan_of_descend hr

/-- From where a local search ends, no step can be made. -/
theorem not_step_of_reorder {t : Traffic} {level : Level} {chain out next : Chain} {maxMoves : Nat}
    (h : chain.reorder t level maxMoves = .ok out) : ¬ Step t level out next := by
  obtain ⟨count, hs⟩ := exists_scan_of_reorder h
  rintro ⟨g, accepted⟩
  exact not_accepts_of_scan hs accepted

/-- A local search that ends has made a run of steps from the chain with its traces. -/
theorem reaches_of_reorder {t : Traffic} {level : Level} {chain out : Chain} {maxMoves : Nat}
    (h : chain.reorder t level maxMoves = .ok out) :
    (chain.withTraces t).Comparable level t ∧ Reaches t level (chain.withTraces t) out := by
  have hr : chain.reorderCounted t level maxMoves =
      ((chain.reorderCounted t level maxMoves).1, .ok out) := Prod.ext rfl h
  exact reaches_of_descend hr

namespace Reaches

variable {t : Traffic} {level : Level} {chain out : Chain}

/-- A run keeps the elements. -/
theorem perm (h : Reaches t level chain out) : chain.Perm out := by
  induction h with
  | refl => exact .refl chain
  | tail _ hs ih =>
    obtain ⟨g, ha⟩ := hs
    exact ih.trans ha.turn.perm

/-- Each step is compared with the chain before it, and so the whole run with its start. -/
theorem agree (h : Reaches t level chain out) : chain.Agree level t out := by
  induction h with
  | refl => exact .refl level t chain
  | tail _ hs ih =>
    obtain ⟨g, ha⟩ := hs
    exact ih.trans (equivalent_eq_ok_true_iff.mp ha.stands).2.2

/-- A run keeps the placement valid. -/
theorem isPlaced (h : Reaches t level chain out) (hp : chain.isPlaced = true) :
    out.isPlaced = true := by
  cases h with
  | refl => exact hp
  | tail _ hs =>
    obtain ⟨g, ha⟩ := hs
    exact (equivalent_eq_ok_true_iff.mp ha.stands).2.1

end Reaches

end Chain

end ChainPlan
