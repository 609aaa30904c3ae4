import ChainPlan.Proofs.Gathering
import ChainPlan.Proofs.TrafficCost

/-! # Moves within a side

A move past elements of one side of the network leaves the elements of either side what they are, so
deployment and strong state cost what they did. The traffic costs no more if an element that stops
messages goes to the front, or one that stops none to the back: every element passed gains or loses
nothing that the moved one does not make up for. The weight of the network plays no part in this.
-/

namespace ChainPlan

namespace Chain

/-! ### Sides around a part -/

section

variable {chain next part other : Chain}

theorem clientSide_around (front back : Chain) (hp : part.LacksMarker) (h : part.Perm other) :
    (front ++ part ++ back).clientSide.Perm (front ++ other ++ back).clientSide := by
  have ho : other.LacksMarker := fun e he ↦ hp e (h.mem_iff.mpr he)
  induction front with
  | nil =>
    rw [List.nil_append, List.nil_append, clientSide, clientSide,
      List.takeWhile_append_of_pos (by simpa [LacksMarker] using hp),
      List.takeWhile_append_of_pos (by simpa [LacksMarker] using ho)]
    exact h.append_right _
  | cons e front ih =>
    simp only [List.cons_append, clientSide_cons]
    split
    · exact .refl _
    · exact ih.cons e

theorem serverSide_around (front back : Chain) (hp : part.LacksMarker) (h : part.Perm other) :
    (front ++ part ++ back).serverSide.Perm (front ++ other ++ back).serverSide := by
  have ho : other.LacksMarker := fun e he ↦ hp e (h.mem_iff.mpr he)
  induction front with
  | nil =>
    rw [List.nil_append, List.nil_append, serverSide, serverSide,
      List.dropWhile_append_of_pos (by simpa [LacksMarker] using hp),
      List.dropWhile_append_of_pos (by simpa [LacksMarker] using ho)]
  | cons e front ih =>
    simp only [List.cons_append, serverSide_cons]
    split
    · exact (h.append_left front).append_right back
    · exact ih

variable {K : Type} [CommRing K] [LinearOrder K] [IsStrictOrderedRing K] {weights : Weights K}
  {t : Traffic}

/-- Chains with the same elements on each side differ in cost only by their traffic. -/
theorem costOf_le_of_sides (client : chain.clientSide.Perm next.clientSide)
    (server : chain.serverSide.Perm next.serverSide)
    (traffic : load weights t next ≤ load weights t chain) :
    next.costOf weights t ≤ chain.costOf weights t := by
  simp only [costOf, addDeployCost, addStrongCost, lacksReplica, client.any_eq, server.any_eq,
    client.isEmpty_eq, server.isEmpty_eq, trafficCost_eq_load]
  split <;> split <;> split <;> split <;> simpa using traffic

/-! ### Moves past a part -/

/-- A part of one side in an order whose traffic costs no more makes the chain cost no more. -/
theorem costOf_around_le (hd : weights.drop ≤ 1) (front back : Chain) (hp : part.LacksMarker)
    (h : part.Perm other) (traffic : load weights t other ≤ load weights t part) :
    (front ++ other ++ back).costOf weights t ≤ (front ++ part ++ back).costOf weights t :=
  costOf_le_of_sides (clientSide_around front back hp h) (serverSide_around front back hp h)
    (load_context_le hd front back h.symm traffic)

end

section

variable {K : Type} [CommRing K] [LinearOrder K] [IsStrictOrderedRing K] {weights : Weights K}
  {t : Traffic} {part : Chain} {x : Element}

/-- Two elements of one side cost no more with the one in front that stops messages. -/
theorem load_pair_le_of_side (hw : 0 ≤ weights.element) (hd : 0 ≤ weights.drop) {a b : Element}
    (ha : a.isNetwork = false) (hb : b.isNetwork = false)
    (hs : (b.on t).stops = true → (a.on t).stops = true) :
    load weights t [a, b] ≤ load weights t [b, a] := by
  have price : weights.of b = weights.element := by simp [Weights.of, hb]
  exact load_pair_le hd (price ▸ hw) (by simp [ha]) (by simp [hb]) hs

/-- Taking an element that stops messages to the front of a part of its side costs no more. -/
theorem costOf_hoist_le (hw : 0 ≤ weights.element) (hd : 0 ≤ weights.drop)
    (hd' : weights.drop ≤ 1) (front back : Chain) (hp : LacksMarker (part ++ [x]))
    (hs : (x.on t).stops = true) :
    (front ++ (x :: part) ++ back).costOf weights t ≤
      (front ++ (part ++ [x]) ++ back).costOf weights t := by
  have hx : x.isNetwork = false := hp x (by simp)
  refine costOf_around_le hd' front back hp (List.perm_append_singleton x part) ?_
  refine load_hoist_le hd' fun e he ↦ ?_
  exact load_pair_le_of_side hw hd hx (hp e (by simp [he])) fun _ ↦ hs

/-- Taking an element that stops nothing to the back of a part of its side costs no more. -/
theorem costOf_sink_le (hw : 0 ≤ weights.element) (hd : 0 ≤ weights.drop)
    (hd' : weights.drop ≤ 1) (front back : Chain) (hp : LacksMarker (x :: part))
    (hs : (x.on t).stops = false) :
    (front ++ (part ++ [x]) ++ back).costOf weights t ≤
      (front ++ (x :: part) ++ back).costOf weights t := by
  have hx : x.isNetwork = false := hp x List.mem_cons_self
  refine costOf_around_le hd' front back hp (List.perm_append_singleton x part).symm ?_
  refine load_sink_le hd' fun e he ↦ ?_
  exact load_pair_le_of_side hw hd (hp e (List.mem_cons_of_mem x he)) hx (by simp [hs])

end

/-- Within one side, taking an element that stops messages to an earlier position does not raise the
cost of a chain, nor does taking one that stops none to a later position. -/
theorem relocate_cost_le {K : Type} [CommRing K] [LinearOrder K] [IsStrictOrderedRing K]
    {weights : Weights K} {t : Traffic} {chain : Chain} {i j : Nat}
    (hn : chain.any Element.isNetwork = true) (hw : 0 ≤ weights.element)
    (hd : 0 ≤ weights.drop) (hd' : weights.drop ≤ 1) (hij : i ≤ j) (hj : j < chain.length)
    (side : ∀ k e, i ≤ k → k ≤ j → chain[k]? = some e → e.isNetwork = false) :
    ∃ before, chain.cost weights t = .ok before ∧
      (∀ e, chain[j]? = some e → (e.on t).stops = true →
        ∃ after, cost weights t (relocate chain j i) = .ok after ∧ after ≤ before) ∧
      ∀ e, chain[i]? = some e → (e.on t).stops = false →
        ∃ after, cost weights t (relocate chain i j) = .ok after ∧ after ≤ before := by
  obtain ⟨front, part, back, rfl, rfl, hp⟩ := exists_stretch hij hj
  have lacks : LacksMarker part := by
    intro e he
    obtain ⟨m, hm, rfl⟩ := List.getElem_of_mem he
    refine side (front.length + m) part[m] (by omega) (by omega) ?_
    rw [List.append_assoc, List.getElem?_append_right (by omega), Nat.add_sub_cancel_left,
      List.getElem?_append_left hm, List.getElem?_eq_getElem hm]
  refine ⟨_, cost_perm weights hn (.refl _), fun e he hs ↦ ?_, fun e he hs ↦ ?_⟩
  · rcases List.eq_nil_or_concat' part with rfl | ⟨part, x, rfl⟩
    · exact absurd hp (by simpa using Nat.ne_of_gt (Nat.lt_succ_of_le hij))
    · obtain rfl : j = front.length + part.length := by
        rw [List.length_append, List.length_singleton] at hp
        omega
      obtain rfl : x = e := by simpa using he
      have perm : (front ++ (part ++ [x]) ++ back).Perm (front ++ (x :: part) ++ back) :=
        ((List.perm_append_singleton x part).append_left front).append_right back
      rw [relocate_to_front]
      exact ⟨_, cost_perm weights hn perm, costOf_hoist_le hw hd hd' front back lacks hs⟩
  · cases part with
    | nil => exact absurd hp (by simpa using Nat.ne_of_gt (Nat.lt_succ_of_le hij))
    | cons x part =>
      obtain rfl : j = front.length + part.length := by
        rw [List.length_cons] at hp
        omega
      obtain rfl : x = e := by simpa using he
      have perm : (front ++ (x :: part) ++ back).Perm (front ++ (part ++ [x]) ++ back) :=
        ((List.perm_append_singleton x part).symm.append_left front).append_right back
      rw [relocate_to_back]
      exact ⟨_, cost_perm weights hn perm, costOf_sink_le hw hd hd' front back lacks hs⟩

/-- Behind the network, an element that stops messages goes in front of two that copy or write, and
the one of these that writes goes behind both. The network has a negative weight, and strong state
and deployment cost something. -/
theorem relocate_cost_le_behind_network :
    let mirror := Element.onRequests "mirror" { PathEffects.none with copy := true }
    let tag := { Element.onRequests "tag" { PathEffects.none with write := .only ["user"] } with
      state := { ElementState.stateless with consistency := .strong } }
    let acl := Element.onRequests "acl" { PathEffects.none with block := true }
    let chain : Chain := [mirror, .networkMarker, tag, mirror, acl]
    let hoisted : Chain := [mirror, .networkMarker, acl, tag, mirror]
    let sunk : Chain := [mirror, .networkMarker, mirror, acl, tag]
    let weights : Weights ℚ := ⟨2, -1, 1 / 10, 5, 3⟩
    chain.any Element.isNetwork = true ∧ 0 ≤ weights.element ∧ 0 ≤ weights.drop ∧
      weights.drop ≤ 1 ∧ 2 ≤ 4 ∧ 4 < chain.length ∧
      (∀ k e, 2 ≤ k → k ≤ 4 → chain[k]? = some e → e.isNetwork = false) ∧
      chain.cost weights .request = .ok 18 ∧ hoisted.cost weights .request = .ok (88 / 5) ∧
      sunk.cost weights .request = .ok (89 / 5) ∧
      ∃ before, chain.cost weights .request = .ok before ∧
        (∃ after, hoisted.cost weights .request = .ok after ∧ after ≤ before) ∧
        ∃ after, sunk.cost weights .request = .ok after ∧ after ≤ before := by
  intro mirror tag acl chain hoisted sunk weights
  have hn : chain.any Element.isNetwork = true := by decide
  have hw : 0 ≤ weights.element := by decide +kernel
  have hd : 0 ≤ weights.drop := by decide +kernel
  have hd' : weights.drop ≤ 1 := by decide +kernel
  have side (k : Nat) (e : Element) (hi : 2 ≤ k) (hj : k ≤ 4) (he : chain[k]? = some e) :
      e.isNetwork = false := by
    obtain rfl | rfl | rfl : k = 2 ∨ k = 3 ∨ k = 4 := by omega
    all_goals
      obtain rfl := Option.some.inj he
      rfl
  obtain ⟨before, hb, hoist, sink⟩ :=
    @relocate_cost_le ℚ _ _ _ weights .request chain 2 4 hn hw hd hd' (by decide) (by decide) side
  exact ⟨hn, hw, hd, hd', by decide, by decide, side, by decide +kernel, by decide +kernel,
    by decide +kernel, before, hb, hoist acl rfl rfl, sink tag rfl rfl⟩

end Chain

end ChainPlan
