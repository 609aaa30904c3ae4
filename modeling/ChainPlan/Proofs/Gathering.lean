import ChainPlan.Cost
import ChainPlan.Placement
import Mathlib.Data.List.TakeWhile

/-! # Chains around their marker

The placement of a chain is valid exactly if nothing before its first marker of the network is
pinned to the server and nothing behind to the client. A chain with exactly one marker is what
stands before the marker and what stands behind it. Wherever a valid placement has the marker, the
marker can be moved to where the elements that may run anywhere want it.
-/

namespace ChainPlan

namespace Chain

/-- No element of the part is the marker of the network. -/
def LacksMarker (part : Chain) : Prop := ∀ e ∈ part, e.isNetwork = false

variable {before after : Chain} {marker : Element}

/-- A chain with one marker splits there. -/
theorem exists_marker_split {chain : Chain} (h : (chain.filter Element.isNetwork).length = 1) :
    ∃ (before : Chain) (marker : Element) (after : Chain), chain = before ++ marker :: after ∧
      marker.isNetwork = true ∧ before.LacksMarker ∧ after.LacksMarker := by
  obtain ⟨marker, hm⟩ := List.length_eq_one_iff.mp h
  obtain ⟨before, after, hc, hb, hn, ha⟩ := List.filter_eq_cons_iff.mp hm
  exact ⟨before, marker, after, hc, hn, fun e he ↦ by simpa using hb e he,
    fun e he ↦ by simpa using List.filter_eq_nil_iff.mp ha e he⟩

/-- Behind the network, only client elements are out of place. -/
theorem placedFrom_true_iff (part : Chain) :
    placedFrom true part = true ↔ ∀ e ∈ part, e.site ≠ .client := by
  induction part with
  | nil => simp [placedFrom]
  | cons e rest ih =>
    rw [placedFrom, List.forall_mem_cons]
    cases hs : e.site <;> simp [ih]

theorem clientSide_cons (e : Element) (rest : Chain) :
    clientSide (e :: rest) = if e.isNetwork then [] else e :: rest.clientSide := by
  rw [clientSide, List.takeWhile_cons]
  cases e.isNetwork <;> rfl

theorem serverSide_cons (e : Element) (rest : Chain) :
    serverSide (e :: rest) = if e.isNetwork then rest else rest.serverSide := by
  rw [serverSide, List.dropWhile_cons]
  cases e.isNetwork <;> rfl

/-- The placement of a chain is valid exactly if neither side holds an element that is pinned to
the other. -/
theorem isPlaced_iff_sides (chain : Chain) :
    chain.isPlaced = true ↔
      (∀ e ∈ chain.clientSide, e.site ≠ .server) ∧ ∀ e ∈ chain.serverSide, e.site ≠ .client := by
  unfold isPlaced
  induction chain with
  | nil => simp [placedFrom, clientSide, serverSide]
  | cons e rest ih =>
    rw [placedFrom, clientSide_cons, serverSide_cons]
    cases hs : e.site with
    | network => simp [Element.isNetwork, hs, placedFrom_true_iff]
    | server => simp [Element.isNetwork, hs]
    | client | dontCare => simp [Element.isNetwork, hs, ih]

theorem clientSide_split (hb : before.LacksMarker) (hm : marker.isNetwork = true) :
    clientSide (before ++ marker :: after) = before := by
  have h : ∀ e ∈ before, (!e.isNetwork) = true := fun e he ↦ by simp [hb e he]
  rw [clientSide, List.takeWhile_append_of_pos h, List.takeWhile_cons_of_neg (by simp [hm]),
    List.append_nil]

theorem serverSide_split (hb : before.LacksMarker) (hm : marker.isNetwork = true) :
    serverSide (before ++ marker :: after) = after := by
  have h : ∀ e ∈ before, (!e.isNetwork) = true := fun e he ↦ by simp [hb e he]
  rw [serverSide, List.dropWhile_append_of_pos h, List.dropWhile_cons_of_neg (by simp [hm])]
  rfl

/-- The placement of a chain around its marker. -/
theorem isPlaced_split_iff (hb : before.LacksMarker) (hm : marker.isNetwork = true) :
    isPlaced (before ++ marker :: after) = true ↔
      (∀ e ∈ before, e.site ≠ .server) ∧ ∀ e ∈ after, e.site ≠ .client := by
  rw [isPlaced_iff_sides, clientSide_split hb hm, serverSide_split hb hm]

/-- What a test takes from the front of a list passes it, and what is left comes from behind the
members that are known to pass. -/
private theorem takeWhile_cut {q : Element → Bool} {front : Chain} (h : ∀ e ∈ front, q e = true)
    (back : Chain) :
    let index := ((front ++ back).takeWhile q).length
    (∀ e ∈ (front ++ back).take index, q e = true) ∧
      ∀ e ∈ (front ++ back).drop index, e ∈ back := by
  constructor
  · intro e he
    rw [← List.prefix_iff_eq_take.mp (List.takeWhile_prefix q)] at he
    exact List.mem_takeWhile_imp he
  · intro e he
    rw [List.takeWhile_append_of_pos h, List.length_append, List.drop_append,
      List.drop_eq_nil_of_le (by omega), List.nil_append] at he
    exact List.mem_of_mem_drop he

/-- The same from the back of a list. -/
private theorem takeWhile_reverse_cut {q : Element → Bool} {back : Chain}
    (h : ∀ e ∈ back, q e = true) (front : Chain) :
    let index := (front ++ back).length - ((front ++ back).reverse.takeWhile q).length
    (∀ e ∈ (front ++ back).take index, e ∈ front) ∧
      ∀ e ∈ (front ++ back).drop index, q e = true := by
  have hr : ∀ e ∈ back.reverse, q e = true := fun e he ↦ h e (List.mem_reverse.mp he)
  have hc := takeWhile_cut hr front.reverse
  dsimp only at hc
  rw [← List.reverse_append, List.take_reverse, List.drop_reverse] at hc
  exact ⟨fun e he ↦ List.mem_reverse.mp (hc.2 e (List.mem_reverse.mpr he)),
    fun e he ↦ hc.1 e (List.mem_reverse.mpr he)⟩

theorem hasSite_eq_false_iff {part : Chain} {s : Site} :
    part.hasSite s = false ↔ ∀ e ∈ part, e.site ≠ s := by
  simp [hasSite]

/-- Every placement leaves the server elements behind the marker and the client elements before it,
if those of the chain are in this order. -/
theorem clientLength_placed (hb : ∀ e ∈ before, e.site ≠ .server)
    (ha : ∀ e ∈ after, e.site ≠ .client) :
    let rest : Chain := before ++ after
    let index := (Placement.ofChain rest).clientLength rest
    (∀ e ∈ rest.take index, e.site ≠ .server) ∧ ∀ e ∈ rest.drop index, e.site ≠ .client := by
  intro rest index
  have hi : index = (Placement.ofChain rest).clientLength rest := rfl
  cases hp : Placement.ofChain rest with
  | allClient =>
    have hs : rest.hasSite .server = false := by
      by_contra h
      rw [Placement.ofChain, if_neg (by simp [h])] at hp
      split_ifs at hp
    rw [hi, hp, Placement.clientLength, List.take_length, List.drop_length]
    exact ⟨hasSite_eq_false_iff.mp hs, by simp⟩
  | allServer =>
    have hs : rest.hasSite .client = false := by
      by_contra h
      rw [Placement.ofChain] at hp
      split_ifs at hp with h₁ h₂
      exact h (by simpa using h₂)
    rw [hi, hp, Placement.clientLength, List.take_zero, List.drop_zero]
    exact ⟨by simp, hasSite_eq_false_iff.mp hs⟩
  | server =>
    have hc := takeWhile_reverse_cut (fun e he ↦ decide_eq_true (ha e he)) before
    rw [hi, hp, Placement.clientLength]
    exact ⟨fun e he ↦ hb e (hc.1 e he), fun e he ↦ of_decide_eq_true (hc.2 e he)⟩
  | client =>
    have hc := takeWhile_cut (fun e he ↦ decide_eq_true (hb e he)) after
    rw [hi, hp, Placement.clientLength]
    exact ⟨fun e he ↦ of_decide_eq_true (hc.1 e he), fun e he ↦ ha e (hc.2 e he)⟩

/-- What becomes of a chain with one marker does not hang on where its marker is. -/
theorem gather_split (hb : before.LacksMarker) (hm : marker.isNetwork = true)
    (ha : after.LacksMarker) :
    gather (before ++ marker :: after) =
      let rest := before ++ after
      let index := (Placement.ofChain rest).clientLength rest
      let placed := rest.take index ++ marker :: rest.drop index
      if isPlaced placed then .ok placed else .error (.invalidPlacement placed) := by
  have hn : (before ++ marker :: after).filter Element.isNetwork = [marker] := by
    rw [List.filter_append, List.filter_cons_of_pos hm,
      List.filter_eq_nil_iff.mpr fun e he ↦ by simp [hb e he],
      List.filter_eq_nil_iff.mpr fun e he ↦ by simp [ha e he]]
    rfl
  have hr : ((before ++ marker :: after).filter fun e ↦ !e.isNetwork) = before ++ after := by
    rw [List.filter_append, List.filter_cons_of_neg (by simp [hm]),
      List.filter_eq_self.mpr fun e he ↦ by simp [hb e he],
      List.filter_eq_self.mpr fun e he ↦ by simp [ha e he]]
  rw [gather, hn]
  simp only [hr]

/-- A chain with one marker and a valid placement is gathered: only its marker moves, and the
placement stays valid. -/
theorem exists_gather (hb : before.LacksMarker) (hm : marker.isNetwork = true)
    (ha : after.LacksMarker) (placed : isPlaced (before ++ marker :: after) = true) :
    ∃ before' after', gather (before ++ marker :: after) = .ok (before' ++ marker :: after') ∧
      before' ++ after' = before ++ after ∧ isPlaced (before' ++ marker :: after') = true := by
  have hs := (isPlaced_split_iff hb hm).mp placed
  have hc := clientLength_placed hs.1 hs.2
  have hl : LacksMarker ((before ++ after).take
      ((Placement.ofChain (before ++ after)).clientLength (before ++ after))) := by
    intro e he
    rcases List.mem_append.mp (List.mem_of_mem_take he) with he | he
    · exact hb e he
    · exact ha e he
  have hp := (isPlaced_split_iff hl hm).mpr hc
  exact ⟨_, _, (gather_split hb hm ha).trans (if_pos hp), List.take_append_drop _ _, hp⟩

/-- The one marker of a chain is a marker. -/
theorem isNetwork_of_single {chain : Chain} (h : chain.filter Element.isNetwork = [marker]) :
    marker.isNetwork = true := by
  have : marker ∈ chain.filter Element.isNetwork := by simp [h]
  exact (List.mem_filter.mp this).2

/-- What is gathered is the rest of the chain, cut where the placement wants its one marker. -/
theorem eq_of_gather {chain placed : Chain} (h : chain.gather = .ok placed) :
    let rest := chain.filter fun e ↦ !e.isNetwork
    let index := (Placement.ofChain rest).clientLength rest
    ∃ marker, chain.filter Element.isNetwork = [marker] ∧
      placed = rest.take index ++ marker :: rest.drop index ∧ placed.isPlaced = true := by
  rw [gather] at h
  split at h
  · cases h
  · next marker hm =>
    simp only at h
    split at h
    · next hp =>
      cases h
      exact ⟨marker, hm, rfl, hp⟩
    · cases h
  · cases h

/-- What is gathered keeps its elements, and its placement is valid. -/
theorem perm_of_gather {chain placed : Chain} (h : chain.gather = .ok placed) :
    chain.Perm placed ∧ placed.isPlaced = true := by
  obtain ⟨marker, hm, rfl, hp⟩ := eq_of_gather h
  have hr : (chain.filter Element.isNetwork ++ chain.filter fun e ↦ !e.isNetwork).Perm chain :=
    List.filter_append_perm _ chain
  rw [hm] at hr
  refine ⟨hr.symm.trans (List.Perm.trans ?_ List.perm_middle.symm), hp⟩
  rw [List.take_append_drop]
  exact .refl _

/-- A placement leaves elements behind the marker only if one is pinned to the server, and then
leaves elements before it only if one is pinned to the client. -/
theorem clientLength_pinned (rest : Chain) :
    let index := (Placement.ofChain rest).clientLength rest
    rest.drop index ≠ [] →
      rest.hasSite .server = true ∧ (rest.take index ≠ [] → rest.hasSite .client = true) := by
  intro index hd
  have hi : index = (Placement.ofChain rest).clientLength rest := rfl
  by_cases hs : rest.hasSite .server = true
  · refine ⟨hs, fun ht ↦ ?_⟩
    by_contra hc
    have hp : Placement.ofChain rest = .allServer := by simp [Placement.ofChain, hs, hc]
    rw [hi, hp] at ht
    exact ht rfl
  · have hp : Placement.ofChain rest = .allClient := by simp [Placement.ofChain, hs]
    rw [hi, hp, Placement.clientLength, List.drop_length] at hd
    exact absurd rfl hd

/-- What is gathered has one marker. Behind it stands nothing, or some server element; and then
before it stands nothing, or some client element. -/
theorem exists_of_gather {chain placed : Chain} (h : chain.gather = .ok placed) :
    ∃ (before : Chain) (marker : Element) (after : Chain), placed = before ++ marker :: after ∧
      marker.isNetwork = true ∧ before.LacksMarker ∧ after.LacksMarker ∧
      (after ≠ [] → (∃ e ∈ after, e.site = .server) ∧
        (before ≠ [] → ∃ e ∈ before, e.site = .client)) := by
  obtain ⟨marker, hm, rfl, hp⟩ := eq_of_gather h
  have hn := isNetwork_of_single hm
  have lacks : LacksMarker (chain.filter fun e ↦ !e.isNetwork) := fun e he ↦ by
    simpa using (List.mem_filter.mp he).2
  generalize (chain.filter fun e ↦ !e.isNetwork) = rest at *
  have pinned := clientLength_pinned rest
  dsimp only at hp pinned ⊢
  generalize (Placement.ofChain rest).clientLength rest = index at *
  have split := List.take_append_drop index rest
  generalize rest.take index = before at *
  generalize rest.drop index = after at *
  subst rest
  obtain ⟨hb, ha⟩ := List.forall_mem_append.mp lacks
  refine ⟨before, marker, after, rfl, hn, hb, ha, fun hd ↦ ?_⟩
  obtain ⟨server, client⟩ := (isPlaced_split_iff hb hn).mp hp
  obtain ⟨hs, hc⟩ := pinned hd
  simp only [hasSite, List.any_append, Bool.or_eq_true, List.any_eq_true, decide_eq_true_eq]
    at hs hc
  constructor
  · rcases hs with ⟨e, he, hs⟩ | hs
    · exact absurd hs (server e he)
    · exact hs
  · intro ht
    rcases hc ht with hc | ⟨e, he, hc⟩
    · exact hc
    · exact absurd hc (client e he)

end Chain

end ChainPlan
