import ChainPlan.Proofs.Dependencies
import ChainPlan.Proofs.LocalSearch

/-! # Hoisting

Where the local search ends, an element that stops no messages stands in front of one that does only
because it has to. Otherwise it could be moved behind that one: the move is accepted unless
something between them, or the stopping element itself, conflicts with it. Going on from there, a
path of conflicts leads from the element to a stopping one.
-/

namespace ChainPlan

/-- One of two elements writes a field that the other accesses in a way that the level keeps in
order. -/
def Element.Conflicts (known : List Field) (t : Traffic) (level : Level) (a b : Element) : Prop :=
  a.Feeds known t level b ∨ b.Feeds known t level a

instance (known : List Field) (t : Traffic) (level : Level) (a b : Element) :
    Decidable (a.Conflicts known t level b) :=
  inferInstanceAs (Decidable (_ ∨ _))

namespace Chain

variable {chain out : Chain} {t : Traffic} {level : Level}

/-- No element of the chain is pinned to a side of the network. -/
def IsUnpinned (chain : Chain) : Prop := ∀ e ∈ chain, e.site ≠ .client ∧ e.site ≠ .server

theorem IsUnpinned.perm (h : chain.IsUnpinned) (hp : chain.Perm out) : out.IsUnpinned :=
  fun e he ↦ h e (hp.mem_iff.mpr he)

theorem IsUnpinned.withTraces (h : chain.IsUnpinned) : (chain.withTraces t).IsUnpinned := by
  intro e he
  obtain ⟨d, hd, rfl⟩ := List.mem_map.mp he
  rw [Element.site_withTraces]
  exact h d hd

theorem placedFrom_of_isUnpinned (h : chain.IsUnpinned) (passed : Bool) :
    chain.placedFrom passed = true := by
  induction chain generalizing passed with
  | nil => rfl
  | cons e rest ih =>
    obtain ⟨client, server⟩ := h e (.head _)
    have hr : IsUnpinned rest := fun d hd ↦ h d (.tail _ hd)
    rw [placedFrom]
    cases hs : e.site with
    | client => exact absurd hs client
    | server => exact absurd hs server
    | network => exact ih hr true
    | dontCare => exact ih hr passed

/-- What the local search relies on to tell that a move changes nothing: every placement is valid,
and the lineage tells no more than the order of conflicting elements. -/
structure IsLoose (chain : Chain) (t : Traffic) : Prop where
  unpinned : chain.IsUnpinned
  apart : (chain.map Element.identity).Nodup
  unpaired : ∀ e ∈ chain, e.partner = none
  distinct : chain.HasDistinctFields t

/-- Where the search ends, a chain that has been loose is still loose. -/
theorem isLoose_of_reorder {maxMoves : Nat} (hl : level ≠ .ignore) (unpinned : chain.IsUnpinned)
    (apart : (chain.map Element.identity).Nodup) (unpaired : ∀ e ∈ chain, e.partner = none)
    (h : chain.reorder t level maxMoves = .ok out) : out.IsLoose t := by
  obtain ⟨comparable, reaches⟩ := reaches_of_reorder h
  have perm : (chain.withTraces t).Perm out := reaches.perm
  have origin {e : Element} (he : e ∈ out) : ∃ d ∈ chain, d.withTraces t = e :=
    List.mem_map.mp (perm.mem_iff.mpr he)
  refine ⟨unpinned.withTraces.perm perm, ?_, fun e he ↦ ?_, (comparable hl).perm perm⟩
  · refine (perm.map Element.identity).nodup ?_
    rw [map_identity_withTraces]
    exact apart
  · obtain ⟨d, hd, rfl⟩ := origin he
    rw [Element.partner_withTraces]
    exact unpaired d hd

/-- In a loose chain, an element may go behind others that it does not conflict with. -/
theorem IsLoose.equivalent_sink (hl : level ≠ .ignore) {front part back : Chain} {a : Element}
    (h : IsLoose (front ++ a :: (part ++ back)) t)
    (free : ∀ b ∈ part,
      ¬ a.Conflicts (knownFields (front ++ a :: (part ++ back)) t) t level b) :
    equivalent (front ++ a :: (part ++ back)) (front ++ (part ++ a :: back)) t level =
      .ok true := by
  have shuffled : Shuffled (Element.Feeds (knownFields (front ++ a :: (part ++ back)) t) t level)
      (front ++ a :: (part ++ back)) (front ++ (part ++ a :: back)) :=
    .append_left front (.sink (fun b hb ↦ not_or.mp (free b hb)) back)
  have perm := shuffled.perm
  have placed : isPlaced (front ++ (part ++ a :: back)) = true :=
    placedFrom_of_isUnpinned (fun e he ↦ h.unpinned e (perm.mem_iff.mpr he)) false
  refine equivalent_eq_ok_true_iff.mpr ⟨⟨fun _ ↦ h.distinct, fun _ ↦ h.distinct.perm perm⟩,
    placed, ?_⟩
  exact agree_of_sameOrder hl h.apart h.unpaired h.distinct perm shuffled.sameOrder

/-- The elements at two positions in order conflict. -/
def Hinders (chain : Chain) (t : Traffic) (level : Level) (i j : Nat) : Prop :=
  i < j ∧ ∃ a b, chain[i]? = some a ∧ chain[j]? = some b ∧
    a.Conflicts (chain.knownFields t) t level b

/-- Where no step can be made, an element in front of a stopping one conflicts with some element
behind it, up to that one. -/
theorem IsLoose.exists_hinders (hl : level ≠ .ignore) (h : out.IsLoose t)
    (settled : ∀ next, ¬ Step t level out next) {i j : Nat} {a b : Element} (hij : i < j)
    (hi : out[i]? = some a) (ha : (a.on t).stops = false) (hj : out[j]? = some b)
    (hb : (b.on t).stops = true) : ∃ k ≤ j, out.Hinders t level i k := by
  obtain ⟨front, mid, back, rfl, rfl, rfl⟩ := exists_split_of_getElem? hij hi hj
  by_contra unhindered
  have regroup (back : Chain) : mid ++ b :: back = (mid ++ [b]) ++ back := by simp
  have free : ∀ c ∈ mid ++ [b],
      ¬ a.Conflicts (knownFields (front ++ a :: (mid ++ b :: back)) t) t level c := by
    intro c hc conflicts
    obtain ⟨n, hn, rfl⟩ := List.mem_iff_getElem.mp hc
    have bound : n < mid.length + 1 := by simpa using hn
    refine unhindered ⟨front.length + (n + 1), by omega, by omega, a, _, hi, ?_, conflicts⟩
    rw [regroup back, List.getElem?_append_right (by omega), Nat.add_sub_cancel_left,
      List.getElem?_cons_succ, List.getElem?_append_left hn, List.getElem?_eq_getElem hn]
  have stands : equivalent (front ++ a :: (mid ++ b :: back))
      (front ++ (mid ++ b :: a :: back)) t level = .ok true := by
    rw [regroup back] at h free ⊢
    rw [regroup (a :: back)]
    exact h.equivalent_sink hl free
  have turn : Turn t .hoistStop (front ++ a :: (mid ++ b :: back))
      (front ++ (mid ++ b :: a :: back)) :=
    .backward front mid back (by rw [Goal.yields, ha]; rfl) (by rw [Goal.yields, hb]; rfl)
  exact settled _ ⟨.hoistStop, turn, nofun, stands⟩

/-- The local search hoists as far as it can: in the chain that it ends with, a path of conflicts
leads from each element that stops no messages, if one that does comes later, to such a one. -/
theorem reorder_hoists {maxMoves : Nat} (hl : level ≠ .ignore) (unpinned : chain.IsUnpinned)
    (apart : (chain.map Element.identity).Nodup) (unpaired : ∀ e ∈ chain, e.partner = none)
    (h : chain.reorder t level maxMoves = .ok out) {i j : Nat} {a b : Element} (hij : i < j)
    (hi : out[i]? = some a) (ha : (a.on t).stops = false) (hj : out[j]? = some b)
    (hb : (b.on t).stops = true) :
    ∃ k ≤ j, (∃ e, out[k]? = some e ∧ (e.on t).stops = true) ∧
      Relation.TransGen (out.Hinders t level) i k := by
  have loose := isLoose_of_reorder hl unpinned apart unpaired h
  -- By induction on the distance: the element that the first one conflicts with is nearer.
  induction hn : j - i using Nat.strongRecOn generalizing i a with
  | ind n ih =>
    obtain ⟨k, hk, hinders⟩ :=
      loose.exists_hinders hl (fun _ ↦ not_step_of_reorder h) hij hi ha hj hb
    have ⟨hik, _, e, _, he, _⟩ := hinders
    cases hs : (e.on t).stops with
    | true => exact ⟨k, hk, ⟨e, he, hs⟩, .single hinders⟩
    | false =>
      have hne : k ≠ j := by
        rintro rfl
        rw [Option.some.inj (he.symm.trans hj), hb] at hs
        cases hs
      have hkj : k < j := Nat.lt_of_le_of_ne hk hne
      obtain ⟨last, hlast, stopping, path⟩ := ih (j - k) (by omega) hkj he hs rfl
      exact ⟨last, hlast, stopping, .head hinders path⟩

/-- An element stays in front of a dropping one because a third, which reads what it writes, writes
what the dropping one reads. -/
theorem reorder_hoists_through :
    let tag := Element.onRequests "tag" { PathEffects.none with write := .only ["user"] }
    let zip := Element.onRequests "zip"
      { PathEffects.none with read := .only ["user"], write := .only ["body"] }
    let acl := Element.onRequests "acl"
      { PathEffects.none with read := .only ["body"], drop := true }
    let chain : Chain := [tag, zip, acl]
    let out := chain.withTraces .request
    chain.IsUnpinned ∧ (chain.map Element.identity).Nodup ∧ (∀ e ∈ chain, e.partner = none) ∧
      chain.reorder .request .weak 9 = .ok out ∧ ¬ out.Hinders .request .weak 0 2 ∧
      ∃ k ≤ 2, (∃ e, out[k]? = some e ∧ (e.on .request).stops = true) ∧
        Relation.TransGen (out.Hinders .request .weak) 0 k := by
  intro tag zip acl chain out
  have unpinned : chain.IsUnpinned := by
    unfold IsUnpinned
    decide
  have apart : (chain.map Element.identity).Nodup := by decide +kernel
  have unpaired : ∀ e ∈ chain, e.partner = none := by decide
  have h : chain.reorder .request .weak 9 = .ok out := by
    rw [reorder, reorderCounted, Criterion.indexed_eq]
    decide +kernel
  have direct : ¬ out.Hinders .request .weak 0 2 := by
    rintro ⟨-, a, b, ha, hb, conflicts⟩
    obtain rfl := Option.some.inj ha
    obtain rfl := Option.some.inj hb
    exact absurd conflicts (by decide +kernel)
  exact ⟨unpinned, apart, unpaired, h, direct, reorder_hoists (by decide) unpinned apart unpaired h
    (by decide : 0 < 2) rfl rfl rfl rfl⟩

end Chain

end ChainPlan
