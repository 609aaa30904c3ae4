import ChainPlan.Proofs.Boundary
import ChainPlan.Proofs.Precedence

/-! # Places of the marker

A chain with one marker is gathered exactly if some place of the marker is valid, which is so if no
server element stands before a client element. The outcome depends on the marker and on the order of
the other elements, but not on where the marker was. Elements that may run anywhere and stand
between the pinned ones land on the server side if only the server side is pinned, or if strong
state is pinned there, some of them is strong too, and nothing strong is pinned to the client.
-/

namespace ChainPlan

namespace Chain

/-- The elements of a chain that are no markers, in order. -/
def unmarked (chain : Chain) : Chain := chain.filter fun e ↦ !e.isNetwork

/-- Some server element of the chain stands before a client element. -/
def IsCrossed (chain : Chain) : Prop :=
  ∃ s c, [s, c].Sublist chain ∧ s.site = .server ∧ c.site = .client

/-- The chain has one marker, and a valid placement with this marker at some place. -/
def HasMarkerPlace (chain : Chain) : Prop :=
  ∃ (before : Chain) (marker : Element) (after : Chain),
    chain.filter Element.isNetwork = [marker] ∧ before ++ after = chain.unmarked ∧
      isPlaced (before ++ marker :: after) = true

/-- The elements that may run anywhere are wanted on the server side: only the server side is
pinned, or strong state is pinned there and not on the client side, and some of them is strong. -/
def PullsToServer (chain : Chain) : Prop :=
  (chain.hasSite .server = true ∧ chain.hasSite .client = false) ∨
    (chain.hasSite .server = true ∧ chain.hasSite .client = true ∧
      chain.hasStrong .server = true ∧ chain.hasStrong .dontCare = true ∧
      chain.hasStrong .client = false)

/-- The chain with a marker where the placement wants it. -/
def withMarker (rest : Chain) (marker : Element) : Chain :=
  rest.take ((Placement.ofChain rest).clientLength rest) ++
    marker :: rest.drop ((Placement.ofChain rest).clientLength rest)

/-- What becomes of a chain when its marker is placed. -/
structure GathersTo (chain out : Chain) : Prop where
  unmarked : out.unmarked = chain.unmarked
  marker : out.filter Element.isNetwork = chain.filter Element.isNetwork
  isPlaced : out.isPlaced = true
  /-- The marker may have stood anywhere. -/
  elsewhere : ∀ other : Chain, other.unmarked = chain.unmarked →
    other.filter Element.isNetwork = chain.filter Element.isNetwork → other.gather = .ok out
  again : out.gather = .ok out
  /-- An element that may run anywhere, with no server element in front of it and no client element
  behind it, has the marker in front of it exactly if it is wanted on the server side. -/
  free : ∀ front d back, out = front ++ d :: back → d.site = .dontCare →
    (∀ e ∈ front, e.site ≠ .server) → (∀ e ∈ back, e.site ≠ .client) →
    ((∃ e ∈ front, e.isNetwork = true) ↔ chain.PullsToServer)

variable {chain rest before after front back : Chain} {marker d : Element}

/-! ### Chains without their marker -/

theorem lacksMarker_unmarked (chain : Chain) : chain.unmarked.LacksMarker := by
  intro e he
  simpa using (List.mem_filter.mp he).2

theorem unmarked_eq_self (h : rest.LacksMarker) : rest.unmarked = rest :=
  List.filter_eq_self.mpr fun e he ↦ by simp [h e he]

theorem unmarked_append (front back : Chain) :
    unmarked (front ++ back) = front.unmarked ++ back.unmarked := List.filter_append ..

theorem unmarked_cons_of_isNetwork (hm : marker.isNetwork = true) (back : Chain) :
    unmarked (marker :: back) = back.unmarked := List.filter_cons_of_neg (by simp [hm])

theorem unmarked_cons_of_not_isNetwork (hd : d.isNetwork = false) (back : Chain) :
    unmarked (d :: back) = d :: back.unmarked := List.filter_cons_of_pos (by simp [hd])

/-- Pinned elements stand in the same order without the markers. -/
theorem isCrossed_unmarked_iff : chain.unmarked.IsCrossed ↔ chain.IsCrossed := by
  unfold IsCrossed unmarked
  constructor
  · rintro ⟨s, c, h, hs, hc⟩
    exact ⟨s, c, h.trans List.filter_sublist, hs, hc⟩
  · rintro ⟨s, c, h, hs, hc⟩
    refine ⟨s, c, ?_, hs, hc⟩
    rw [pair_sublist_filter_iff (by simp [Element.isNetwork, hs]) (by simp [Element.isNetwork, hc])]
    exact h

/-- Tests that no marker passes find the same without the markers. -/
theorem any_unmarked {p : Element → Bool} (hp : ∀ e, e.isNetwork = true → p e = false) :
    chain.unmarked.any p = chain.any p := by
  rw [unmarked, List.any_filter]
  congr 1
  funext e
  cases he : e.isNetwork with
  | true => simp [hp e he]
  | false => rfl

theorem hasSite_unmarked {s : Site} (hs : s ≠ .network) :
    chain.unmarked.hasSite s = chain.hasSite s := by
  apply any_unmarked
  intro e he
  simp only [Element.isNetwork, decide_eq_true_eq] at he
  simp [he, hs.symm]

theorem hasStrong_unmarked {s : Site} (hs : s ≠ .network) :
    chain.unmarked.hasStrong s = chain.hasStrong s := by
  apply any_unmarked
  intro e he
  simp only [Element.isNetwork, decide_eq_true_eq] at he
  simp [he, hs.symm]

/-- A marker wants nothing. -/
theorem pullsToServer_unmarked_iff : chain.unmarked.PullsToServer ↔ chain.PullsToServer := by
  unfold PullsToServer
  simp only [hasSite_unmarked, hasStrong_unmarked, ne_eq, reduceCtorEq, not_false_eq_true]

/-! ### Valid places -/

/-- Client elements all stand before server elements exactly if the chain can be cut between
them. -/
theorem not_isCrossed_iff :
    ¬ rest.IsCrossed ↔ ∃ before after, before ++ after = rest ∧
      (∀ e ∈ before, e.site ≠ .server) ∧ ∀ e ∈ after, e.site ≠ .client := by
  constructor
  · intro h
    -- The cut is in front of the first server element.
    induction rest with
    | nil => exact ⟨[], [], rfl, by simp, by simp⟩
    | cons e rest ih =>
      by_cases he : e.site = .server
      · refine ⟨[], e :: rest, rfl, by simp, ?_⟩
        intro c hc hs
        rcases List.mem_cons.mp hc with rfl | hc
        · simp [he] at hs
        · apply h
          exact ⟨e, c, (List.singleton_sublist.mpr hc).cons_cons e, he, hs⟩
      · have hr : ¬ IsCrossed rest := by
          intro ⟨s, c, hp, hs, hc⟩
          exact h ⟨s, c, hp.cons e, hs, hc⟩
        obtain ⟨before, after, rfl, hb, ha⟩ := ih hr
        exact ⟨e :: before, after, rfl, List.forall_mem_cons.mpr ⟨he, hb⟩, ha⟩
  · rintro ⟨before, after, rfl, hb, ha⟩ ⟨s, c, h, hs, hc⟩
    obtain ⟨xs, ys, he, hx, hy⟩ := List.sublist_append_iff.mp h
    cases xs with
    | nil =>
      rw [List.nil_append] at he
      exact ha c (hy.subset (by simp [← he])) hc
    | cons x xs =>
      rw [List.cons_append, List.cons.injEq] at he
      exact hb s (hx.subset (by simp [he.1])) hs

/-- The placement of the marker is valid exactly if it can be. -/
theorem isPlaced_withMarker_iff (hm : marker.isNetwork = true) (hr : rest.LacksMarker) :
    isPlaced (rest.withMarker marker) = true ↔
      ∃ before after, before ++ after = rest ∧ isPlaced (before ++ marker :: after) = true := by
  constructor
  · intro h
    exact ⟨_, _, List.take_append_drop _ rest, h⟩
  · rintro ⟨before, after, rfl, h⟩
    obtain ⟨hb, ha⟩ := List.forall_mem_append.mp hr
    obtain ⟨server, client⟩ := (isPlaced_split_iff hb hm).mp h
    apply (isPlaced_split_iff _ hm).mpr
    · exact clientLength_placed server client
    · intro e he
      exact hr e (List.mem_of_mem_take he)

/-- The marker has a valid place exactly if no server element stands before a client element. -/
theorem isPlaced_withMarker_iff_not_isCrossed (hm : marker.isNetwork = true) (chain : Chain) :
    isPlaced (chain.unmarked.withMarker marker) = true ↔ ¬ chain.IsCrossed := by
  have hr := lacksMarker_unmarked chain
  rw [isPlaced_withMarker_iff hm hr, ← isCrossed_unmarked_iff, not_isCrossed_iff]
  constructor
  · rintro ⟨before, after, he, h⟩
    obtain ⟨hb, -⟩ := List.forall_mem_append.mp (he ▸ hr)
    exact ⟨before, after, he, (isPlaced_split_iff hb hm).mp h⟩
  · rintro ⟨before, after, he, h⟩
    obtain ⟨hb, -⟩ := List.forall_mem_append.mp (he ▸ hr)
    exact ⟨before, after, he, (isPlaced_split_iff hb hm).mpr h⟩

/-- A chain has a valid place for its one marker exactly if no server element stands before a client
element. -/
theorem hasMarkerPlace_iff : chain.HasMarkerPlace ↔ chain.markerCount = 1 ∧ ¬ chain.IsCrossed := by
  constructor
  · rintro ⟨before, marker, after, hm, hr, placed⟩
    have hn := isNetwork_of_single hm
    refine ⟨congrArg List.length hm, ?_⟩
    rw [← isPlaced_withMarker_iff_not_isCrossed hn,
      isPlaced_withMarker_iff hn (lacksMarker_unmarked chain)]
    exact ⟨before, after, hr, placed⟩
  · rintro ⟨hs, hc⟩
    obtain ⟨marker, hm⟩ := List.length_eq_one_iff.mp hs
    have hn := isNetwork_of_single hm
    rw [← isPlaced_withMarker_iff_not_isCrossed hn,
      isPlaced_withMarker_iff hn (lacksMarker_unmarked chain)] at hc
    obtain ⟨before, after, hr, placed⟩ := hc
    exact ⟨before, marker, after, hm, hr, placed⟩

/-! ### Elements that may run anywhere -/

theorem pullsToServer_iff :
    rest.PullsToServer ↔ Placement.ofChain rest = .allServer ∨ Placement.ofChain rest = .server := by
  unfold PullsToServer Placement.ofChain
  cases rest.hasSite .server <;> cases rest.hasSite .client <;> cases rest.hasStrong .server <;>
    cases rest.hasStrong .client <;> cases rest.hasStrong .dontCare <;> simp

/-- What is taken from the front of a list reaches behind the members that pass the test. -/
private theorem le_length_takeWhile {q : Element → Bool} (h : ∀ e ∈ front, q e = true)
    (back : Chain) : front.length ≤ ((front ++ back).takeWhile q).length := by
  rw [List.takeWhile_append_of_pos h, List.length_append]
  omega

/-- The placement leaves an element that may run anywhere, and that stands between the pinned ones,
behind the marker exactly if it is wanted on the server side. -/
theorem clientLength_le_iff (hd : d.site = .dontCare) (hf : ∀ e ∈ front, e.site ≠ .server)
    (hb : ∀ e ∈ back, e.site ≠ .client) :
    (Placement.ofChain (front ++ d :: back)).clientLength (front ++ d :: back) ≤ front.length ↔
      PullsToServer (front ++ d :: back) := by
  rw [pullsToServer_iff]
  have hl : (front ++ d :: back).length = front.length + back.length + 1 := by
    simp [Nat.add_assoc]
  cases Placement.ofChain (front ++ d :: back) with
  | allClient => simp only [Placement.clientLength, hl, reduceCtorEq, or_self, iff_false]; omega
  | allServer => simp [Placement.clientLength]
  | server =>
    have hq : ∀ e ∈ back.reverse ++ [d], decide (e.site ≠ .client) = true := by
      intro e he
      rcases List.mem_append.mp he with he | he
      · simpa using hb e (List.mem_reverse.mp he)
      · simp [List.mem_singleton.mp he, hd]
    have ht := le_length_takeWhile hq front.reverse
    have hr : (front ++ d :: back).reverse = back.reverse ++ [d] ++ front.reverse := by simp
    rw [List.length_append, List.length_reverse, List.length_singleton] at ht
    simp only [Placement.clientLength, hr, hl, or_true, iff_true]
    omega
  | client =>
    have hq : ∀ e ∈ front ++ [d], decide (e.site ≠ .server) = true := by
      intro e he
      rcases List.mem_append.mp he with he | he
      · simpa using hf e he
      · simp [List.mem_singleton.mp he, hd]
    have ht := le_length_takeWhile hq back
    have hr : front ++ d :: back = front ++ [d] ++ back := by simp
    rw [List.length_append, List.length_singleton] at ht
    simp only [Placement.clientLength, hr, reduceCtorEq, or_self, iff_false]
    omega

/-! ### Gathered chains -/

/-- A chain with one marker is gathered to the order that the placement wants, if it is valid. -/
theorem gather_of_single (hm : chain.filter Element.isNetwork = [marker]) :
    chain.gather =
      if isPlaced (chain.unmarked.withMarker marker) then
        .ok (chain.unmarked.withMarker marker)
      else .error (.invalidPlacement (chain.unmarked.withMarker marker)) := by
  rw [gather, hm]
  rfl

theorem unmarked_withMarker (hm : marker.isNetwork = true) (hr : rest.LacksMarker) :
    unmarked (rest.withMarker marker) = rest := by
  rw [withMarker, unmarked_append, unmarked_cons_of_isNetwork hm, ← unmarked_append,
    List.take_append_drop, unmarked_eq_self hr]

theorem filter_isNetwork_withMarker (hm : marker.isNetwork = true) (hr : rest.LacksMarker) :
    (rest.withMarker marker).filter Element.isNetwork = [marker] := by
  have none : ∀ part : Chain, part ⊆ rest → part.filter Element.isNetwork = [] := by
    intro part hs
    apply List.filter_eq_nil_iff.mpr
    intro e he
    simp [hr e (hs he)]
  rw [withMarker, List.filter_append, List.filter_cons_of_pos hm, none _ (List.take_subset _ _),
    none _ (List.drop_subset _ _), List.nil_append]

/-- The only marker stands in front of another element exactly if no fewer of the other elements do
than stand in front of the marker. -/
theorem exists_marker_iff_length_le (hm : marker.isNetwork = true) (hb : before.LacksMarker)
    (hd : d.isNetwork = false) (ho : before ++ marker :: after = front ++ d :: back) :
    (∃ e ∈ front, e.isNetwork = true) ↔ before.length ≤ front.unmarked.length := by
  have hne : d ≠ marker := by
    rintro rfl
    simp [hm] at hd
  rcases List.append_eq_append_iff.mp ho with ⟨mid, hfront, hmid⟩ | ⟨mid, hbefore, hmid⟩
  · cases mid with
    | nil => exact absurd (List.cons.inj hmid).1.symm hne
    | cons m mid =>
      rw [List.cons_append, List.cons.injEq] at hmid
      obtain ⟨rfl, -⟩ := hmid
      have hu : front.unmarked = before ++ unmarked mid := by
        rw [hfront, unmarked_append, unmarked_cons_of_isNetwork hm, unmarked_eq_self hb]
      refine iff_of_true ⟨marker, by simp [hfront], hm⟩ ?_
      rw [hu, List.length_append]
      omega
  · cases mid with
    | nil => exact absurd (List.cons.inj hmid).1 hne
    | cons m mid =>
      rw [hbefore] at hb
      obtain ⟨hf, -⟩ := List.forall_mem_append.mp hb
      rw [unmarked_eq_self hf, hbefore, List.length_append, List.length_cons]
      refine iff_of_false ?_ (by omega)
      rintro ⟨e, he, marks⟩
      simp [hf e he] at marks

/-- An element that may run anywhere, and that stands between the pinned ones, has the marker in
front of it exactly if it is wanted on the server side. -/
theorem exists_marker_front_iff (hm : marker.isNetwork = true) (hr : rest.LacksMarker)
    (ho : rest.withMarker marker = front ++ d :: back) (hd : d.site = .dontCare)
    (hf : ∀ e ∈ front, e.site ≠ .server) (hb : ∀ e ∈ back, e.site ≠ .client) :
    (∃ e ∈ front, e.isNetwork = true) ↔ rest.PullsToServer := by
  have hn : d.isNetwork = false := by simp [Element.isNetwork, hd]
  have split : rest = front.unmarked ++ d :: back.unmarked := by
    rw [← unmarked_withMarker hm hr, ho, unmarked_append, unmarked_cons_of_not_isNetwork hn]
  have wanted : (Placement.ofChain rest).clientLength rest ≤ front.unmarked.length ↔
      rest.PullsToServer := by
    rw [split]
    apply clientLength_le_iff hd
    · intro e he
      exact hf e (List.mem_of_mem_filter he)
    · intro e he
      exact hb e (List.mem_of_mem_filter he)
  have hl : front.unmarked.length < rest.length := by
    rw [split, List.length_append, List.length_cons]
    omega
  rw [← wanted, exists_marker_iff_length_le hm _ hn ho, List.length_take]
  · omega
  · intro e he
    exact hr e (List.mem_of_mem_take he)

/-- A chain with one marker and no server element before a client element is gathered. -/
theorem exists_gathersTo (hs : chain.markerCount = 1) (hc : ¬ chain.IsCrossed) :
    ∃ out, chain.gather = .ok out ∧ chain.GathersTo out := by
  obtain ⟨marker, hm⟩ := List.length_eq_one_iff.mp hs
  have hn := isNetwork_of_single hm
  have hr := lacksMarker_unmarked chain
  have placed := (isPlaced_withMarker_iff_not_isCrossed hn chain).mpr hc
  have hu := unmarked_withMarker hn hr
  have hf := filter_isNetwork_withMarker hn hr
  -- Only the marker and the other elements are looked at, so all chains that share them end alike.
  have ends : ∀ other : Chain, other.unmarked = chain.unmarked →
      other.filter Element.isNetwork = [marker] →
      other.gather = .ok (chain.unmarked.withMarker marker) := by
    intro other ho hm'
    rw [gather_of_single hm', ho, if_pos placed]
  refine ⟨_, ends chain rfl hm, hu, hf.trans hm.symm, placed, ?_, ends _ hu hf, ?_⟩
  · intro other ho hm'
    exact ends other ho (hm'.trans hm)
  · intro front d back ho hd server client
    rw [exists_marker_front_iff hn hr ho hd server client, pullsToServer_unmarked_iff]

/-- A chain with one marker and some server element before a client element is refused. -/
theorem exists_invalidPlacement (hs : chain.markerCount = 1) (hc : chain.IsCrossed) :
    ∃ placed, chain.gather = .error (.invalidPlacement placed) := by
  obtain ⟨marker, hm⟩ := List.length_eq_one_iff.mp hs
  refine ⟨_, (gather_of_single hm).trans (if_neg ?_)⟩
  rw [isPlaced_withMarker_iff_not_isCrossed (isNetwork_of_single hm)]
  exact not_not_intro hc

theorem gather_of_markerCount_eq_zero (h : chain.markerCount = 0) :
    chain.gather = .error .missingNetwork := by
  rw [gather, List.length_eq_zero_iff.mp h]

theorem gather_of_two_le_markerCount (h : 2 ≤ chain.markerCount) :
    chain.gather = .error (.multipleNetwork chain.markerCount) := by
  rw [markerCount] at h ⊢
  rw [gather]
  split
  · next hm => simp [hm] at h
  · next hm => simp [hm] at h
  · rfl

/-- Gathering is refused exactly if the chain has no marker, several of them, or one that has no
valid place because a server element stands before a client element. Otherwise only the marker
moves, and it ends in one place wherever it was: a valid one, with the elements that may run
anywhere on the side that they are wanted on. -/
theorem gather_iff_hasMarkerPlace (chain : Chain) :
    (chain.gather = .error .missingNetwork ↔ chain.markerCount = 0) ∧
      (∀ k, chain.gather = .error (.multipleNetwork k) ↔ 2 ≤ k ∧ chain.markerCount = k) ∧
      ((∃ placed, chain.gather = .error (.invalidPlacement placed)) ↔
        chain.markerCount = 1 ∧ chain.IsCrossed) ∧
      ((∃ out, chain.gather = .ok out) ↔ chain.markerCount = 1 ∧ ¬ chain.IsCrossed) ∧
      ((∃ out, chain.gather = .ok out) ↔ chain.HasMarkerPlace) ∧
      ∀ out, chain.gather = .ok out → chain.GathersTo out := by
  rw [hasMarkerPlace_iff]
  by_cases h₀ : chain.markerCount = 0
  · have hg := gather_of_markerCount_eq_zero h₀
    have hk : ∀ k, ¬ (2 ≤ k ∧ 0 = k) := by omega
    simp [hg, h₀, hk]
  by_cases h₁ : chain.markerCount = 1
  · have hk : ∀ k, ¬ (2 ≤ k ∧ 1 = k) := by omega
    by_cases hc : chain.IsCrossed
    · obtain ⟨placed, hg⟩ := exists_invalidPlacement h₁ hc
      simp [hg, h₁, hc, hk]
    · obtain ⟨out, hg, ho⟩ := exists_gathersTo h₁ hc
      simp [hg, h₁, hc, ho, hk]
  · have h₂ : 2 ≤ chain.markerCount := by omega
    have hk : ∀ k, chain.markerCount = k ↔ 2 ≤ k ∧ chain.markerCount = k := by omega
    simp [gather_of_two_le_markerCount h₂, h₀, h₁, ← hk]

/-- Strong state that is pinned to the server pulls what may run anywhere behind the marker, unless
the client has strong state too. -/
theorem gather_iff_hasMarkerPlace_pulled :
    let strong : ElementState := { ElementState.stateless with
      stateful := true, consistency := .strong }
    let retry := { Element.ofName "retry" with site := .client }
    let quota := { Element.ofName "quota" with state := strong }
    let tag := Element.ofName "tag"
    let cache := { Element.ofName "cache" with site := .server, state := strong }
    let login := { Element.ofName "login" with site := .client, state := strong }
    Chain.gather [retry, quota, .networkMarker, tag, cache] =
        .ok [retry, .networkMarker, quota, tag, cache] ∧
      GathersTo [retry, quota, .networkMarker, tag, cache]
        [retry, .networkMarker, quota, tag, cache] ∧
      Chain.gather [login, quota, .networkMarker, tag, cache] =
        .ok [login, quota, tag, .networkMarker, cache] ∧
      GathersTo [login, quota, .networkMarker, tag, cache]
        [login, quota, tag, .networkMarker, cache] := by
  intro strong retry quota tag cache login
  have h : Chain.gather [retry, quota, .networkMarker, tag, cache] =
      .ok [retry, .networkMarker, quota, tag, cache] := by decide +kernel
  have h' : Chain.gather [login, quota, .networkMarker, tag, cache] =
      .ok [login, quota, tag, .networkMarker, cache] := by decide +kernel
  exact ⟨h, (gather_iff_hasMarkerPlace _).2.2.2.2.2 _ h, h',
    (gather_iff_hasMarkerPlace _).2.2.2.2.2 _ h'⟩

end Chain

end ChainPlan
