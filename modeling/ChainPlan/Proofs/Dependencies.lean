import ChainPlan.Proofs.Visibility

/-! # Dependencies between elements

An element depends on another that writes a field which it reads or writes itself, or at the strong
level records. In chains without partners whose elements have different identities, the lineage
tells no more and no less than the order of dependent elements: a candidate may stand for a chain
exactly if it keeps that order.
-/

namespace ChainPlan

/-- The accesses that a level keeps in order with the writes of the same field. -/
def Level.ordered : Level → List Access
  | .ignore => []
  | .weak => [.read, .write]
  | .strong => [.read, .record, .write]

theorem Level.mem_ordered {level : Level} (h : level ≠ .ignore) {k : Access} :
    k ∈ level.ordered ↔ k ∈ level.compared ∨ k = .write := by
  cases level with
  | ignore => exact absurd rfl h
  | weak => simp [ordered, compared]
  | strong => simp [ordered, compared, or_assoc]

/-- One element writes a field that another accesses in a way that the level keeps in order. -/
def Element.Feeds (known : List Field) (t : Traffic) (level : Level) (a b : Element) : Prop :=
  ∃ f ∈ a.accessed known t .write, ∃ k ∈ level.ordered, f ∈ b.accessed known t k

instance (known : List Field) (t : Traffic) (level : Level) (a b : Element) :
    Decidable (a.Feeds known t level b) :=
  List.decidableBEx _ _

theorem Element.Feeds.congr {known other : List Field} (h : ∀ f, f ∈ known ↔ f ∈ other)
    {t : Traffic} {level : Level} {a b : Element} (hn : a.Feeds known t level b) :
    a.Feeds other t level b := by
  obtain ⟨f, ha, k, hk, hb⟩ := hn
  exact ⟨f, (mem_accessed_congr h).mp ha, k, hk, (mem_accessed_congr h).mp hb⟩

namespace Chain

/-- The elements of a part of a chain that write a field. -/
def writing (known : List Field) (t : Traffic) (f : Field) (part : Chain) : Chain :=
  part.filter fun e ↦ f ∈ e.accessed known t .write

theorem mem_writing {known : List Field} {t : Traffic} {f : Field} {part : Chain} {e : Element} :
    e ∈ part.writing known t f ↔ e ∈ part ∧ f ∈ e.accessed known t .write := by
  simp [writing]

/-- Without partners, the writers of a field are the input and all elements that write it. -/
theorem writersOf_of_unpaired {part : Chain} (h : ∀ e ∈ part, e.partner = none)
    (known : List Field) (t : Traffic) (f : Field) :
    part.writersOf known t f =
      .input :: (part.writing known t f).map fun e ↦ .element e.identity := by
  induction part using List.reverseRecOn with
  | nil => rfl
  | append_singleton part e ih =>
    have he : e.partner = none := h e (by simp)
    rw [writersOf_concat, ih fun d hd ↦ h d (List.mem_append_left _ hd), writing, writing,
      List.filter_append, Element.credit, he]
    by_cases hf : f ∈ e.accessed known t .write <;> simp [hf]

section

variable {chain other : Chain} {t : Traffic} {known : List Field} {f : Field}

/-- A common list of the writers of a field puts them in the same order. -/
theorem pair_sublist_of_writersOf_eq (hd : (chain.map Element.identity).Nodup)
    (hp : chain.Perm other) (hu : ∀ e ∈ chain, e.partner = none)
    (h : chain.writersOf known t f = other.writersOf known t f) {a b : Element}
    (ha : f ∈ a.accessed known t .write) (hb : f ∈ b.accessed known t .write)
    (hab : [a, b].Sublist chain) : [a, b].Sublist other := by
  rw [writersOf_of_unpaired hu, writersOf_of_unpaired fun e he ↦ hu e (hp.mem_iff.mpr he)] at h
  have hi : (chain.writing known t f).map Element.identity =
      (other.writing known t f).map Element.identity := by
    have element : Function.Injective Writer.element := fun _ _ ↦ Writer.element.inj
    apply List.map_injective_iff.mpr element
    simpa [Function.comp_def] using (List.cons.inj h).2
  have hs : [a, b].Sublist (chain.writing known t f) :=
    (pair_sublist_filter_iff (by simpa using ha) (by simpa using hb)).mpr hab
  have hm := hs.map Element.identity
  rw [hi] at hm
  have hd' : (other.map Element.identity).Nodup := (hp.map Element.identity).nodup hd
  have ha' : a ∈ other := hp.mem_iff.mp (hab.subset (by simp))
  have hb' : b ∈ other := hp.mem_iff.mp (hab.subset (by simp))
  exact (pair_sublist_map_iff hd' ha' hb').mp
    (hm.trans (List.filter_sublist.map Element.identity))

end

section

variable {chain other : Chain} {t : Traffic} {level : Level}

/-- Chains that agree have every element behind those that feed it in one of them. -/
private theorem pair_sublist_of_agree (hl : level ≠ .ignore)
    (hd : (chain.map Element.identity).Nodup) (hu : ∀ e ∈ chain, e.partner = none)
    (hf : chain.HasDistinctFields t) (hp : chain.Perm other) (h : chain.Agree level t other)
    {a b : Element} (hn : a.Feeds (chain.knownFields t) t level b)
    (hab : [a, b].Sublist chain) : [a, b].Sublist other := by
  obtain ⟨f, ha, k, hk, hb⟩ := hn
  have known (f : Field) : f ∈ chain.knownFields t ↔ f ∈ other.knownFields t :=
    mem_knownFields_perm hp
  have hfo := hf.perm hp
  rcases (Level.mem_ordered hl).mp hk with hc | rfl
  · -- the second element observes whether the first one stands in front of it
    have free : ∀ e ∈ chain, e ≠ b → ¬ e.Cancels t f a := fun e he _ ↦
      Element.not_cancels_of_unpaired (hu a (hab.subset (by simp))) (hu e he)
    exact (pair_sublist_iff_of_agree hd hf hp h hc (hab.subset (by simp)) (hab.subset (by simp)) ha
      hb free).mp hab
  · -- the output observes both
    have hk : f ∈ chain.knownFields t :=
      mem_knownFields_of_mem_accessed (hab.subset (by simp : a ∈ [a, b])) ha
    have ho := h.reads hl .output f
    rw [observes_output hf, observes_output hfo, if_pos hk, if_pos ((known f).mp hk),
      writersOf_congr fun f ↦ (known f).symm] at ho
    exact pair_sublist_of_writersOf_eq hd hp hu (Option.some.inj ho) ha hb hab

/-- Chains that agree have dependent elements in the same order. -/
theorem sameOrder_of_agree (hl : level ≠ .ignore) (hd : (chain.map Element.identity).Nodup)
    (hu : ∀ e ∈ chain, e.partner = none) (hf : chain.HasDistinctFields t)
    (hp : chain.Perm other) (h : chain.Agree level t other) :
    SameOrder (Element.Feeds (chain.knownFields t) t level) chain other := by
  intro a _ b _ _ hn
  have known (f : Field) : f ∈ chain.knownFields t ↔ f ∈ other.knownFields t :=
    mem_knownFields_perm hp
  constructor
  · exact pair_sublist_of_agree hl hd hu hf hp h hn
  · exact pair_sublist_of_agree hl ((hp.map Element.identity).nodup hd)
      (fun e he ↦ hu e (hp.mem_iff.mpr he)) (hf.perm hp) hp.symm h.symm (hn.congr known)

/-- Parts of two chains with the same writers of a field have them in the same order. -/
private theorem writing_eq_of_perm {known : List Field} {f : Field} (hl : level ≠ .ignore)
    (hd : chain.Nodup) (hdo : other.Nodup)
    (ho : SameOrder (Element.Feeds known t level) chain other) {xs ys : Chain}
    (hx : xs.Sublist chain) (hy : ys.Sublist other)
    (hp : (xs.writing known t f).Perm (ys.writing known t f)) :
    xs.writing known t f = ys.writing known t f := by
  refine eq_of_pair_sublist hdo hp (fun a b hab ↦ ?_) (List.filter_sublist.trans hy)
  have hw {e : Element} (he : e ∈ [a, b]) : f ∈ e.accessed known t .write :=
    (mem_writing.mp (hab.subset he)).2
  have hc := hab.trans (List.filter_sublist.trans hx)
  have hn : a ≠ b := by simpa using hd.sublist hc
  refine (ho a (hc.subset (by simp)) b (hc.subset (by simp)) hn ?_).mp hc
  exact ⟨f, hw (by simp), .write, (Level.mem_ordered hl).mpr (Or.inr rfl), hw (by simp)⟩

/-- The elements that feed one with a field stand in front of it in both chains. -/
private theorem writing_before_eq {known : List Field} {f : Field} {k : Access} {e : Element}
    {before rest before' rest' : Chain} (hl : level ≠ .ignore)
    (hd : (before ++ e :: rest).Nodup) (hdo : (before' ++ e :: rest').Nodup)
    (hp : (before ++ e :: rest).Perm (before' ++ e :: rest'))
    (ho : SameOrder (Element.Feeds known t level) (before ++ e :: rest) (before' ++ e :: rest'))
    (hk : k ∈ level.ordered) (hf : f ∈ e.accessed known t k) :
    before.writing known t f = before'.writing known t f := by
  have hx : before.Sublist (before ++ e :: rest) := List.sublist_append_left _ _
  have hy : before'.Sublist (before' ++ e :: rest') := List.sublist_append_left _ _
  apply writing_eq_of_perm hl hd hdo ho hx hy
  refine (List.perm_ext_iff_of_nodup ((hd.sublist hx).filter _)
    ((hdo.sublist hy).filter _)).mpr fun a ↦ ?_
  change a ∈ before.writing known t f ↔ a ∈ before'.writing known t f
  rw [mem_writing, mem_writing, ← pair_sublist_iff_mem hd, ← pair_sublist_iff_mem hdo]
  apply and_congr_left
  intro hw
  have hn : a.Feeds known t level e := ⟨f, hw, k, hk, hf⟩
  by_cases he : a = e
  · have hs {xs : Chain} (h : xs.Nodup) : ¬ [e, e].Sublist xs := fun hs ↦
      not_pair_sublist h hs hs
    subst a
    simp [hs hd, hs hdo]
  · constructor
    · intro h
      exact (ho a (h.subset (by simp)) e (by simp) he hn).mp h
    · intro h
      exact (ho a (hp.mem_iff.mpr (h.subset (by simp))) e (by simp) he hn).mpr h

/-- Chains with dependent elements in the same order agree. -/
theorem agree_of_sameOrder (hl : level ≠ .ignore) (hd : (chain.map Element.identity).Nodup)
    (hu : ∀ e ∈ chain, e.partner = none) (hf : chain.HasDistinctFields t)
    (hp : chain.Perm other)
    (ho : SameOrder (Element.Feeds (chain.knownFields t) t level) chain other) :
    chain.Agree level t other := by
  have known (f : Field) : f ∈ chain.knownFields t ↔ f ∈ other.knownFields t :=
    mem_knownFields_perm hp
  have hfo := hf.perm hp
  have hdo : (other.map Element.identity).Nodup := (hp.map Element.identity).nodup hd
  have huo : ∀ e ∈ other, e.partner = none := fun e he ↦ hu e (hp.mem_iff.mpr he)
  intro k hk r f
  have hw := Level.ne_write_of_mem_compared hk
  cases r with
  | output =>
    cases k with
    | write => exact absurd rfl hw
    | record => rw [observes_record_output, observes_record_output]
    | read =>
      rw [observes_output hf, observes_output hfo, writersOf_congr fun f ↦ (known f).symm,
        writersOf_of_unpaired hu, writersOf_of_unpaired huo,
        writing_eq_of_perm hl (hd.of_map _) (hdo.of_map _) ho (.refl _) (.refl _) (hp.filter _)]
      simp only [known f]
  | element identity =>
    by_cases he : ∃ e ∈ chain, e.identity = identity
    · obtain ⟨e, he, rfl⟩ := he
      obtain ⟨before', rest', rfl⟩ := List.append_of_mem (hp.mem_iff.mp he)
      obtain ⟨before, rest, rfl⟩ := List.append_of_mem he
      rw [observes_of_distinct hd hw hf, observes_of_distinct hdo hw hfo]
      simp only [← Element.mem_accessed_congr known, ← writersOf_congr known]
      split
      · next hm =>
        rw [writersOf_of_unpaired fun d hd ↦ hu d (List.mem_append_left _ hd),
          writersOf_of_unpaired fun d hd ↦ huo d (List.mem_append_left _ hd),
          writing_before_eq hl (hd.of_map _) (hdo.of_map _) hp ho
            ((Level.mem_ordered hl).mpr (Or.inl hk)) hm]
      · rfl
    · rw [observes_of_forall_not_mem, observes_of_forall_not_mem]
      · exact fun e hm hi ↦ absurd ⟨e, hp.mem_iff.mpr hm, hi⟩ he
      · exact fun e hm hi ↦ absurd ⟨e, hm, hi⟩ he

/-- A candidate with a valid placement may stand for a chain of elements with different identities
and without partners exactly if dependent elements stand in the same order in both. -/
theorem equivalent_iff_dependencies_in_order (hl : level ≠ .ignore)
    (hd : (chain.map Element.identity).Nodup) (hu : ∀ e ∈ chain, e.partner = none)
    (hf : chain.HasDistinctFields t) (hp : chain.Perm other) (placed : other.isPlaced = true) :
    equivalent chain other t level = .ok true ↔
      ∀ a ∈ chain, ∀ b ∈ chain, a ≠ b → a.Feeds (chain.knownFields t) t level b →
        ([a, b].Sublist chain ↔ [a, b].Sublist other) := by
  have hc : chain.Comparable level t ∧ other.Comparable level t :=
    ⟨fun _ ↦ hf, fun _ ↦ hf.perm hp⟩
  rw [equivalent_eq_ok_true_iff, and_iff_right hc, and_iff_right placed]
  constructor
  · exact sameOrder_of_agree hl hd hu hf hp
  · exact agree_of_sameOrder hl hd hu hf hp

end

/-- An element that reads every field stays behind a writer, and one that records another field may
go in front of both. -/
theorem equivalent_iff_dependencies_in_order_wildcard :
    let tag := Element.onRequests "tag" { PathEffects.none with write := .only ["user"] }
    let acl := Element.onRequests "acl" { PathEffects.none with read := .all, drop := true }
    let log := Element.onRequests "log" { PathEffects.none with record := .only ["body"] }
    equivalent [tag, acl, log] [log, tag, acl] .request .strong = .ok true ∧
      ¬ equivalent [tag, acl, log] [acl, tag, log] .request .strong = .ok true := by
  intro tag acl log
  constructor
  · rw [equivalent_iff_dependencies_in_order (by decide) (by decide +kernel) (by decide)
      (by decide +kernel) (by decide +kernel) (by decide)]
    decide +kernel
  · rw [equivalent_iff_dependencies_in_order (by decide) (by decide +kernel) (by decide)
      (by decide +kernel) (by decide +kernel) (by decide)]
    decide +kernel

end Chain

end ChainPlan
