import ChainPlan.Proofs.Agreement
import ChainPlan.Proofs.Precedence

/-! # Visible writers

Whoever observes a field sees the elements in front of it that write the field, less those that
partners have taken out. An element that no partner can take out is seen exactly where it stands in
front. So chains that agree have it on the same side of everyone who observes the field.
-/

namespace ChainPlan

namespace Element

/-- Another element writes the field too, and one of the two is the partner of the other. -/
def Cancels (t : Traffic) (f : Field) (e a : Element) : Prop :=
  e ≠ a ∧ (e.on t).write.contains f = true ∧
    (a.partner = some e.identity ∨ e.partner = some a.identity)

instance (t : Traffic) (f : Field) (e a : Element) : Decidable (e.Cancels t f a) :=
  inferInstanceAs (Decidable (_ ∧ _ ∧ (_ ∨ _)))

variable {e : Element} {ws : List Writer} {w : Writer}

theorem not_cancels_of_unpaired {t : Traffic} {f : Field} {a : Element} (ha : a.partner = none)
    (he : e.partner = none) : ¬ e.Cancels t f a := by
  rintro ⟨-, -, h | h⟩
  · simp [ha] at h
  · simp [he] at h

theorem mem_of_mem_credit (h : w ∈ e.credit ws) : w ∈ ws ∨ w = .element e.identity := by
  unfold credit at h
  split at h
  · split at h
    · exact .inl (List.mem_of_mem_erase h)
    · simpa using h
  · simpa using h

/-- A write leaves the writers other than the element and its partner as they are. -/
theorem mem_credit_iff_of_ne (hi : w ≠ .element e.identity)
    (hp : ∀ p, e.partner = some p → w ≠ .element p) : w ∈ e.credit ws ↔ w ∈ ws := by
  unfold credit
  split
  · next p he =>
    split
    · exact List.mem_erase_of_ne (hp p he)
    · simp [hi]
  · simp [hi]

/-- An element whose partner is not among the writers joins them at the end. -/
theorem credit_of_not_mem (h : ∀ p, e.partner = some p → Writer.element p ∉ ws) :
    e.credit ws = ws ++ [.element e.identity] := by
  unfold credit
  split
  · next p he => rw [if_neg (h p he)]
  · rfl

end Element

namespace Chain

variable {chain other part : Chain} {known : List Field} {t : Traffic} {f : Field} {a b : Element}

theorem exists_of_mem_writersOf {identity : String}
    (h : .element identity ∈ part.writersOf known t f) :
    ∃ e ∈ part, e.identity = identity ∧ f ∈ e.accessed known t .write := by
  induction part using List.reverseRecOn with
  | nil => simp at h
  | append_singleton part e ih =>
    rw [writersOf_concat] at h
    split at h
    · next hf =>
      rcases Element.mem_of_mem_credit h with h | h
      · obtain ⟨d, hd, hi⟩ := ih h
        exact ⟨d, List.mem_append_left _ hd, hi⟩
      · exact ⟨e, by simp, (Writer.element.inj h).symm, hf⟩
    · obtain ⟨d, hd, hi⟩ := ih h
      exact ⟨d, List.mem_append_left _ hd, hi⟩

/-- A writer that no partner can take out is among the writers exactly if it stands there. -/
theorem mem_writersOf_iff (hd : (chain.map Element.identity).Nodup) (hs : part.Sublist chain)
    (ha : a ∈ chain) (hw : f ∈ a.accessed known t .write)
    (free : ∀ e ∈ part, ¬ e.Cancels t f a) :
    .element a.identity ∈ part.writersOf known t f ↔ a ∈ part := by
  induction part using List.reverseRecOn with
  | nil => simp
  | append_singleton part e ih =>
    have ih := ih ((List.sublist_append_left part [e]).trans hs)
      fun d hd ↦ free d (List.mem_append_left _ hd)
    have he : e ∉ part := by
      have hn := (hd.of_map _).sublist hs
      exact fun hm ↦ (List.nodup_append.mp hn).2.2 e hm e List.mem_cons_self rfl
    rw [writersOf_concat]
    by_cases hea : e = a
    · -- the partner of the element is not among the writers, or it would cancel it
      subst e
      have join : a.credit (writersOf known t f part) =
          writersOf known t f part ++ [.element a.identity] := by
        refine Element.credit_of_not_mem fun p hp hm ↦ ?_
        obtain ⟨d, hdm, rfl, hf⟩ := exists_of_mem_writersOf hm
        have hda : d ≠ a := fun h ↦ he (h ▸ hdm)
        exact free d (List.mem_append_left _ hdm)
          ⟨hda, FieldSet.contains_of_mem_expand hf, .inl hp⟩
      simp [hw, join]
    · have hi : Writer.element a.identity ≠ .element e.identity := fun h ↦
        hea (List.inj_on_of_nodup_map hd (hs.subset (by simp)) ha (Writer.element.inj h).symm)
      have hm : a ∈ part ++ [e] ↔ a ∈ part := by simp [Ne.symm hea]
      rw [hm, ← ih]
      split
      · next hf =>
        refine Element.mem_credit_iff_of_ne hi fun p hp hq ↦ ?_
        exact free e (by simp) ⟨hea, FieldSet.contains_of_mem_expand hf,
          .inr (by rw [hp, Writer.element.inj hq])⟩
      · rfl

/-- Chains that agree have the same writers of a field in front of an element that the level asks
what it observes on the field. -/
theorem writersOf_eq_of_agree {level : Level} {k : Access} {before rest before' rest' : Chain}
    (hd : ((before ++ b :: rest).map Element.identity).Nodup)
    (hf : (before ++ b :: rest).HasDistinctFields t)
    (hp : (before ++ b :: rest).Perm (before' ++ b :: rest'))
    (h : Agree level t (before ++ b :: rest) (before' ++ b :: rest')) (hk : k ∈ level.compared)
    (hb : f ∈ b.accessed ((before ++ b :: rest).knownFields t) t k) :
    before.writersOf ((before ++ b :: rest).knownFields t) t f =
      before'.writersOf ((before ++ b :: rest).knownFields t) t f := by
  have known (f : Field) : f ∈ (before ++ b :: rest).knownFields t ↔
      f ∈ (before' ++ b :: rest').knownFields t := mem_knownFields_perm hp
  have hw := Level.ne_write_of_mem_compared hk
  have hdo := (hp.map Element.identity).nodup hd
  have ho := h k hk (.element b.identity) f
  rw [observes_of_distinct hd hw hf, observes_of_distinct hdo hw (hf.perm hp), if_pos hb,
    if_pos ((Element.mem_accessed_congr known).mp hb),
    writersOf_congr fun f ↦ (known f).symm] at ho
  exact Option.some.inj ho

/-- Chains that agree have a writer that no partner can take out on the same side of an element that
the level asks what it observes on the field. -/
theorem pair_sublist_iff_of_agree {level : Level} {k : Access}
    (hd : (chain.map Element.identity).Nodup) (hf : chain.HasDistinctFields t)
    (hp : chain.Perm other) (h : chain.Agree level t other) (hk : k ∈ level.compared)
    (ha : a ∈ chain) (hb : b ∈ chain) (hw : f ∈ a.accessed (chain.knownFields t) t .write)
    (hm : f ∈ b.accessed (chain.knownFields t) t k)
    (free : ∀ e ∈ chain, e ≠ b → ¬ e.Cancels t f a) :
    [a, b].Sublist chain ↔ [a, b].Sublist other := by
  have hdo : (other.map Element.identity).Nodup := (hp.map Element.identity).nodup hd
  obtain ⟨before', rest', rfl⟩ := List.append_of_mem (hp.mem_iff.mp hb)
  obtain ⟨before, rest, rfl⟩ := List.append_of_mem hb
  have hs : before.Sublist (before ++ b :: rest) := List.sublist_append_left _ _
  have hs' : before'.Sublist (before' ++ b :: rest') := List.sublist_append_left _ _
  have lacks {front back : Chain} (hn : (front ++ b :: back).Nodup) {e : Element}
      (he : e ∈ front) : e ≠ b := (List.nodup_append.mp hn).2.2 e he b List.mem_cons_self
  have free' : ∀ e ∈ before, ¬ e.Cancels t f a := fun e he ↦
    free e (hs.subset he) (lacks (hd.of_map _) he)
  have free'' : ∀ e ∈ before', ¬ e.Cancels t f a := fun e he ↦
    free e (hp.mem_iff.mpr (hs'.subset he)) (lacks (hdo.of_map _) he)
  rw [pair_sublist_iff_mem (hd.of_map _), pair_sublist_iff_mem (hdo.of_map _),
    ← mem_writersOf_iff hd hs ha hw free',
    ← mem_writersOf_iff hdo hs' (hp.mem_iff.mp ha) hw free'',
    writersOf_eq_of_agree hd hf hp h hk hm]

end Chain

end ChainPlan
