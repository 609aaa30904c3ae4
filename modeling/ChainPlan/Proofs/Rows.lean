import ChainPlan.Proofs.Dependencies

/-! # Rows of a lineage

A lineage has a row for every field that an identity reads or records and for every known field that
the output reads, and no others. A row lists the input and then writers of the field that stand in
front of the last element of the identity that accesses it, in the order of the chain. Partners take
some of them out; without partners the row lists them all.
-/

namespace ChainPlan

/-! ### Writers -/

namespace Element

variable (e : Element) (ws : List Writer)

/-- No write takes out the input. -/
theorem credit_input_cons : e.credit (.input :: ws) = .input :: e.credit ws := by
  unfold credit
  split
  · next p _ =>
    by_cases h : Writer.element p ∈ ws <;> simp [h]
  · rfl

/-- A write lists no other writer than the element, and keeps the order of those that were there. -/
theorem credit_sublist : (e.credit ws).Sublist (ws ++ [.element e.identity]) := by
  unfold credit
  split
  · split
    · exact List.erase_sublist.trans (List.sublist_append_left _ _)
    · exact .refl _
  · exact .refl _

end Element

namespace Chain

variable {chain part : Chain} {t : Traffic} {a : Access} {f : Field} {r : Reader}

/-- The writers behind a part of a chain are the input and some of the elements that write there, in
their order. -/
theorem exists_writersOf_eq (known : List Field) (t : Traffic) (f : Field) (part : Chain) :
    ∃ shown, part.writersOf known t f = .input :: shown ∧
      shown.Sublist ((part.writing known t f).map fun e ↦ .element e.identity) := by
  induction part using List.reverseRecOn with
  | nil => exact ⟨[], rfl, .slnil⟩
  | append_singleton part e ih =>
    obtain ⟨shown, hw, hs⟩ := ih
    rw [writersOf_concat, hw, writing, List.filter_append, ← writing]
    by_cases hf : f ∈ e.accessed known t .write
    · refine ⟨e.credit shown, by rw [if_pos hf, Element.credit_input_cons], ?_⟩
      have := (e.credit_sublist shown).trans (hs.append_right [.element e.identity])
      simpa [hf] using this
    · refine ⟨shown, if_neg hf, ?_⟩
      simpa [hf] using hs

/-! ### Readers -/

/-- A part of a chain is what a reader has in front of it as it accesses a field for the last time:
an identity with its last element that does so, or the output behind the chain. -/
inductive InView (chain : Chain) (t : Traffic) (a : Access) (f : Field) :
    Reader → Chain → Prop where
  | element {before rest : Chain} {e : Element} (split : chain = before ++ e :: rest)
      (accesses : f ∈ e.accessed (chain.knownFields t) t a)
      (last : ∀ d ∈ rest, d.identity = e.identity → f ∉ d.accessed (chain.knownFields t) t a) :
      InView chain t a f (.element e.identity) before
  | output (reads : a = .read) (known : f ∈ chain.knownFields t) : InView chain t a f .output chain

/-- A reader observes the writers behind what it has in front of it. -/
theorem InView.observes (h : chain.InView t a f r part) (ha : a ≠ .write)
    (hd : chain.HasDistinctFields t) :
    chain.observes t a r f = some (part.writersOf (chain.knownFields t) t f) := by
  cases h with
  | element split accesses last =>
    subst split
    exact observes_of_last ha hd accesses last
  | output reads known =>
    subst reads
    rw [observes_output hd, if_pos known]

theorem InView.subset (h : chain.InView t a f r part) : part ⊆ chain := by
  cases h with
  | element split _ _ =>
    subst split
    exact List.subset_append_left _ _
  | output _ _ => exact List.Subset.refl _

private theorem exists_last {α : Type} {p : α → Prop} {xs : List α} (h : ∃ x ∈ xs, p x) :
    ∃ before x rest, xs = before ++ x :: rest ∧ p x ∧ ∀ y ∈ rest, ¬ p y := by
  induction xs with
  | nil => simp at h
  | cons x xs ih =>
    by_cases hx : ∃ y ∈ xs, p y
    · obtain ⟨before, y, rest, rfl, hy, hr⟩ := ih hx
      exact ⟨x :: before, y, rest, rfl, hy, hr⟩
    · refine ⟨[], x, xs, rfl, ?_, fun y hy hp ↦ hx ⟨y, hy, hp⟩⟩
      rcases (List.exists_mem_cons_iff _ _ _).mp h with hp | hp
      · exact hp
      · exact absurd hp hx

/-- The readers of a field are the output, if the field is known, and the identities of the elements
that read it; only elements record. -/
theorem exists_inView_iff :
    (∃ before, chain.InView t a f r before) ↔
      (a = .read ∧ f ∈ chain.knownFields t ∧ r = .output) ∨
        ∃ e ∈ chain, f ∈ e.accessed (chain.knownFields t) t a ∧ r = .element e.identity := by
  constructor
  · rintro ⟨before, h⟩
    cases h with
    | element split accesses _ =>
      subst split
      exact .inr ⟨_, by simp, accesses, rfl⟩
    | output reads known => exact .inl ⟨reads, known, rfl⟩
  · rintro (⟨reads, known, rfl⟩ | ⟨e, he, hf, rfl⟩)
    · exact ⟨chain, .output reads known⟩
    · obtain ⟨before, d, rest, split, ⟨hi, hd⟩, last⟩ :=
        exists_last (p := fun d ↦ d.identity = e.identity ∧
          f ∈ d.accessed (chain.knownFields t) t a) ⟨e, he, rfl, hf⟩
      rw [← hi]
      exact ⟨before, .element split hd fun c hc hic hm ↦ last c hc ⟨hic.trans hi, hm⟩⟩

/-- A reader that has no part of the chain in view observes nothing. -/
theorem observes_of_not_inView (ha : a ≠ .write) (hd : chain.HasDistinctFields t)
    (h : ¬ ∃ before, chain.InView t a f r before) : chain.observes t a r f = none := by
  rw [exists_inView_iff, not_or] at h
  cases r with
  | element identity =>
    exact observes_of_forall_not_mem fun e he hi hf ↦ h.2 ⟨e, he, hf, by rw [hi]⟩
  | output =>
    cases a with
    | read => rw [observes_output hd, if_neg fun hf ↦ h.1 ⟨rfl, hf, rfl⟩]
    | write => exact absurd rfl ha
    | record => exact observes_record_output chain t f

/-- A reader observes the writers behind the part that it has in view, and nothing else. -/
theorem observes_eq_some_iff (ha : a ≠ .write) (hd : chain.HasDistinctFields t)
    {ws : List Writer} :
    chain.observes t a r f = some ws ↔
      ∃ before, chain.InView t a f r before ∧
        ws = before.writersOf (chain.knownFields t) t f := by
  constructor
  · intro ho
    by_cases h : ∃ before, chain.InView t a f r before
    · obtain ⟨before, hv⟩ := h
      rw [hv.observes ha hd] at ho
      exact ⟨before, hv, (Option.some.inj ho).symm⟩
    · rw [observes_of_not_inView ha hd h] at ho
      cases ho
  · rintro ⟨before, hv, rfl⟩
    exact hv.observes ha hd

end Chain

/-! ### Tables -/

namespace Lineage

variable {chain : Chain} {t : Traffic} {a : Access} {f : Field} {r : Reader}

theorem nodup_keys_tableOf (chain : Chain) (t : Traffic) (a : Access) :
    ((trace chain t).tableOf a).keys.Nodup := by
  cases a with
  | read => exact (LineageIndex.trace_indexes chain t).1.2.2
  | write => exact List.nodup_nil
  | record => exact (LineageIndex.trace_indexes chain t).2.2.2

/-- The tables have a row for every field of every reader. -/
theorem mem_keys_tableOf_iff (ha : a ≠ .write) (hd : chain.HasDistinctFields t) :
    (r, f) ∈ ((trace chain t).tableOf a).keys ↔
      (a = .read ∧ f ∈ chain.knownFields t ∧ r = .output) ∨
        ∃ e ∈ chain, f ∈ e.accessed (chain.knownFields t) t a ∧ r = .element e.identity := by
  rw [OrderedMap.mem_keys_iff (nodup_keys_tableOf chain t a), ← Chain.exists_inView_iff]
  change (∃ ws, chain.observes t a r f = some ws) ↔ _
  simp only [Chain.observes_eq_some_iff ha hd]
  constructor
  · rintro ⟨ws, before, hv, -⟩
    exact ⟨before, hv⟩
  · rintro ⟨before, hv⟩
    exact ⟨_, before, hv, rfl⟩

/-- A row lists the writers behind the part that its reader has in view. -/
theorem exists_inView_of_mem_entries {ws : List Writer} (hd : chain.HasDistinctFields t)
    (h : ((r, f), ws) ∈ ((trace chain t).tableOf a).entries) :
    ∃ before, chain.InView t a f r before ∧
      ws = before.writersOf (chain.knownFields t) t f := by
  have ha : a ≠ .write := by
    rintro rfl
    cases h
  rw [OrderedMap.mem_entries_iff (nodup_keys_tableOf chain t a)] at h
  exact (Chain.observes_eq_some_iff ha hd).mp h

/-- A lineage that is built has a row for the output on every field known to the chain and for each
identity on every field that one of its elements reads, and records only of the latter kind. The
known fields are the trace fields and those that some set lists. Each row lists the input and then,
in the order of the chain, identities of elements that write the field in front of the last element
of the reader that accesses it; if no element has a partner, those of all of them. -/
theorem rows_of_ofChain {lineage : Lineage} (h : ofChain chain t = .ok lineage) :
    let known := chain.knownFields t
    (∀ f, f ∈ known ↔
        f ∈ Field.traces ∨ ∃ e ∈ chain, ∃ a, f ∈ ((e.on t).fieldsOf a).fields) ∧
      (∀ r f, (r, f) ∈ lineage.read.keys ↔ (f ∈ known ∧ r = .output) ∨
        ∃ e ∈ chain, f ∈ e.accessed known t .read ∧ r = .element e.identity) ∧
      (∀ r f, (r, f) ∈ lineage.record.keys ↔
        ∃ e ∈ chain, f ∈ e.accessed known t .record ∧ r = .element e.identity) ∧
      ∀ a r f ws, ((r, f), ws) ∈ (lineage.tableOf a).entries →
        ∃ before shown, chain.InView t a f r before ∧ ws = .input :: shown ∧
          shown.Sublist ((before.writing known t f).map fun e ↦ .element e.identity) ∧
          ((∀ e ∈ chain, e.partner = none) →
            shown = (before.writing known t f).map fun e ↦ .element e.identity) := by
  intro known
  obtain ⟨hd, rfl⟩ := ofChain_eq_ok_iff.mp h
  refine ⟨fun f ↦ ?_, fun r f ↦ ?_, fun r f ↦ ?_, fun a r f ws hm ↦ ?_⟩
  · simp only [known, Chain.mem_knownFields, PathEffects.mem_listedFields]
  · refine (mem_keys_tableOf_iff (a := .read) (by simp) hd).trans ?_
    simp [known]
  · refine (mem_keys_tableOf_iff (a := .record) (by simp) hd).trans ?_
    simp [known]
  · obtain ⟨before, hv, rfl⟩ := exists_inView_of_mem_entries hd hm
    obtain ⟨shown, hw, hs⟩ := Chain.exists_writersOf_eq known t f before
    refine ⟨before, shown, hv, hw, hs, fun unpaired ↦ ?_⟩
    have hu : ∀ e ∈ before, e.partner = none := fun e he ↦ unpaired e (hv.subset he)
    rw [Chain.writersOf_of_unpaired hu] at hw
    exact (List.cons.inj hw).2.symm

/-- An auditor that stands twice in a chain has one row for the body, that of the second one, which
lists one of the three writers in front of it. -/
theorem rows_of_ofChain_audited :
    let encode := Element.onRequests "encode" { PathEffects.none with write := .only ["body"] }
    let decode := { encode with names := ["decode"], partner := some "encode" }
    let audit := Element.onRequests "audit" { PathEffects.none with read := .all }
    let tag := Element.onRequests "tag"
      { PathEffects.none with write := .all, record := .only ["user"] }
    let chain : Chain := [encode, audit, decode, tag, audit]
    let lineage := trace chain .request
    ofChain chain .request = .ok lineage ∧ "user" ∈ chain.knownFields .request ∧
      (.element "audit", "user") ∈ lineage.read.keys ∧
      (.element "tag", "body") ∉ lineage.record.keys ∧
      ((.element "audit", "body"), [.input, .element "tag"]) ∈ lineage.read.entries ∧
      ∃ before, chain.InView .request .read "body" (.element "audit") before ∧
        [Writer.element "tag"].Sublist ((before.writing (chain.knownFields .request) .request
          "body").map fun e ↦ .element e.identity) := by
  intro encode decode audit tag chain lineage
  have h : ofChain chain .request = .ok lineage := by decide +kernel
  have hm : ((.element "audit", "body"), [.input, .element "tag"]) ∈ lineage.read.entries := by
    decide +kernel
  obtain ⟨known, reads, records, rows⟩ := rows_of_ofChain h
  obtain ⟨before, shown, hv, hw, hs, -⟩ := rows .read _ _ _ hm
  obtain rfl := (List.cons.inj hw).2
  refine ⟨h, (known _).mpr (.inr ⟨tag, by decide, .record, by decide⟩), ?_, ?_, hm, before, hv, hs⟩
  · exact (reads _ _).mpr (.inr ⟨audit, by decide, by decide +kernel, rfl⟩)
  · rw [records]
    decide +kernel

end Lineage

end ChainPlan
