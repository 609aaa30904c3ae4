import ChainPlan.Proofs.Visibility

/-! # Partners

A write of an element whose partner is among the writers of the field takes out the oldest entry of
the partner, whatever has been written since, and leaves no entry of its own. The other entries stay
in their order. So behind a pair the writers are those of the chain without it, as if those that
write between the two had never met the value of the first.
-/

namespace ChainPlan

/-! ### One write -/

namespace Element

variable {e : Element} {ws : List Writer}

/-- A write takes out the oldest entry of the partner of its element. -/
theorem exists_credit_of_mem {p : String} (hp : e.partner = some p) (hm : .element p ∈ ws) :
    ∃ older newer, ws = older ++ .element p :: newer ∧ .element p ∉ older ∧
      e.credit ws = older ++ newer := by
  obtain ⟨older, newer, hn, hs, he⟩ := List.exists_erase_eq hm
  refine ⟨older, newer, hs, hn, ?_⟩
  simp only [credit, hp, if_pos hm, he]

/-- A write treats the entries around one that it does not take out as it would without that one. -/
theorem exists_credit_around {w : Writer} (h : ∀ p, e.partner = some p → w ≠ .element p)
    (older newer : List Writer) :
    ∃ older' newer', e.credit (older ++ w :: newer) = older' ++ w :: newer' ∧
      e.credit (older ++ newer) = older' ++ newer' ∧ older' ⊆ older := by
  have joins (hn : ∀ p, e.partner = some p → Writer.element p ∉ older ++ newer) :
      ∃ older' newer', e.credit (older ++ w :: newer) = older' ++ w :: newer' ∧
        e.credit (older ++ newer) = older' ++ newer' ∧ older' ⊆ older := by
    refine ⟨older, newer ++ [.element e.identity], ?_, ?_, List.Subset.refl _⟩
    · have hw : ∀ p, e.partner = some p → Writer.element p ∉ older ++ w :: newer := by
        intro p hp hm
        have := hn p hp
        have := h p hp
        simp_all
      rw [credit_of_not_mem hw]
      simp
    · rw [credit_of_not_mem hn, List.append_assoc]
  cases hp : e.partner with
  | none => exact joins (by simp [hp])
  | some p =>
    have hw := h p hp
    by_cases ho : Writer.element p ∈ older
    · refine ⟨older.erase (.element p), newer, ?_, ?_, List.erase_subset⟩
      · simp [credit, hp, ho, List.erase_append_left]
      · simp [credit, hp, ho, List.erase_append_left]
    · by_cases hn : Writer.element p ∈ newer
      · refine ⟨older, newer.erase (.element p), ?_, ?_, List.Subset.refl _⟩
        · simp [credit, hp, ho, hn, List.erase_append_right, hw]
        · simp [credit, hp, ho, hn, List.erase_append_right]
      · refine joins fun q hq ↦ ?_
        obtain rfl := Option.some.inj (hp.symm.trans hq)
        simp [ho, hn]

end Element

/-! ### Pairs -/

namespace Chain

variable {known : List Field} {t : Traffic} {f : Field} {front mid : Chain} {a e : Element}

/-- An entry that nobody takes out stays among the others, which come and go as they would without
it. -/
theorem exists_writersOf_around (ha : f ∈ a.accessed known t .write)
    (joins : ∀ p, a.partner = some p → .element p ∉ front.writersOf known t f)
    (fresh : .element a.identity ∉ front.writersOf known t f)
    (stays : ∀ d ∈ mid, d.partner ≠ some a.identity) :
    ∃ older newer,
      (front ++ a :: mid).writersOf known t f = older ++ .element a.identity :: newer ∧
        (front ++ mid).writersOf known t f = older ++ newer ∧ .element a.identity ∉ older := by
  induction mid using List.reverseRecOn with
  | nil =>
    refine ⟨front.writersOf known t f, [], ?_, by simp, fresh⟩
    rw [writersOf_concat, if_pos ha, Element.credit_of_not_mem joins]
  | append_singleton mid d ih =>
    obtain ⟨older, newer, hw, ho, hn⟩ := ih fun c hc ↦ stays c (List.mem_append_left _ hc)
    rw [← List.cons_append, ← List.append_assoc, ← List.append_assoc, writersOf_concat,
      writersOf_concat, hw, ho]
    split
    · -- whatever the element in between takes out, it is not the entry at hand
      have other : ∀ p, d.partner = some p → Writer.element a.identity ≠ .element p := by
        intro p hp hq
        exact stays d (by simp) (by rw [hp, Writer.element.inj hq])
      obtain ⟨older', newer', hw', ho', hs⟩ := Element.exists_credit_around other older newer
      exact ⟨older', newer', hw', ho', fun hm ↦ hn (hs hm)⟩
    · exact ⟨older, newer, rfl, rfl, hn⟩

/-- Behind a pair, the writers are those of the chain without it. -/
theorem writersOf_pair (ha : f ∈ a.accessed known t .write) (he : f ∈ e.accessed known t .write)
    (hp : e.partner = some a.identity)
    (joins : ∀ p, a.partner = some p → .element p ∉ front.writersOf known t f)
    (fresh : .element a.identity ∉ front.writersOf known t f)
    (stays : ∀ d ∈ mid, d.partner ≠ some a.identity) :
    (front ++ a :: mid ++ [e]).writersOf known t f = (front ++ mid).writersOf known t f := by
  obtain ⟨older, newer, hw, ho, hn⟩ := exists_writersOf_around ha joins fresh stays
  rw [writersOf_concat, if_pos he, hw, ho]
  simp [Element.credit, hp, List.erase_append_right, hn]

/-- A write takes out the oldest entry of its partner, wherever among the writers that stands, and
leaves none of its own; if the partner is not among the writers or there is none, the element joins
them at the end. So behind a pair whose first entry has been the only one of its identity, and that
no other element has taken out, the writers are those of the chain without the pair, whatever has
been written between the two. -/
theorem write_takes_out_partner {before rest : Chain}
    (hd : (before ++ e :: rest).HasDistinctFields t)
    (hf : f ∈ e.accessed ((before ++ e :: rest).knownFields t) t .write) :
    let known := (before ++ e :: rest).knownFields t
    let writers (part : Chain) := (LineageWalk.along known t part).writersOf f
    (∀ p, e.partner = some p → .element p ∈ writers before →
      ∃ older newer, writers before = older ++ .element p :: newer ∧ .element p ∉ older ∧
        writers (before ++ [e]) = older ++ newer) ∧
      ((∀ p, e.partner = some p → .element p ∉ writers before) →
        writers (before ++ [e]) = writers before ++ [.element e.identity]) ∧
      ∀ front a mid, before = front ++ a :: mid → f ∈ a.accessed known t .write →
        e.partner = some a.identity → .element a.identity ∉ writers front →
        (∀ p, a.partner = some p → .element p ∉ writers front) →
        (∀ d ∈ mid, d.partner ≠ some a.identity) →
        writers (before ++ [e]) = writers (front ++ mid) := by
  intro known writers
  have hk : f ∈ known := mem_knownFields_of_mem_accessed (by simp) hf
  have writers_eq {part : Chain} (hs : part ⊆ before ++ [e]) :
      writers part = part.writersOf known t f := by
    refine LineageWalk.writersOf_along (nodup_knownFields t _) (fun d hm ↦ hd d ?_) hk
    rcases List.mem_append.mp (hs hm) with hb | he
    · exact List.mem_append_left _ hb
    · exact List.mem_append_right _ (List.mem_cons.mpr (.inl (List.mem_singleton.mp he)))
  have after : writers (before ++ [e]) = e.credit (writers before) := by
    rw [writers_eq (List.Subset.refl _), writers_eq (List.subset_append_left _ _),
      writersOf_concat, if_pos hf]
  refine ⟨fun p hp hm ↦ ?_, fun hn ↦ ?_, ?_⟩
  · rw [after]
    exact Element.exists_credit_of_mem hp hm
  · rw [after]
    exact Element.credit_of_not_mem hn
  · rintro front a mid rfl ha hp fresh joins stays
    have hs : front ⊆ front ++ a :: mid ++ [e] := by simp
    have hm : front ++ mid ⊆ front ++ a :: mid ++ [e] :=
      (((List.sublist_cons_self a mid).append_left front).trans
        (List.sublist_append_left _ [e])).subset
    rw [writers_eq hs] at fresh joins
    rw [writers_eq (List.Subset.refl _), writers_eq hm]
    exact writersOf_pair ha hf hp joins fresh stays

/-- The tag joins the encoder, and the decoder then takes the encoder out in front of it. -/
theorem write_takes_out_partner_overwritten :
    let writes : PathEffects := { PathEffects.none with write := .only ["body"] }
    let encode := Element.onRequests "encode" writes
    let tag := Element.onRequests "tag" writes
    let decode := { Element.onRequests "decode" writes with partner := some "encode" }
    let chain : Chain := [encode, tag, decode]
    let known := chain.knownFields .request
    let writers (part : Chain) := (LineageWalk.along known .request part).writersOf "body"
    chain.HasDistinctFields .request ∧ "body" ∈ tag.accessed known .request .write ∧
      "body" ∈ decode.accessed known .request .write ∧
      writers [encode, tag] = writers [encode] ++ [.element "tag"] ∧
      (∃ older newer, writers [encode, tag] = older ++ .element "encode" :: newer ∧
        .element "encode" ∉ older ∧ writers chain = older ++ newer) ∧
      writers chain = writers [tag] := by
  intro writes encode tag decode chain known writers
  have hd : chain.HasDistinctFields .request := by decide
  have ht : "body" ∈ tag.accessed known .request .write := by decide +kernel
  have he : "body" ∈ decode.accessed known .request .write := by decide +kernel
  obtain ⟨-, joins, -⟩ := @write_takes_out_partner .request "body" tag [encode] [decode] hd ht
  obtain ⟨takes, -, pair⟩ :=
    @write_takes_out_partner .request "body" decode [encode, tag] [] hd he
  refine ⟨hd, ht, he, joins (by decide), takes "encode" rfl (by decide +kernel), ?_⟩
  exact pair [] encode [tag] rfl (by decide +kernel) rfl (by decide +kernel) (by decide) (by decide)

/-- A decoder takes the encoder out although the tag has written since, so the output shows neither
of the two; and of two entries of the encoder it is the first one that goes, not the last. -/
theorem overwritten_partner_taken_out :
    let writes : PathEffects := { PathEffects.none with write := .only ["body"] }
    let encode := Element.onRequests "encode" writes
    let tag := Element.onRequests "tag" writes
    let decode := { Element.onRequests "decode" writes with partner := some "encode" }
    let chain : Chain := [encode, tag, decode]
    let again : Chain := [encode, tag, encode, decode]
    let writers (chain part : Chain) :=
      (LineageWalk.along (chain.knownFields .request) .request part).writersOf "body"
    (chain.HasDistinctFields .request ∧
        "body" ∈ decode.accessed (chain.knownFields .request) .request .write ∧
        (writers chain [encode, tag]).getLast? ≠ some (.element "encode") ∧
        writers chain chain ≠ writers chain [encode, tag] ++ [.element "decode"] ∧
        chain.observes .request .read .output "body" = some [.input, .element "tag"]) ∧
      again.HasDistinctFields .request ∧
      "body" ∈ decode.accessed (again.knownFields .request) .request .write ∧
      (writers again [encode, tag, encode]).getLast? = some (.element "encode") ∧
      writers again again ≠ (writers again [encode, tag, encode]).dropLast := by
  decide +kernel

end Chain

end ChainPlan
