import ChainPlan.Proofs.LocalSearch
import ChainPlan.Proofs.Visibility

/-! # Telemetry under the local search

An element that records anything records every trace field, and an element that drops, blocks or
copies writes one. So at the strong level the search moves neither past the other, as long as no
partner takes the entry in the trace field out again: two partners that both drop leave no trace of
either, and then both may pass the recording element.
-/

namespace ChainPlan

namespace Chain

variable {chain out : Chain} {t : Traffic} {maxMoves : Nat}

/-- The search at the strong level leaves an element that drops, blocks or copies on its side of an
element that records, if some trace of what it does is one that no partner takes out. -/
theorem reorder_strong_keeps_side (hd : (chain.map Element.identity).Nodup)
    (h : chain.reorder t .strong maxMoves = .ok out) {d l : Element} (hm : d ∈ chain)
    (hl : l ∈ chain) (records : (l.on t).record.isEmpty = false)
    (free : ∃ f ∈ (d.on t).marks, ∀ e ∈ chain, e ≠ l →
      ¬ (e.withTraces t).Cancels t f (d.withTraces t)) :
    [d, l].Sublist chain ↔ [d.withTraces t, l.withTraces t].Sublist out := by
  obtain ⟨hc, hr⟩ := reaches_of_reorder h
  obtain ⟨f, hf, free⟩ := free
  have hd' : ((chain.withTraces t).map Element.identity).Nodup := by
    rwa [map_identity_withTraces]
  have traced : f ∈ Field.traces := PathEffects.mem_traces_of_mem_marks hf
  have known : f ∈ (chain.withTraces t).knownFields t := mem_knownFields.mpr (.inl traced)
  have writes : f ∈ (d.withTraces t).accessed ((chain.withTraces t).knownFields t) t .write :=
    Element.mem_accessed_withTraces known hf
  have observes : f ∈ (l.withTraces t).accessed ((chain.withTraces t).knownFields t) t .record := by
    rw [Element.accessed, FieldSet.mem_expand known, Element.on_withTraces]
    exact PathEffects.contains_tracedRecord records traced
  have free' : ∀ e ∈ chain.withTraces t, e ≠ l.withTraces t →
      ¬ e.Cancels t f (d.withTraces t) := by
    intro e he hn
    obtain ⟨c, hc, rfl⟩ := List.mem_map.mp he
    exact free c hc fun hcl ↦ hn (hcl ▸ rfl)
  have ht : (chain.map (Element.withTraces t)).Nodup := hd'.of_map _
  rw [← pair_sublist_map_iff ht hm hl]
  exact pair_sublist_iff_of_agree hd' (hc (by decide)) hr.perm hr.agree
    (by simp [Level.compared]) (List.mem_map_of_mem hm) (List.mem_map_of_mem hl) writes observes
    free'

/-- A partner that takes back something else does not hide what an element drops. -/
theorem reorder_strong_keeps_side_partnered :
    let log := Element.onRequests "log" { PathEffects.none with record := .only ["user"] }
    let tag := Element.onRequests "tag" { PathEffects.none with write := .only ["key"] }
    let acl := { Element.onRequests "acl" { PathEffects.none with drop := true } with
      partner := some "tag" }
    Chain.reorder [log, tag, acl] .request .strong 9 =
        .ok (Chain.withTraces .request [log, acl, tag]) ∧
      ([acl, log].Sublist [log, tag, acl] ↔
        [acl.withTraces .request, log.withTraces .request].Sublist
          (Chain.withTraces .request [log, acl, tag])) := by
  intro log tag acl
  have h : Chain.reorder [log, tag, acl] .request .strong 9 =
      .ok (Chain.withTraces .request [log, acl, tag]) := by
    rw [reorder, reorderCounted, Criterion.indexed_eq]
    decide +kernel
  exact ⟨h, reorder_strong_keeps_side (by decide +kernel) h (by decide) (by decide) (by decide)
    ⟨Field.dropTrace, by decide +kernel, by decide +kernel⟩⟩

/-- Two partners that both drop pass an element that records. -/
theorem reorder_strong_moves_cancelled :
    let log := Element.onRequests "log" { PathEffects.none with record := .only ["user"] }
    let limit := Element.onRequests "limit" { PathEffects.none with drop := true }
    let retry := { Element.onRequests "retry" { PathEffects.none with drop := true } with
      partner := some "limit" }
    let chain : Chain := [log, limit, retry]
    let out : Chain := Chain.withTraces .request [limit, retry, log]
    chain.isPlaced = true ∧ (chain.map Element.identity).Nodup ∧
      chain.reorder .request .strong 9 = .ok out ∧
      (log.on .request).record.isEmpty = false ∧ (retry.on .request).drop = true ∧
      ¬ ([retry, log].Sublist chain ↔
        [retry.withTraces .request, log.withTraces .request].Sublist out) := by
  intro log limit retry chain out
  have h : chain.reorder .request .strong 9 = .ok out := by
    rw [reorder, reorderCounted, Criterion.indexed_eq]
    decide +kernel
  exact ⟨by decide, by decide +kernel, h, by decide, rfl, by decide +kernel⟩

end Chain

end ChainPlan
