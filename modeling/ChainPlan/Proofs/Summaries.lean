import ChainPlan.Handler.Summary
import ChainPlan.Proofs.Outcomes

/-! # Summaries of handlers

A handler has effects only if each of its analyses succeeds, and then its effects say what they have
found. A handler of placeholders alone has nothing in it that they could find; it differs from an
analysed one only in that it does not block.
-/

namespace ChainPlan

namespace Block

/-- The analyses of a handler succeed, and its effects are what they find. -/
structure Analysed (element : String) (t : Traffic) (options : AnalysisOptions) (b : Block)
    (aliases : Aliases) (effects : PathEffects) : Prop where
  found : Aliases.ofBlock options.message b = .ok aliases
  reads : ∃ reads, readScan aliases.names b.exprs = ⟨reads, none⟩ ∧
    collectFields "read" (allReadFields aliases.names reads) =
      .ok (if options.isRecorder element then effects.record else effects.read)
  unread : (if options.isRecorder element then effects.read else effects.record) = .empty
  writes : ∃ writes, writeScan aliases.names aliases.renames b.exprs = ⟨writes, none⟩ ∧
    collectFields "write" (allWrittenFields aliases.names writes) = .ok effects.write
  drop : effects.drop = b.mayDrop [errorName] t.forward.reverse
  block : effects.block = (!b.all Stmt.isPlaceholder && b.sendCount aliases.names == 0)
  copy : effects.copy = decide (0 < b.sendCount aliases.derived)
  probabilistic : effects.probabilistic = (effects.drop && b.drawsRandom options)

variable {element : String} {t : Traffic} {options : AnalysisOptions} {b : Block}
  {effects : PathEffects}

theorem eq_nil_of_all_isPlaceholder (h : b.all Stmt.isPlaceholder = true) :
    b.exprs = [] ∧ b.assigns = [] ∧ b.sends = [] ∧ b.innerSends = [] := by
  have hs : ∀ s ∈ b, s.isPlaceholder = true := List.all_eq_true.mp h
  rw [exprs_eq_flatMap, assigns_eq_flatMap, sends_eq_flatMap, innerSends]
  simp only [List.flatMap_eq_nil_iff]
  refine ⟨fun s hm ↦ ?_, fun s hm ↦ ?_, fun s hm ↦ ?_, fun s hm ↦ ?_⟩
  all_goals
    have hp := hs s hm
    cases s <;> first | rfl | cases hp

theorem analysed_of_all_isPlaceholder (h : b.all Stmt.isPlaceholder = true) :
    b.Analysed element t options (.ofMessage options.message) .none := by
  obtain ⟨he, ha, hs, hi⟩ := eq_nil_of_all_isPlaceholder h
  refine ⟨?_, ⟨[], ?_, ?_⟩, ?_, ⟨[], ?_, ?_⟩, ?_, ?_, ?_, ?_⟩
  · rw [Aliases.ofBlock, ha]
    rfl
  · rw [he]
    rfl
  · split <;> rfl
  · split <;> rfl
  · rw [he]
    rfl
  · rfl
  · rw [mayDrop, hs, hi]
    rfl
  · rw [h]
    rfl
  · rw [sendCount, hs]
    rfl
  · rfl

theorem exists_of_toExcept {α : Type} {scan : Scan α} {found : List α}
    (h : scan.toExcept = .ok found) : scan = ⟨found, none⟩ := by
  obtain ⟨found', problem⟩ := scan
  cases problem with
  | some problem => cases h
  | none => exact congrArg (Scan.mk · none) (Except.ok.inj h)

theorem exists_analysed (h : b.effects element t options = .ok effects) :
    ∃ aliases, b.Analysed element t options aliases effects := by
  rw [Block.effects] at h
  split at h
  · next hp =>
    cases h
    exact ⟨_, analysed_of_all_isPlaceholder hp⟩
  · next hp =>
    rw [activeEffects] at h
    obtain ⟨aliases, ha, h⟩ := exists_of_bind_eq_ok h
    obtain ⟨reads, hr, h⟩ := exists_of_bind_eq_ok h
    obtain ⟨writes, hw, h⟩ := exists_of_bind_eq_ok h
    obtain ⟨read, hread, h⟩ := exists_of_bind_eq_ok h
    obtain ⟨write, hwrite, h⟩ := exists_of_bind_eq_ok h
    cases h
    refine ⟨aliases, ha, ⟨reads, exists_of_toExcept hr, ?_⟩, ?_,
      ⟨writes, exists_of_toExcept hw, hwrite⟩, rfl, ?_, rfl, rfl⟩
    · rw [hread]
      cases options.isRecorder element <;> rfl
    · cases options.isRecorder element <;> rfl
    · simp [hp]

end Block

theorem Program.exists_effectsOn {p : Program} {options : AnalysisOptions} {t : Traffic}
    {effects : PathEffects} (h : p.effectsOn options t = .ok effects) :
    (p.handler t).effects p.name t options = .ok effects := by
  rw [effectsOn] at h
  split at h
  · next he => exact he.trans (congrArg _ (Except.ok.inj h))
  · cases h

/-- A profile is made of what is found of the state and of either handler. -/
theorem Program.parts_of_profile {p : Program} {options : AnalysisOptions} {profile : Profile}
    (h : p.profile options = .ok profile) :
    p.stateNeeds = .ok profile.state ∧
      ∀ t, p.effectsOn options t = .ok (profile.effects.on t) := by
  rw [Program.profile] at h
  cases hs : p.stateNeeds with
  | error problem =>
    rw [hs] at h
    cases h
  | ok state =>
    rw [hs] at h
    obtain ⟨_, kept, h⟩ := exists_of_bind_eq_ok h
    obtain ⟨request, hq, h⟩ := exists_of_bind_eq_ok h
    obtain ⟨response, hr, h⟩ := exists_of_bind_eq_ok h
    cases h
    refine ⟨congrArg Except.ok (Except.ok.inj kept), fun t ↦ ?_⟩
    cases t with
    | request => exact hq
    | response => exact hr

/-- The effects of a profile are those of the handlers. -/
theorem Program.effects_of_profile {p : Program} {options : AnalysisOptions} {profile : Profile}
    (h : p.profile options = .ok profile) (t : Traffic) :
    (p.handler t).effects p.name t options = .ok (profile.effects.on t) :=
  exists_effectsOn ((parts_of_profile h).2 t)

end ChainPlan
