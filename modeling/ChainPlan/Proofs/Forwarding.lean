import ChainPlan.Proofs.Copies

/-! # Forwarding

An element stops messages if it drops or blocks. It blocks if it sends no alias of the message at
all, and drops if it answers with an error. So a handler that sends no alias on is seen to stop the
message unless it sends one back: a send counts as passing the message on in either direction, and
also if its message is no alias but only reads like one.
-/

namespace ChainPlan

namespace Block

/-- A handler ends the way of a message with an error: it sends one back, or one in any direction
inside an arm of a match. -/
def AnswersError (t : Traffic) (b : Block) : Prop :=
  (∃ s ∈ b.sends, s.2 = t.forward.reverse ∧ s.1.flatName = errorName) ∨
    ∃ s ∈ b.innerSends, s.1.isError = true

theorem mayDrop_iff {t : Traffic} {b : Block} :
    b.mayDrop [errorName] t.forward.reverse = true ↔ b.AnswersError t := by
  simp [mayDrop, AnswersError]

/-- A handler that is not made of placeholders alone stops messages exactly if it sends nothing that
reads like an alias, or answers with an error. -/
theorem Analysed.stops_iff {element : String} {t : Traffic} {options : AnalysisOptions} {b : Block}
    {aliases : Aliases} {effects : PathEffects} (h : b.Analysed element t options aliases effects)
    (active : b.all Stmt.isPlaceholder = false) :
    effects.stops = true ↔
      (∀ s ∈ b.sends, s.1.flatName ∉ aliases.names) ∨ b.AnswersError t := by
  have silent : b.sendCount aliases.names = 0 ↔ ∀ s ∈ b.sends, s.1.flatName ∉ aliases.names := by
    rw [← Nat.le_zero, ← Nat.not_lt, sendCount_pos_iff]
    simp
  rw [PathEffects.stops, h.drop, h.block, active, Bool.or_eq_true, mayDrop_iff, ← silent, or_comm]
  simp

end Block

theorem Direction.eq_or_eq_reverse (d e : Direction) : e = d ∨ e = d.reverse := by
  cases d <;> cases e <;> simp [reverse]

/-- An active handler that sends no alias on is seen to stop messages exactly if it answers with an
error, or sends neither an alias back nor anything else that reads like one. -/
theorem Program.stops_iff_of_not_forwarding {p : Program} {options : AnalysisOptions}
    {profile : Profile} {t : Traffic} {aliases : Aliases}
    (h : p.profile options = .ok profile)
    (active : (p.handler t).all Stmt.isPlaceholder = false)
    (found : Aliases.ofBlock options.message (p.handler t) = .ok aliases)
    (still : ∀ name ∈ aliases.names, (.ident name, t.forward) ∉ (p.handler t).sends) :
    (profile.effects.on t).stops = true ↔
      (∀ s ∈ (p.handler t).sends, s.2 = t.forward.reverse ∨ s.1.ident? = none →
        s.1.flatName ∉ aliases.names) ∨ (p.handler t).AnswersError t := by
  obtain ⟨others, analysed⟩ := Block.exists_analysed (Program.effects_of_profile h t)
  obtain rfl : others = aliases := Except.ok.inj (analysed.found.symm.trans found)
  rw [analysed.stops_iff active]
  refine or_congr_left ⟨fun silent s hs _ ↦ silent s hs, fun silent s hs ↦ ?_⟩
  rcases Direction.eq_or_eq_reverse t.forward s.2 with onward | back
  · -- A variable that is sent on is no alias, and anything else is not told apart from one by name.
    obtain ⟨message, direction⟩ := s
    obtain rfl : direction = t.forward := onward
    cases message with
    | ident name => exact fun hn ↦ still name hn hs
    | literal | binary | call | invoke | error => exact silent _ hs (.inr rfl)
  · exact silent s hs (.inl back)

/-- A handler that answers every request itself, some with an error, is seen to stop them. -/
theorem Program.stops_iff_of_not_forwarding_answered :
    let hit : Arm := (.literal (.flag true), [.send (.ident "rpc") .up])
    let miss : Arm := (.ident "other", [.send (.error (.literal (.text "miss"))) .up])
    let p : Program := ⟨"cache", [], [], [.choose (.call "hit" []) [hit, miss]], []⟩
    ∃ profile aliases, p.profile .standard = .ok profile ∧
      (p.handler .request).all Stmt.isPlaceholder = false ∧
      Aliases.ofBlock "rpc" (p.handler .request) = .ok aliases ∧
      (∀ name ∈ aliases.names, (.ident name, Direction.down) ∉ (p.handler .request).sends) ∧
      (profile.effects.on .request).stops = true := by
  intro hit miss p
  let effects := { PathEffects.none with drop := true }
  have h : p.profile .standard = .ok ⟨.stateless, ⟨effects, .none⟩⟩ := by decide +kernel
  have found : Aliases.ofBlock "rpc" (p.handler .request) = .ok (.ofMessage "rpc") := by decide
  have sends : (p.handler .request).sends =
      [(.ident "rpc", .up), (.error (.literal (.text "miss")), .up)] := rfl
  have still : ∀ name ∈ (Aliases.ofMessage "rpc").names,
      (.ident name, Direction.down) ∉ (p.handler .request).sends := by
    intro name _ hs
    simp [sends] at hs
  have answers : (p.handler .request).AnswersError .request :=
    .inl ⟨(.error (.literal (.text "miss")), .up), by simp [sends], rfl, rfl⟩
  exact ⟨_, _, h, rfl, found, still,
    (Program.stops_iff_of_not_forwarding h rfl found still).mpr (.inr answers)⟩

/-- A handler that sends every request back as it is is not seen to stop any. -/
theorem Program.bounced_without_stopping :
    let p : Program := ⟨"bounce", [], [], [.send (.ident "rpc") .up], []⟩
    (p.handler .request).all Stmt.isPlaceholder = false ∧
      (∀ name, (.ident name, Direction.down) ∉ (p.handler .request).sends) ∧
      ∃ profile, p.profile .standard = .ok profile ∧
        (profile.effects.on .request).stops = false := by
  intro p
  have h : p.profile .standard = .ok ⟨.stateless, ⟨.none, .none⟩⟩ := by decide +kernel
  refine ⟨rfl, fun name hs ↦ ?_, _, h, rfl⟩
  cases List.mem_singleton.mp hs

end ChainPlan
