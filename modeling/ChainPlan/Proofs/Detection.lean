import ChainPlan.Handler.Summary
import ChainPlan.Proofs.Places
import ChainPlan.Proofs.Runs

/-! # Detection of drops and random draws

A handler may drop a message if it sends one of the targets in the direction of answers, or an error
in an arm of a match. Its drops are random if it calls a random source. Both are decided on lists
that are gathered from the handler, and hold exactly if the statement or the call in question stands
somewhere in it.
-/

namespace ChainPlan

/-! ### Places of statements -/

/-- A statement stands in a block, at any depth. -/
inductive Stmt.StandsIn (s : Stmt) : Block → Prop where
  | here {rest : Block} : StandsIn s (s :: rest)
  | inArm {subject pattern : Expr} {arms : List Arm} {body rest : Block}
      (ha : (pattern, body) ∈ arms) (h : StandsIn s body) :
      StandsIn s (.choose subject arms :: rest)
  | later {first : Stmt} {rest : Block} (h : StandsIn s rest) : StandsIn s (first :: rest)

/-- A statement stands in a block inside an arm of a match. -/
def Stmt.StandsInArm (s : Stmt) (b : Block) : Prop :=
  ∃ subject arms pattern body, (Stmt.choose subject arms).StandsIn b ∧ (pattern, body) ∈ arms ∧
    s.StandsIn body

mutual

private theorem Stmt.standsIn_of_mem_sends {m : Expr} {d : Direction} (rest : Block) :
    ∀ {s : Stmt}, (m, d) ∈ s.sends → (Stmt.send m d).StandsIn (s :: rest)
  | .send message direction, h => by
    cases List.mem_singleton.mp h
    exact .here
  | .choose subject arms, h => by
    obtain ⟨pattern, body, ha, hb⟩ := Stmt.exists_of_mem_armSends h
    exact .inArm ha hb

private theorem Stmt.standsIn_of_mem_blockSends {m : Expr} {d : Direction} :
    ∀ {b : List Stmt}, (m, d) ∈ Stmt.blockSends b → (Stmt.send m d).StandsIn b
  | s :: rest, h => by
    rcases List.mem_append.mp h with h | h
    · exact Stmt.standsIn_of_mem_sends rest h
    · exact .later (Stmt.standsIn_of_mem_blockSends h)

private theorem Stmt.exists_of_mem_armSends {m : Expr} {d : Direction} :
    ∀ {arms : List (Expr × List Stmt)}, (m, d) ∈ Stmt.armSends arms →
      ∃ pattern body, (pattern, body) ∈ arms ∧ (Stmt.send m d).StandsIn body
  | (pattern, body) :: rest, h => by
    rcases List.mem_append.mp h with h | h
    · exact ⟨pattern, body, .head _, Stmt.standsIn_of_mem_blockSends h⟩
    · obtain ⟨pattern, body, ha, hb⟩ := Stmt.exists_of_mem_armSends h
      exact ⟨pattern, body, .tail _ ha, hb⟩

end

theorem Stmt.StandsIn.of_mem {s : Stmt} {b : Block} (h : s ∈ b) : s.StandsIn b := by
  induction b with
  | nil => cases h
  | cons first rest ih =>
    rcases List.mem_cons.mp h with rfl | h
    · exact .here
    · exact .later (ih h)

theorem Stmt.StandsInArm.standsIn {s : Stmt} {b : Block} (h : s.StandsInArm b) : s.StandsIn b := by
  obtain ⟨subject, arms, pattern, body, hm, ha, hs⟩ := h
  induction hm with
  | here => exact .inArm ha hs
  | inArm hb _ ih => exact .inArm hb ih
  | later _ ih => exact .later ih

namespace Block

/-- The sends of a block are those that stand in it. -/
theorem mem_sends_iff {b : Block} {m : Expr} {d : Direction} :
    (m, d) ∈ b.sends ↔ (Stmt.send m d).StandsIn b := by
  refine ⟨Stmt.standsIn_of_mem_blockSends, fun h ↦ ?_⟩
  induction h with
  | here => exact List.mem_append_left _ (.head _)
  | later _ ih => exact List.mem_append_right _ ih
  | inArm ha _ ih =>
    refine List.mem_append_left _ ?_
    rw [Stmt.sends, Stmt.armSends_eq_flatMap]
    exact List.mem_flatMap.mpr ⟨_, ha, ih⟩

/-- The inner sends of a block are those that stand inside an arm of some match, at any depth. -/
theorem mem_innerSends_iff {b : Block} {m : Expr} {d : Direction} :
    (m, d) ∈ b.innerSends ↔ (Stmt.send m d).StandsInArm b := by
  constructor
  · intro h
    obtain ⟨s, hs, h⟩ := List.mem_flatMap.mp h
    cases s with
    | choose subject arms =>
      obtain ⟨pattern, body, ha, hb⟩ := Stmt.exists_of_mem_armSends h
      exact ⟨subject, arms, pattern, body, .of_mem hs, ha, hb⟩
    | start | finish | pass | assign | send | eval => cases h
  · rintro ⟨subject, arms, pattern, body, hm, ha, hs⟩
    -- The arm of an outer match has all that stands in the arms of the matches inside it.
    induction hm with
    | here =>
      refine List.mem_append_left _ ?_
      rw [Stmt.innerSends, Stmt.armSends_eq_flatMap]
      exact List.mem_flatMap.mpr ⟨_, ha, mem_sends_iff.mpr hs⟩
    | later _ ih => exact List.mem_append_right _ ih
    | inArm hb hm _ =>
      refine List.mem_append_left _ ?_
      rw [Stmt.innerSends, Stmt.armSends_eq_flatMap]
      have inner : (Stmt.send m d).StandsIn _ := Stmt.StandsInArm.standsIn ⟨_, _, _, _, hm, ha, hs⟩
      exact List.mem_flatMap.mpr ⟨_, hb, mem_sends_iff.mpr inner⟩

end Block

/-! ### Calls of functions -/

/-- A call of a function stands in an expression, at any depth. -/
def Expr.Calls (e : Expr) (name : String) : Prop :=
  ∃ args, (Expr.call name args).StandsIn (fun _ ↦ False) e

private theorem Expr.calls_of_any {es : List Expr} {name : String} :
    (∃ args, ∃ e ∈ es, (Expr.call name args).StandsIn (fun _ ↦ False) e) ↔
      ∃ e ∈ es, e.Calls name := by
  constructor
  · rintro ⟨args, e, he, h⟩
    exact ⟨e, he, args, h⟩
  · rintro ⟨e, he, args, h⟩
    exact ⟨args, e, he, h⟩

mutual

/-- The callees of an expression are the functions of the calls that stand in it. -/
theorem Expr.mem_callees_iff {name : String} : ∀ {e : Expr}, name ∈ e.callees ↔ e.Calls name
  | .ident _ => by simp [Expr.callees, Expr.Calls]
  | .literal _ => by simp [Expr.callees, Expr.Calls]
  | .binary left op right => by
    rw [Expr.callees, List.mem_append, Expr.mem_callees_iff (e := left),
      Expr.mem_callees_iff (e := right)]
    simp [Expr.Calls, exists_or]
  | .call other args => by
    rw [Expr.callees, List.mem_cons, Expr.mem_calleesOfAll_iff, ← Expr.calls_of_any]
    simp [Expr.Calls, exists_or]
  | .invoke object method args => by
    rw [Expr.callees, List.mem_append, Expr.mem_callees_iff (e := object),
      Expr.mem_calleesOfAll_iff, ← Expr.calls_of_any]
    simp [Expr.Calls, exists_or]
  | .error payload => by
    rw [Expr.callees, Expr.mem_callees_iff (e := payload)]
    simp [Expr.Calls]

/-- The callees of expressions are the functions of the calls that stand in one of them. -/
theorem Expr.mem_calleesOfAll_iff {name : String} : ∀ {es : List Expr},
    name ∈ Expr.calleesOfAll es ↔ ∃ e ∈ es, e.Calls name
  | [] => by simp [Expr.calleesOfAll]
  | e :: rest => by
    have later : name ∈ Expr.calleesOfAll rest ↔ ∃ e ∈ rest, e.Calls name :=
      Expr.mem_calleesOfAll_iff
    rw [Expr.calleesOfAll, List.mem_append, Expr.mem_callees_iff (e := e), later]
    simp

end

/-! ### What is detected -/

namespace Block

variable {b : Block} {options : AnalysisOptions} {targets : List String} {direction : Direction}

/-- A handler may drop messages exactly if it sends one of the targets in the direction, at any
depth, or an error in any direction inside an arm of a match. -/
theorem mayDrop_iff_stands : b.mayDrop targets direction = true ↔
    (∃ m, m.flatName ∈ targets ∧ (Stmt.send m direction).StandsIn b) ∨
      ∃ payload d, (Stmt.send (.error payload) d).StandsInArm b := by
  have sent : (∃ s ∈ b.sends, s.2 = direction ∧ s.1.flatName ∈ targets) ↔
      ∃ m, m.flatName ∈ targets ∧ (Stmt.send m direction).StandsIn b := by
    constructor
    · rintro ⟨⟨m, d⟩, hs, rfl, hm⟩
      exact ⟨m, hm, mem_sends_iff.mp hs⟩
    · rintro ⟨m, hm, hs⟩
      exact ⟨⟨m, direction⟩, mem_sends_iff.mpr hs, rfl, hm⟩
  have answered : (∃ s ∈ b.innerSends, s.1.isError = true) ↔
      ∃ payload d, (Stmt.send (.error payload) d).StandsInArm b := by
    constructor
    · rintro ⟨⟨m, d⟩, hs, he⟩
      cases m with
      | error payload => exact ⟨payload, d, mem_innerSends_iff.mp hs⟩
      | ident | literal | binary | call | invoke => cases he
    · rintro ⟨payload, d, hs⟩
      exact ⟨⟨.error payload, d⟩, mem_innerSends_iff.mpr hs, rfl⟩
  rw [← sent, ← answered]
  simp [mayDrop]

/-- A handler draws at random exactly if a call of one of the configured sources stands in some
expression that it evaluates. -/
theorem drawsRandom_iff_stands : b.drawsRandom options = true ↔
    ∃ name ∈ options.randomSources, ∃ args, b.Exposes (fun _ ↦ False) (.call name args) := by
  simp only [drawsRandom, List.any_eq_true, mem_exprs_iff, Expr.mem_callees_iff,
    AnalysisOptions.isRandomSource, List.contains_iff_mem]
  constructor
  · rintro ⟨whole, he, name, ⟨args, hc⟩, hr⟩
    exact ⟨name, hr, args, whole, he, hc⟩
  · rintro ⟨name, hr, args, whole, he, hc⟩
    exact ⟨whole, he, name, ⟨args, hc⟩, hr⟩

/-- Drops and random draws are detected exactly, wherever they stand in a handler. -/
theorem detects_iff (options : AnalysisOptions) (targets : List String) (direction : Direction)
    (b : Block) :
    (b.mayDrop targets direction = true ↔
      (∃ m, m.flatName ∈ targets ∧ (Stmt.send m direction).StandsIn b) ∨
        ∃ payload d, (Stmt.send (.error payload) d).StandsInArm b) ∧
    (b.drawsRandom options = true ↔
      ∃ name ∈ options.randomSources, ∃ args, b.Exposes (fun _ ↦ False) (.call name args)) :=
  ⟨mayDrop_iff_stands, drawsRandom_iff_stands⟩

/-- An error deep inside arms and a draw among the arguments of a write are seen. -/
example :
    let draw := Expr.call "randomf" [.literal (.number "0"), .literal (.number "1")]
    let refuse : Arm := (.ident "other", [.send (.error (.literal (.text "denied"))) .down])
    let b : Block := [.choose (.ident "kind") [(.literal (.flag true),
      [.eval (.invoke (.ident "rpc") .set [.literal (.text "id"), draw]),
        .choose (.ident "user") [refuse]])]]
    b.mayDrop [errorName] .up = true ∧ b.drawsRandom .standard = true := by
  decide

end Block

end ChainPlan
