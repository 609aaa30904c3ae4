import ChainPlan.Proofs.Aliasing
import ChainPlan.Proofs.Summaries

/-! # Copies

A handler copies if it sends an alias that is derived from the data of the message. A variable that
holds such data when a run sends it is an alias, and a derived one unless another alias was assigned
to it as it is when it became one. That first assignment is all that counts: what the other alias
holds, and what the variable is assigned later, is not asked again.
-/

namespace ChainPlan

namespace Block

theorem sendCount_pos_iff {names : List String} {b : Block} :
    0 < b.sendCount names ↔ ∃ s ∈ b.sends, s.1.flatName ∈ names := by
  simp [sendCount, List.length_pos_iff, List.filter_eq_nil_iff]

/-- A handler copies exactly if it sends an alias that was not first made one as another name. -/
theorem Analysed.copy_iff {element : String} {t : Traffic} {options : AnalysisOptions} {b : Block}
    {aliases : Aliases} {effects : PathEffects} (h : b.Analysed element t options aliases effects) :
    effects.copy = true ↔ ∃ s ∈ b.sends, s.1.flatName ∈ aliases.names ∧
      ¬ Aliases.NamedFirst options.message s.1.flatName b.assigns := by
  have derived_iff (name : String) : name ∈ aliases.derived ↔
      name ∈ aliases.names ∧ ¬ Aliases.NamedFirst options.message name b.assigns := by
    have follows := Aliases.follows_of_ofBlock h.found
    obtain ⟨covers, apart⟩ := @Aliases.mem_derived_or_namedFirst _ _ name _ follows
    rw [covers]
    tauto
  rw [h.copy, decide_eq_true_eq, sendCount_pos_iff]
  simp only [derived_iff]

end Block

/-- A handler copies if some run of it sends a variable that holds data of the message by then,
unless the variable was first made an alias as another name. -/
theorem Program.copy_of_send_data {p : Program} {options : AnalysisOptions} {profile : Profile}
    {t : Traffic} {before after : Block} {x : String} {d : Direction}
    (h : p.profile options = .ok profile)
    (run : (p.handler t).Runs (before ++ .send (.ident x) d :: after))
    (data : (Locals.start options.message).afterAll before x = .data)
    (first : ¬ Aliases.NamedFirst options.message x (p.handler t).assigns) :
    (profile.effects.on t).copy = true := by
  obtain ⟨aliases, analysed⟩ := Block.exists_analysed (Program.effects_of_profile h t)
  have sent : (.ident x, d) ∈ (p.handler t).sends := by
    refine run.sends_sublist.subset ?_
    rw [Block.sends_append, Block.sends_cons]
    simp [Stmt.sends]
  have known : x ∈ aliases.names := by
    refine Aliases.covers_of_runs analysed.found run x ?_
    rw [data]
    decide
  exact analysed.copy_iff.mpr ⟨_, sent, known, first⟩

/-- A handler that sends the body of a message on in an arm of a match copies. -/
theorem Program.copy_of_send_data_mirrored :
    let body := Expr.invoke (.ident "rpc") .get [.literal (.text "body")]
    let mirror := Stmt.send (.ident "payload") .down
    let arms : List Arm := [(.literal (.text ""), []), (.ident "other", [mirror])]
    let p : Program := ⟨"mirror", [], [], [.assign "payload" body, .choose (.ident "payload") arms,
      .send (.ident "rpc") .down], []⟩
    ∃ profile, p.profile .standard = .ok profile ∧
      (p.handler .request).Runs [.assign "payload" body, mirror, .send (.ident "rpc") .down] ∧
      (Locals.start "rpc").afterAll [.assign "payload" body] "payload" = .data ∧
      ¬ Aliases.NamedFirst "rpc" "payload" (p.handler .request).assigns ∧
      (profile.effects.on .request).copy = true := by
  intro body mirror arms p
  let effects := { PathEffects.none with read := .only ["body"], copy := true }
  have h : p.profile .standard = .ok ⟨.stateless, ⟨effects, .none⟩⟩ := by decide +kernel
  have run : (p.handler .request).Runs
      ([.assign "payload" body] ++ mirror :: [.send (.ident "rpc") .down]) := by
    have inner : Block.Runs [mirror] [mirror] :=
      Block.runs_of_isPlain (by simp [Stmt.IsPlain, mirror])
    have rest : Block.Runs [.send (.ident "rpc") .down] [.send (.ident "rpc") .down] :=
      Block.runs_of_isPlain (by simp [Stmt.IsPlain])
    have taken : (.ident "other", [mirror]) ∈ arms := by simp [arms]
    have matched := @Block.Runs.arm (.ident "payload") arms _ _ _ _ taken inner rest
    exact .step (fun _ _ ↦ nofun) matched
  have first : ¬ Aliases.NamedFirst "rpc" "payload" (p.handler .request).assigns := by
    have assigns : (p.handler .request).assigns = [("payload", body)] := rfl
    exact Aliases.not_namedFirst (by decide) (by simp [assigns, body])
  exact ⟨_, h, run, by decide, first, Program.copy_of_send_data h run (by decide) first⟩

/-- A handler does not copy that gives the body of a message a second name and sends that. -/
theorem Program.renamed_data_without_copy :
    let body := Expr.invoke (.ident "rpc") .get [.literal (.text "body")]
    let before : Block := [.assign "payload" body, .assign "p" (.ident "payload")]
    let after : Block := [.send (.ident "rpc") .down]
    let p : Program := ⟨"mirror", [], [], before ++ .send (.ident "p") .down :: after, []⟩
    (p.handler .request).Runs (before ++ .send (.ident "p") .down :: after) ∧
      (Locals.start "rpc").afterAll before "p" = .data ∧
      p.profile .standard = .ok ⟨.stateless,
        ⟨{ PathEffects.none with read := .only ["body"], copy := false }, .none⟩⟩ := by
  intro body before after p
  refine ⟨Block.runs_of_isPlain ?_, by decide, by decide +kernel⟩
  simp [p, handler, before, after, Stmt.IsPlain]

end ChainPlan
