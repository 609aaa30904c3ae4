import ChainPlan.Proofs.RenamedAnalyses

/-! # Profiles of renamed elements

The profile of an element shows names of variables only where a text made of them is taken for the
name of a field, or for that of an alias that is sent. Where a renaming leaves these texts alone,
the profile stays what it is, and a problem for which there is none remains of its kind.
-/

namespace ChainPlan

/-! ### Sends -/

namespace Block

variable {ρ : String → String}

/-- The texts that are taken for names of fields stay the same under a renaming, and a message that
is sent has the renamed text, as every variable does, or never the text of an alias. -/
structure KeepsTexts (ρ : String → String) (aliases : Aliases) (b : Block) : Prop where
  read : ∀ name ∈ aliases.names, ∀ args,
    b.Exposes (Expr.IsRead aliases.names) (.invoke (.ident name) .get args) →
      ∀ arg ∈ args, (arg.rename ρ).flatName = arg.flatName
  write : ∀ name ∈ aliases.names, ∀ field value,
    b.Exposes (Expr.IsWrite aliases.names) (.invoke (.ident name) .set [field, value]) →
      (field.rename ρ).flatName = field.flatName
  sent : ∀ s ∈ b.sends, (s.1.rename ρ).flatName = ρ s.1.flatName ∨
    s.1.flatName ∉ aliases.names ∧ (s.1.rename ρ).flatName ∉ aliases.names.map ρ

theorem sendCount_rename (hρ : ρ.Injective) {names : List String} {b : Block}
    (h : ∀ s ∈ b.sends, (s.1.rename ρ).flatName = ρ s.1.flatName ∨
      s.1.flatName ∉ names ∧ (s.1.rename ρ).flatName ∉ names.map ρ) :
    (b.rename ρ).sendCount (names.map ρ) = b.sendCount names := by
  rw [sendCount, sendCount, sends_rename, List.filter_map, List.length_map]
  refine congrArg List.length (List.filter_congr fun s hs ↦ ?_)
  rw [Function.comp_apply, Bool.eq_iff_iff, List.contains_iff_mem, List.contains_iff_mem]
  rcases h s hs with he | ⟨hn, hn'⟩
  · rw [he, List.mem_map_of_injective hρ]
  · exact iff_of_false hn' hn

theorem mayDrop_rename (hρ : ρ.Injective) (he : ρ errorName = errorName) (direction : Direction)
    (b : Block) : (b.rename ρ).mayDrop [errorName] direction = b.mayDrop [errorName] direction := by
  have same (e : Expr) :
      [errorName].contains (e.rename ρ).flatName = [errorName].contains e.flatName := by
    rw [Bool.eq_iff_iff, List.contains_iff_mem, List.contains_iff_mem, List.mem_singleton,
      List.mem_singleton, Expr.flatName_rename_eq_errorName_iff hρ he]
  simp only [mayDrop, sends_rename, innerSends_rename, List.any_map, Function.comp_def, same,
    Expr.isError_rename]

theorem drawsRandom_rename (ρ : String → String) (options : AnalysisOptions) (b : Block) :
    (b.rename ρ).drawsRandom options = b.drawsRandom options := by
  simp only [drawsRandom, exprs_rename, List.any_map, Function.comp_def, Expr.callees_rename]

/-- The effects of a renamed handler are those of the handler, if the texts that they are taken from
are left alone. -/
theorem effects_rename {options : AnalysisOptions} {b : Block} (hρ : ρ.Injective)
    (hm : ρ options.message = options.message) (he : ρ errorName = errorName)
    (keeps : ∀ aliases, Aliases.ofBlock options.message b = .ok aliases → b.KeepsTexts ρ aliases)
    (element : String) (t : Traffic) :
    Alike Eq (b.effects element t options) ((b.rename ρ).effects element t options) := by
  rw [Block.effects, Block.effects, all_isPlaceholder_rename]
  split
  · exact .ok rfl
  · rw [activeEffects, activeEffects]
    refine (Aliases.ofBlock_rename hρ hm b).bind fun aliases _ found h ↦ ?_
    subst h
    have texts := keeps aliases found
    -- Derived aliases are aliases: a text that names none of these names none of those.
    have sent : ∀ s ∈ b.sends, (s.1.rename ρ).flatName = ρ s.1.flatName ∨
        s.1.flatName ∉ aliases.derived ∧ (s.1.rename ρ).flatName ∉ aliases.derived.map ρ := by
      intro s hs
      have sub := Aliases.derived_subset_names (Aliases.follows_of_ofBlock found)
      rcases texts.sent s hs with same | ⟨hn, hn'⟩
      · exact .inl same
      · exact .inr ⟨fun hd ↦ hn (sub hd), fun hd ↦ hn' (List.map_subset ρ sub hd)⟩
    rw [exprs_rename, Aliases.renames_rename hρ]
    have reads : (readScan aliases.names b.exprs).Alike (FieldRead.Renamed ρ)
        (readScan (aliases.names.map ρ) (b.exprs.map (Expr.rename ρ))) :=
      readScan_rename hρ fun e hm name hn args hs ↦
        texts.read name hn args ⟨e, mem_exprs_iff.mp hm, hs⟩
    have writes : (writeScan aliases.names aliases.renames b.exprs).Alike (FieldWrite.Renamed ρ)
        (writeScan (aliases.names.map ρ) (aliases.renames.map ρ)
          (b.exprs.map (Expr.rename ρ))) :=
      writeScan_rename hρ fun e hm name hn field value hs ↦
        texts.write name hn field value ⟨e, mem_exprs_iff.mp hm, hs⟩
    refine reads.toExcept.bind fun reads reads' _ hr ↦ ?_
    refine writes.toExcept.bind fun writes writes' _ hw ↦ ?_
    simp only [Aliases.rename, allReadFields_rename hρ _ hr, allWrittenFields_rename hρ _ hw,
      mayDrop_rename hρ he, drawsRandom_rename, sendCount_rename hρ texts.sent,
      sendCount_rename hρ sent]
    exact .refl _

end Block

/-! ### Profiles -/

namespace Program

variable {ρ : String → String} {options : AnalysisOptions}

/-- The program with the variables of one of its handlers renamed. -/
def renameIn (t : Traffic) (ρ : String → String) (p : Program) : Program :=
  match t with
  | .request => { p with request := p.request.rename ρ }
  | .response => { p with response := p.response.rename ρ }

theorem effectsOn_renameIn {p : Program} {t : Traffic} (hρ : ρ.Injective)
    (hm : ρ options.message = options.message) (he : ρ errorName = errorName)
    (keeps : ∀ aliases, Aliases.ofBlock options.message (p.handler t) = .ok aliases →
      (p.handler t).KeepsTexts ρ aliases) (u : Traffic) :
    ((p.renameIn t ρ).effectsOn options u).mapError SummaryError.anonymous =
      (p.effectsOn options u).mapError SummaryError.anonymous := by
  by_cases hu : u = t
  · subst u
    have handler : (p.renameIn t ρ).handler t = (p.handler t).rename ρ := by cases t <;> rfl
    have name : (p.renameIn t ρ).name = p.name := by cases t <;> rfl
    rw [effectsOn, effectsOn, handler, name]
    have alike := Block.effects_rename hρ hm he keeps p.name t
    generalize (p.handler t).effects p.name t options = x at alike
    generalize ((p.handler t).rename ρ).effects p.name t options = y at alike
    cases alike with
    | ok h => rw [h]
    | error h => exact congrArg (fun q ↦ Except.error (SummaryError.handler p.name t q)) h.symm
  · have same : (p.renameIn t ρ).effectsOn options u = p.effectsOn options u := by
      cases t <;> cases u <;> first | rfl | exact absurd rfl hu
    rw [same]

/-- Renaming the variables of a handler leaves the profile of an element as it is, or the kind of
problem for which it has none, if the texts that it is taken from are left alone. -/
theorem profile_renameIn {p : Program} {t : Traffic} (hρ : ρ.Injective)
    (hm : ρ options.message = options.message) (he : ρ errorName = errorName)
    (keeps : ∀ aliases, Aliases.ofBlock options.message (p.handler t) = .ok aliases →
      (p.handler t).KeepsTexts ρ aliases) :
    ((p.renameIn t ρ).profile options).mapError SummaryError.anonymous =
      (p.profile options).mapError SummaryError.anonymous := by
  have state : (p.renameIn t ρ).stateNeeds = p.stateNeeds := by cases t <;> rfl
  have name : (p.renameIn t ρ).name = p.name := by cases t <;> rfl
  rw [profile, profile, state, name]
  cases p.stateNeeds with
  | error problem => rfl
  | ok needs => simp only [mapError_bind, effectsOn_renameIn hρ hm he keeps]

/-- Replacing a variable of a handler by a name that does not occur in it leaves the profile as it
is, or the kind of problem for which there is none, unless one of the two names is that of the
message or of error messages, or stands in a text that a profile is taken from. -/
theorem profile_replace {p : Program} {t : Traffic} {x y : String}
    (hx : x ≠ options.message) (hy : y ≠ options.message) (hxe : x ≠ errorName)
    (hye : y ≠ errorName) (fresh : y ∉ (p.handler t).idents)
    (keeps : ∀ aliases, Aliases.ofBlock options.message (p.handler t) = .ok aliases →
      (p.handler t).KeepsTexts (Equiv.swap x y) aliases) :
    ((p.renameIn t (Function.update id x y)).profile options).mapError SummaryError.anonymous =
      (p.profile options).mapError SummaryError.anonymous := by
  -- Replacing gives no two variables of the handler one name, but is injective only as an exchange.
  have same := (Block.rename_swap (x := x) fresh).symm
  have replaced : p.renameIn t (Function.update id x y) = p.renameIn t (Equiv.swap x y) := by
    cases t with
    | request => exact congrArg (Program.mk p.name p.state p.init · p.response) same
    | response => exact congrArg (Program.mk p.name p.state p.init p.request) same
  rw [replaced]
  exact profile_renameIn (Equiv.injective _) (Equiv.swap_apply_of_ne_of_ne hx.symm hy.symm)
    (Equiv.swap_apply_of_ne_of_ne hxe.symm hye.symm) keeps

/-- A handler that reads a field of the message and writes what it has read to another. -/
theorem profile_replace_local :
    let get := Expr.invoke (.ident "rpc") .get [.literal (.text "user")]
    let set := Expr.invoke (.ident "rpc") .set [.literal (.text "owner"), .ident "who"]
    let p : Program :=
      ⟨"acl", [], [], [.assign "who" get, .eval set, .send (.ident "rpc") .down], []⟩
    "name" ∉ (p.handler .request).idents ∧
      ((p.renameIn .request (Function.update id "who" "name")).profile .standard).mapError
          SummaryError.anonymous = (p.profile .standard).mapError SummaryError.anonymous := by
  intro get set p
  have fresh : "name" ∉ (p.handler .request).idents := by decide
  have exprs : (p.handler .request).exprs = [get, set, .ident "rpc"] := rfl
  have sends : (p.handler .request).sends = [(.ident "rpc", .down)] := rfl
  refine ⟨fresh, profile_replace (by decide) (by decide) (by decide) (by decide) fresh ?_⟩
  intro aliases found
  obtain rfl : ⟨["rpc", "who"], ["who"]⟩ = aliases := Except.ok.inj (.trans (by decide) found)
  refine ⟨?_, ?_, ?_⟩
  · rintro name - args ⟨whole, hw, stands⟩ arg ha
    rw [← Block.mem_exprs_iff, exprs] at hw
    simp only [List.mem_cons, List.not_mem_nil, or_false] at hw
    rcases hw with rfl | rfl | rfl
    · obtain ⟨-, rfl⟩ : name = "rpc" ∧ args = [.literal (.text "user")] := by
        simpa [get] using stands
      rw [List.mem_singleton.mp ha]
      rfl
    · simp [set] at stands
    · simp at stands
  · rintro name - field value ⟨whole, hw, stands⟩
    rw [← Block.mem_exprs_iff, exprs] at hw
    simp only [List.mem_cons, List.not_mem_nil, or_false] at hw
    rcases hw with rfl | rfl | rfl
    · simp [get] at stands
    · obtain ⟨-, rfl, -⟩ : name = "rpc" ∧ field = .literal (.text "owner") ∧
          value = .ident "who" := by
        simpa [set] using stands
      rfl
    · simp at stands
  · intro s hs
    rw [sends, List.mem_singleton] at hs
    subst hs
    exact .inl rfl

/-- The name of a variable shows in a profile if the variable is taken for the name of a field, if a
text that is sent is taken for it, and if it is the name of error messages. -/
theorem profile_shows_local :
    let handling (b : Block) : Program := ⟨"lookup", [], [], b, []⟩
    let asField := handling [.assign "k" (.literal (.text "user")),
      .eval (.invoke (.ident "rpc") .get [.ident "k"]), .send (.ident "rpc") .down]
    let asText := handling [.assign "k" (.ident "rpc"), .send (.literal (.text "k")) .down]
    let asError := handling [.assign errorName (.literal (.text "none")),
      .send (.ident errorName) .up, .send (.ident "rpc") .down]
    let replaced (p : Program) (x : String) := p.renameIn .request (Function.update id x "key")
    let profileOf (e : PathEffects) : Profile := ⟨.stateless, ⟨e, .none⟩⟩
    (∀ p ∈ [asField, asText, asError], "key" ∉ (p.handler .request).idents) ∧
      (asField.profile .standard = .ok (profileOf { PathEffects.none with read := .only ["k"] }) ∧
        (replaced asField "k").profile .standard =
          .ok (profileOf { PathEffects.none with read := .only ["key"] })) ∧
      (asText.profile .standard = .ok (profileOf .none) ∧
        (replaced asText "k").profile .standard =
          .ok (profileOf { PathEffects.none with block := true })) ∧
      asError.profile .standard = .ok (profileOf { PathEffects.none with drop := true }) ∧
        (replaced asError errorName).profile .standard = .ok (profileOf .none) := by
  decide +kernel

end Program

end ChainPlan
