import ChainPlan.Proofs.Alternatives
import ChainPlan.Proofs.Copies
import ChainPlan.Proofs.Refusals

/-! # Order of arms

The profile of an element looks at what its handlers hold, at any depth, and only the aliases make
the order in which it stands there matter. So other orders of the arms of a match drop and draw the
same, and they access the same fields and block alike if no alias goes from one arm to another. They
copy and are refused alike if moreover no two arms differ in what they derive.
-/

namespace ChainPlan

/-! ### Arms replaced -/

/-- What the block of an arm assigns. -/
def Arm.assigns (arm : Arm) : List (String × Expr) := Block.assigns arm.2

namespace Block

/-- A block becomes another if the arms of one match in it, at any depth, are replaced. The
assignments are those in front of the match. -/
inductive ReplacesArms (arms arms' : List Arm) : List (String × Expr) → Block → Block → Prop where
  | here (front back : Block) (subject : Expr) :
      ReplacesArms arms arms' front.assigns
        (front ++ .choose subject arms :: back) (front ++ .choose subject arms' :: back)
  | inArm (front back : Block) (subject pattern : Expr) (earlier later : List Arm)
      {before : List (String × Expr)} {body body' : Block}
      (h : ReplacesArms arms arms' before body body') :
      ReplacesArms arms arms' (front.assigns ++ (Stmt.armAssigns earlier ++ before))
        (front ++ .choose subject (earlier ++ (pattern, body) :: later) :: back)
        (front ++ .choose subject (earlier ++ (pattern, body') :: later) :: back)

/-- Two blocks hold the same, in whatever order. -/
structure SameParts (b b' : Block) : Prop where
  exprs : b.exprs.Perm b'.exprs
  sends : b.sends.Perm b'.sends
  innerSends : b.innerSends.Perm b'.innerSends
  idle : b.all Stmt.isPlaceholder = b'.all Stmt.isPlaceholder

/-- Blocks that are alike but for the arms of one match hold the same if these do. -/
theorem SameParts.choose {arms arms' : List Arm} (front back : Block) (subject : Expr)
    (exprs : (Stmt.armExprs arms).Perm (Stmt.armExprs arms'))
    (sends : (Stmt.armSends arms).Perm (Stmt.armSends arms')) :
    SameParts (front ++ .choose subject arms :: back) (front ++ .choose subject arms' :: back) := by
  refine ⟨?_, ?_, ?_, by simp [Stmt.isPlaceholder]⟩
  · simp only [exprs_eq_flatMap, List.flatMap_append, List.flatMap_cons, Stmt.exprs]
    exact .append_left _ (.append_right _ (exprs.cons subject))
  · simp only [sends_eq_flatMap, List.flatMap_append, List.flatMap_cons, Stmt.sends]
    exact .append_left _ (.append_right _ sends)
  · simp only [Block.innerSends, List.flatMap_append, List.flatMap_cons, Stmt.innerSends]
    exact .append_left _ (.append_right _ sends)

namespace ReplacesArms

variable {arms arms' : List Arm} {before : List (String × Expr)} {b b' : Block}

theorem exists_assigns (h : ReplacesArms arms arms' before b b') :
    ∃ rest, b.assigns = before ++ (Stmt.armAssigns arms ++ rest) ∧
      b'.assigns = before ++ (Stmt.armAssigns arms' ++ rest) := by
  induction h with
  | here front back =>
    exact ⟨back.assigns, by rw [assigns_append, assigns_cons, Stmt.assigns],
      by rw [assigns_append, assigns_cons, Stmt.assigns]⟩
  | inArm front back _ _ earlier later h ih =>
    obtain ⟨rest, he, he'⟩ := ih
    refine ⟨rest ++ (Stmt.armAssigns later ++ back.assigns), ?_, ?_⟩
    · simp [assigns_append, assigns_cons, Stmt.assigns, Stmt.armAssigns_eq_flatMap, he]
    · simp [assigns_append, assigns_cons, Stmt.assigns, Stmt.armAssigns_eq_flatMap, he']

/-- Aliases are followed through the arms and then through what stands behind the match. -/
theorem exists_after (h : ReplacesArms arms arms' before b b') (a : Aliases) :
    ∃ rest, a.after b.assigns = ((a.after before).after (arms.map Arm.assigns).flatten).after rest ∧
      a.after b'.assigns = ((a.after before).after (arms'.map Arm.assigns).flatten).after rest := by
  have rows (as : List Arm) : Stmt.armAssigns as = (as.map Arm.assigns).flatten := by
    rw [Stmt.armAssigns_eq_flatMap, List.flatMap_def]
    rfl
  obtain ⟨rest, he, he'⟩ := h.exists_assigns
  exact ⟨rest, by simp only [he, rows, Aliases.after_append],
    by simp only [he', rows, Aliases.after_append]⟩

theorem sameNames (h : ReplacesArms arms arms' before b b') (perm : arms.Perm arms') {a : Aliases}
    (apart : (arms.map Arm.assigns).Pairwise (a.after before).Apart) :
    (a.after b.assigns).SameNames (a.after b'.assigns) := by
  obtain ⟨rest, he, he'⟩ := h.exists_after a
  rw [he, he']
  exact (Aliases.sameNames_after_flatten apart (perm.map _)).after rest

theorem same (h : ReplacesArms arms arms' before b b') (perm : arms.Perm arms') {a : Aliases}
    (independent : (arms.map Arm.assigns).Pairwise (a.after before).Independent) :
    (a.after b.assigns).Same (a.after b'.assigns) := by
  obtain ⟨rest, he, he'⟩ := h.exists_after a
  rw [he, he']
  exact (Aliases.same_after_flatten independent (perm.map _)).after rest

/-- Blocks that differ in the order of the arms of one match hold the same. -/
theorem sameParts (h : ReplacesArms arms arms' before b b') (perm : arms.Perm arms') :
    b.SameParts b' := by
  induction h with
  | here =>
    apply SameParts.choose
    · rw [Stmt.armExprs_eq_flatMap, Stmt.armExprs_eq_flatMap]
      exact perm.flatMap_right _
    · rw [Stmt.armSends_eq_flatMap, Stmt.armSends_eq_flatMap]
      exact perm.flatMap_right _
  | inArm _ _ _ _ _ _ h ih =>
    apply SameParts.choose
    · simp only [Stmt.armExprs_eq_flatMap, List.flatMap_append, List.flatMap_cons]
      exact .append_left _ (.append_right _ (ih.exprs.cons _))
    · simp only [Stmt.armSends_eq_flatMap, List.flatMap_append, List.flatMap_cons]
      exact .append_left _ (.append_right _ ih.sends)

end ReplacesArms

/-! ### What is found in the same parts -/

namespace SameParts

variable {b b' : Block}

theorem symm (h : b.SameParts b') : b'.SameParts b :=
  ⟨h.exprs.symm, h.sends.symm, h.innerSends.symm, h.idle.symm⟩

theorem exposes (h : b.SameParts b') {shut : Expr → Prop} {e : Expr} (he : b.Exposes shut e) :
    b'.Exposes shut e := by
  obtain ⟨whole, hw, stands⟩ := he
  exact ⟨whole, mem_exprs_iff.mp (h.exprs.mem_iff.mp (mem_exprs_iff.mpr hw)), stands⟩

theorem exposes_iff (h : b.SameParts b') {shut : Expr → Prop} {e : Expr} :
    b.Exposes shut e ↔ b'.Exposes shut e :=
  ⟨h.exposes, h.symm.exposes⟩

theorem mayDrop_eq (h : b.SameParts b') (names : List String) (direction : Direction) :
    b.mayDrop names direction = b'.mayDrop names direction := by
  rw [mayDrop, mayDrop, h.sends.any_eq, h.innerSends.any_eq]

theorem drawsRandom_eq (h : b.SameParts b') (options : AnalysisOptions) :
    b.drawsRandom options = b'.drawsRandom options := h.exprs.any_eq

theorem sendCount_eq (h : b.SameParts b') {names names' : List String}
    (hn : ∀ n, n ∈ names ↔ n ∈ names') : b.sendCount names = b'.sendCount names' := by
  have same : (fun s : Expr × Direction ↦ names.contains s.1.flatName) =
      fun s ↦ names'.contains s.1.flatName := by
    funext s
    rw [Bool.eq_iff_iff, List.contains_iff_mem, List.contains_iff_mem, hn]
  rw [sendCount, sendCount, same]
  exact (h.sends.filter _).length_eq

end SameParts

end Block

/-! ### Effects -/

/-- Two sets list the same fields, in whatever order, or are both the wildcard. -/
def FieldSet.SameFields (s s' : FieldSet) : Prop := s.isAll = s'.isAll ∧ s.fields.Perm s'.fields

theorem FieldSet.SameFields.refl (s : FieldSet) : s.SameFields s := ⟨rfl, .refl _⟩

/-- Effects agree as far as the arms of a match are apart, and further if they are independent. -/
structure PathEffects.Agree (apart independent : Prop) (e e' : PathEffects) : Prop where
  drop : e.drop = e'.drop
  probabilistic : e.probabilistic = e'.probabilistic
  accesses : apart → ∀ a, (e.fieldsOf a).SameFields (e'.fieldsOf a)
  block : apart → e.block = e'.block
  copy : independent → e.copy = e'.copy

theorem PathEffects.Agree.refl {apart independent : Prop} (e : PathEffects) :
    e.Agree apart independent e :=
  ⟨rfl, rfl, fun _ _ ↦ .refl _, fun _ ↦ rfl, fun _ ↦ rfl⟩

theorem FieldSet.sameFields_ofFields {fs fs' : List Field} (h : ∀ f, f ∈ fs ↔ f ∈ fs') :
    (ofFields fs).SameFields (ofFields fs') := by
  refine ⟨by rw [ofFields, ofFields, isAll_foldl_insert, isAll_foldl_insert], ?_⟩
  rw [List.perm_ext_iff_of_nodup (nodup_fields_ofFields fs) (nodup_fields_ofFields fs')]
  intro f
  rw [ofFields, ofFields, empty, foldl_insert_only, foldl_insert_only]
  simp only [fields, mem_foldl_addNew, h]

namespace Aliases.SameNames

variable {a a' : Aliases}

theorem isRead_eq (h : a.SameNames a') : Expr.IsRead a.names = Expr.IsRead a'.names := by
  funext e
  simp only [Expr.IsRead, h _]

theorem isWrite_eq (h : a.SameNames a') : Expr.IsWrite a.names = Expr.IsWrite a'.names := by
  funext e
  simp only [Expr.IsWrite, h _]

end Aliases.SameNames

theorem Aliases.Same.mem_renames_iff {a a' : Aliases} (h : a.Same a') (n : String) :
    n ∈ a.renames ↔ n ∈ a'.renames := by
  simp [renames, h.names n, h.derived n]

namespace Block

section

variable {element : String} {t : Traffic} {options : AnalysisOptions} {b b' : Block}
  {a a' : Aliases} {e e' : PathEffects}

theorem Analysed.sameFields (h : b.Analysed element t options a e)
    (h' : b'.Analysed element t options a' e') (parts : b.SameParts b') (names : a.SameNames a')
    (access : Access) : (e.fieldsOf access).SameFields (e'.fieldsOf access) := by
  obtain ⟨reads, scanned, collected⟩ := h.reads
  obtain ⟨reads', scanned', collected'⟩ := h'.reads
  have read : (if options.isRecorder element then e.record else e.read).SameFields
      (if options.isRecorder element then e'.record else e'.read) := by
    rw [eq_ofFields_of_collectFields collected, eq_ofFields_of_collectFields collected']
    refine FieldSet.sameFields_ofFields fun f ↦ ?_
    rw [mem_allReadFields_of_scan scanned, mem_allReadFields_of_scan scanned', names.isRead_eq]
    simp only [names _, parts.exposes_iff]
  obtain ⟨writes, scanned, collected⟩ := h.writes
  obtain ⟨writes', scanned', collected'⟩ := h'.writes
  have write : e.write.SameFields e'.write := by
    rw [eq_ofFields_of_collectFields collected, eq_ofFields_of_collectFields collected']
    refine FieldSet.sameFields_ofFields fun f ↦ ?_
    rw [mem_allWrittenFields_of_scan scanned, mem_allWrittenFields_of_scan scanned',
      names.isWrite_eq]
    simp only [names _, parts.exposes_iff]
  have unread : (if options.isRecorder element then e.read else e.record).SameFields
      (if options.isRecorder element then e'.read else e'.record) := by
    rw [h.unread, h'.unread]
    exact .refl _
  cases hr : options.isRecorder element <;> rw [hr] at read unread
  · cases access with
    | read => exact read
    | write => exact write
    | record => exact unread
  · cases access with
    | read => exact unread
    | write => exact write
    | record => exact read

/-- Handlers that hold the same have effects that differ only where their aliases do. -/
theorem Analysed.agree (h : b.Analysed element t options a e)
    (h' : b'.Analysed element t options a' e') (parts : b.SameParts b') {apart independent : Prop}
    (names : apart → a.SameNames a') (kinds : independent → a.Same a') :
    e.Agree apart independent e' := by
  have drop : e.drop = e'.drop := by rw [h.drop, h'.drop, parts.mayDrop_eq]
  refine ⟨drop, ?_, fun ha ↦ h.sameFields h' parts (names ha), fun ha ↦ ?_, fun hi ↦ ?_⟩
  · rw [h.probabilistic, h'.probabilistic, drop, parts.drawsRandom_eq]
  · rw [h.block, h'.block, parts.idle, parts.sendCount_eq (names ha)]
  · rw [h.copy, h'.copy, parts.sendCount_eq (kinds hi).derived]

end

/-! ### Refusals -/

section

variable {message : String} {b b' : Block}

theorem Refused.of_sameParts (h : b.Refused message) (parts : b.SameParts b')
    (same : (b.aliases message).Same (b'.aliases message)) : b'.Refused message := by
  have reads := same.names.isRead_eq
  have writes := same.names.isWrite_eq
  cases h with
  | unread hc exposed => exact .unread hc (reads ▸ parts.exposes exposed)
  | unwritten hc exposed => exact .unwritten hc (writes ▸ parts.exposes exposed)
  | deletion hc exposed =>
    obtain ⟨name, hn, deleted⟩ := hc
    exact .deletion ⟨name, (same.mem_renames_iff name).mp hn, deleted⟩
      (writes ▸ parts.exposes exposed)
  | malformed hc exposed =>
    obtain ⟨name, hn, malformed⟩ := hc
    exact .malformed ⟨name, (same.names name).mp hn, malformed⟩ (writes ▸ parts.exposes exposed)
  | namelessRead hn ha nameless exposed =>
    exact .namelessRead ((same.names _).mp hn) ha nameless (reads ▸ parts.exposes exposed)
  | namelessWrite hn nameless exposed =>
    exact .namelessWrite ((same.names _).mp hn) nameless (writes ▸ parts.exposes exposed)

/-- Handlers that hold the same are refused alike if their aliases are the same. -/
theorem refused_iff_of_sameParts (parts : b.SameParts b')
    (same : ((Aliases.ofMessage message).after b.assigns).Same
      ((Aliases.ofMessage message).after b'.assigns)) :
    b.Refused message ↔ b'.Refused message := by
  -- Where the aliases of one of them cannot be followed, both hold what the others are refused for.
  have either {b b' : Block} {problem : Problem} (parts : b.SameParts b')
      (h : Aliases.ofBlock message b = .error problem) :
      b.Refused message ∧ b'.Refused message := by
    obtain ⟨c, exposed, hc⟩ :=
      exists_unresolved_of_ofBlock h (Expr.IsRead (b.aliases message).names)
    obtain ⟨c', exposed', hc'⟩ :=
      exists_unresolved_of_ofBlock h (Expr.IsRead (b'.aliases message).names)
    exact ⟨.unread hc exposed, .unread hc' (parts.exposes exposed')⟩
  cases ha : Aliases.ofBlock message b with
  | error problem => exact iff_of_true (either parts ha).1 (either parts ha).2
  | ok a =>
    cases ha' : Aliases.ofBlock message b' with
    | error problem => exact iff_of_true (either parts.symm ha').2 (either parts.symm ha').1
    | ok a' =>
      rw [Aliases.after_of_follows (Aliases.follows_of_ofBlock ha),
        Aliases.after_of_follows (Aliases.follows_of_ofBlock ha'), ← aliases_of_ofBlock ha,
        ← aliases_of_ofBlock ha'] at same
      exact ⟨fun h ↦ h.of_sameParts parts same,
        fun h ↦ h.of_sameParts parts.symm same.symm⟩

end

end Block

/-! ### Profiles -/

namespace Program

/-- The program with another handler for one kind of traffic. -/
def withHandler (t : Traffic) (b : Block) (p : Program) : Program :=
  match t with
  | .request => { p with request := b }
  | .response => { p with response := b }

section

variable (t : Traffic) (b : Block) (p : Program)

@[simp] theorem name_withHandler : (p.withHandler t b).name = p.name := by cases t <;> rfl

@[simp] theorem stateNeeds_withHandler : (p.withHandler t b).stateNeeds = p.stateNeeds := by
  cases t <;> rfl

@[simp] theorem handler_withHandler_self : (p.withHandler t b).handler t = b := by
  cases t <;> rfl

theorem handler_withHandler_ne {u : Traffic} (h : u ≠ t) :
    (p.withHandler t b).handler u = p.handler u := by
  cases t <;> cases u <;> first | rfl | exact absurd rfl h

end

variable {p : Program} {options : AnalysisOptions}

/-- An element has a profile exactly if its state and both handlers can be analysed. -/
theorem isOk_profile : (p.profile options).isOk =
    (p.stateNeeds.isOk && (p.effectsOn options .request).isOk &&
      (p.effectsOn options .response).isOk) := by
  rw [profile]
  cases p.stateNeeds with
  | error problem => rfl
  | ok state =>
    cases p.effectsOn options .request <;> cases p.effectsOn options .response <;> rfl

theorem isOk_effectsOn_iff {t : Traffic} :
    (p.effectsOn options t).isOk = true ↔ ¬ (p.handler t).Refused options.message := by
  rw [← exists_effectsOn_error_iff]
  cases p.effectsOn options t <;> simp [Except.isOk, Except.toBool]

/-- Another order of the arms of a match, at any depth, leaves the state that a profile shows as it
is, and whether messages may be dropped, at random or not. If no alias goes from one arm to another,
it leaves every set as it is up to the order of its fields, and whether messages are blocked. If no
two arms differ in what they derive either, it leaves whether messages are copied, and whether there
is a profile. -/
theorem profile_of_reordered_arms {t : Traffic} {arms arms' : List Arm}
    {before : List (String × Expr)} {b : Block}
    (replaced : Block.ReplacesArms arms arms' before (p.handler t) b) (perm : arms.Perm arms') :
    let q := p.withHandler t b
    let known := (Aliases.ofMessage options.message).after before
    let apart := (arms.map Arm.assigns).Pairwise known.Apart
    let independent := (arms.map Arm.assigns).Pairwise known.Independent
    (∀ profile profile', p.profile options = .ok profile → q.profile options = .ok profile' →
      profile.state = profile'.state ∧
        ∀ u, (profile.effects.on u).Agree apart independent (profile'.effects.on u)) ∧
      (independent → (p.profile options).isOk = (q.profile options).isOk) := by
  intro q known apart independent
  have parts := replaced.sameParts perm
  refine ⟨fun profile profile' h h' ↦ ⟨?_, fun u ↦ ?_⟩, fun hi ↦ ?_⟩
  · have needs := (parts_of_profile h').1
    rw [stateNeeds_withHandler, (parts_of_profile h).1] at needs
    exact Except.ok.inj needs
  · have he := effects_of_profile h u
    have he' := effects_of_profile h' u
    by_cases hu : u = t
    · subst u
      rw [handler_withHandler_self, name_withHandler] at he'
      obtain ⟨a, analysed⟩ := Block.exists_analysed he
      obtain ⟨a', analysed'⟩ := Block.exists_analysed he'
      have found := Aliases.after_of_follows (Aliases.follows_of_ofBlock analysed.found)
      have found' := Aliases.after_of_follows (Aliases.follows_of_ofBlock analysed'.found)
      exact analysed.agree analysed' parts (fun ha ↦ found ▸ found' ▸ replaced.sameNames perm ha)
        fun hi ↦ found ▸ found' ▸ replaced.same perm hi
    · rw [handler_withHandler_ne t b p hu, name_withHandler, he] at he'
      rw [Except.ok.inj he']
      exact .refl _
  · have each (u : Traffic) : (p.effectsOn options u).isOk = (q.effectsOn options u).isOk := by
      rw [Bool.eq_iff_iff, isOk_effectsOn_iff, isOk_effectsOn_iff, not_iff_not]
      by_cases hu : u = t
      · subst u
        rw [handler_withHandler_self]
        exact Block.refused_iff_of_sameParts parts (replaced.same perm hi)
      · rw [handler_withHandler_ne t b p hu]
    rw [isOk_profile, isOk_profile, stateNeeds_withHandler, each, each]

/-- A match inside an arm of another, with arms that read different fields and make different
aliases: in the other order, the fields that are read show in another order and all else is as it
was. -/
theorem profile_of_reordered_arms_nested :
    let get (f : Field) := Expr.invoke (.ident "rpc") .get [.literal (.text f)]
    let arms : List Arm := [(.literal (.text "a"), [.assign "body" (get "body")]),
      (.literal (.text "b"), [.assign "r" (.ident "rpc"), .assign "size" (get "size")])]
    let handling (as : List Arm) : Block := [.assign "who" (get "user"),
      .choose (.ident "who") [(.literal (.text "x"), [.choose (get "kind") as])],
      .send (.ident "rpc") .down]
    let p (as : List Arm) : Program := ⟨"sizer", [], [], handling as, []⟩
    let before := [("who", get "user")]
    let known := (Aliases.ofMessage "rpc").after before
    Block.ReplacesArms arms arms.reverse before ((p arms).handler .request)
        (handling arms.reverse) ∧
      (arms.map Arm.assigns).Pairwise known.Apart ∧
      (arms.map Arm.assigns).Pairwise known.Independent ∧
      ∃ profile profile', (p arms).profile .standard = .ok profile ∧
        (p arms.reverse).profile .standard = .ok profile' ∧
        profile ≠ profile' ∧ profile.state = profile'.state ∧
        (profile.effects.on .request).read.SameFields (profile'.effects.on .request).read ∧
        (profile.effects.on .request).block = (profile'.effects.on .request).block ∧
        (profile.effects.on .request).copy = (profile'.effects.on .request).copy := by
  intro get arms handling p before known
  have replaced : Block.ReplacesArms arms arms.reverse before ((p arms).handler .request)
      (handling arms.reverse) :=
    .inArm [.assign "who" (get "user")] [.send (.ident "rpc") .down] _ _ [] [] (.here [] [] _)
  have apart : (arms.map Arm.assigns).Pairwise known.Apart := by decide +kernel
  have independent : (arms.map Arm.assigns).Pairwise known.Independent := by decide +kernel
  let effects (fs : List Field) : Effects := ⟨{ PathEffects.none with read := .only fs }, .none⟩
  have h : (p arms).profile .standard =
      .ok ⟨.stateless, effects ["user", "kind", "body", "size"]⟩ := by decide +kernel
  have h' : (p arms.reverse).profile .standard =
      .ok ⟨.stateless, effects ["user", "kind", "size", "body"]⟩ := by decide +kernel
  obtain ⟨state, agree⟩ :=
    (profile_of_reordered_arms replaced arms.reverse_perm.symm).1 _ _ h h'
  have requests := agree .request
  exact ⟨replaced, apart, independent, _, _, h, h', by decide +kernel, state,
    requests.accesses apart .read, requests.block apart, requests.copy independent⟩

/-- An alias that one arm makes goes to the arms behind it, and so what is read of it shows in one
order of the arms only; and of two arms that make a variable an alias, the first alone decides
whether sending it is a copy. -/
theorem profile_depends_on_arm_order :
    let get (x : String) (f : Field) := Expr.invoke (.ident x) .get [.literal (.text f)]
    let unset (x : String) := Stmt.assign x (.literal (.text ""))
    let arm (pattern : String) (x : String) (value : Expr) : Arm :=
      (.literal (.text pattern), [.assign x value])
    let leaking := [arm "a" "y" (.ident "x"), arm "b" "x" (.ident "rpc")]
    let reading (as : List Arm) : Block := [unset "x", unset "y",
      .choose (get "rpc" "kind") as, .eval (get "y" "user"), .send (.ident "rpc") .down]
    let differing := [arm "a" "x" (.ident "rpc"), arm "b" "x" (get "rpc" "body")]
    let sending (as : List Arm) : Block :=
      [unset "x", .choose (get "rpc" "kind") as, .send (.ident "x") .down]
    let profileOf (b : Block) := (Program.mk "route" [] [] b []).profile .standard
    let found (fs : List Field) (copy : Bool) : Except SummaryError Profile :=
      .ok ⟨.stateless, ⟨{ PathEffects.none with read := .only fs, copy }, .none⟩⟩
    (∃ before, Block.ReplacesArms leaking leaking.reverse before (reading leaking)
        (reading leaking.reverse)) ∧
      profileOf (reading leaking) = found ["kind"] false ∧
      profileOf (reading leaking.reverse) = found ["kind", "user"] false ∧
      (∃ before, Block.ReplacesArms differing differing.reverse before (sending differing)
        (sending differing.reverse)) ∧
      profileOf (sending differing) = found ["kind", "body"] false ∧
      profileOf (sending differing.reverse) = found ["kind", "body"] true := by
  intro get unset arm leaking reading differing sending profileOf found
  refine ⟨⟨_, .here [unset "x", unset "y"] _ _⟩, ?_, ?_, ⟨_, .here [unset "x"] _ _⟩, ?_, ?_⟩
  all_goals decide +kernel

end Program

end ChainPlan
