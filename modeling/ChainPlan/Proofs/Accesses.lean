import ChainPlan.Proofs.Fields
import ChainPlan.Proofs.Places
import ChainPlan.Proofs.Summaries

/-! # Accesses of handlers

A scan goes through the expressions of a handler down to every method call, except that it does not
look into the arguments of a call that its rule takes. So the effects of a handler show a read of
the message unless it stands among the arguments of another read of it, and a write unless it stands
among those of another write.
-/

namespace ChainPlan

variable {α : Type}

/-! ### Scans -/

namespace Scan

theorem andThen_eq_iff {a b : Scan α} {found : List α} :
    a.andThen b = ⟨found, none⟩ ↔ ∃ xs ys, a = ⟨xs, none⟩ ∧ b = ⟨ys, none⟩ ∧ found = xs ++ ys := by
  obtain ⟨xs, problem⟩ := a
  obtain ⟨ys, other⟩ := b
  cases problem with
  | some problem => simp [andThen]
  | none => simp [andThen, eq_comm, and_comm]

end Scan

/-- A rule takes a call as a whole and finds something in it. -/
def CallRule.Takes (rule : CallRule α) (e : Expr) (found : List α) : Prop :=
  ∃ name method args, e = .invoke (.ident name) method args ∧
    rule method name args = some ⟨found, none⟩

/-- A rule finds something in a call that stands in an expression, outside of the arguments of every
other call that it takes. -/
def CallRule.FindsIn (rule : CallRule α) (x : α) (e : Expr) : Prop :=
  ∃ c found, c.StandsIn (fun c ↦ ∃ found, rule.Takes c found) e ∧ rule.Takes c found ∧ x ∈ found

section

variable {rule : CallRule α} {x : α} {found : List α}

namespace CallRule

/-- Where no method is called on a variable, a rule finds what it finds in the parts. -/
private theorem findsIn_iff_of_parts {e : Expr} {P : Expr → Prop}
    (leaves : ∀ name method args, e ≠ .invoke (.ident name) method args)
    (parts : ∀ c, c.StandsIn (fun c ↦ ∃ found, rule.Takes c found) e ↔ c = e ∨ P c) :
    rule.FindsIn x e ↔ ∃ c found, P c ∧ rule.Takes c found ∧ x ∈ found := by
  constructor
  · rintro ⟨c, found, stands, taken, hx⟩
    rcases (parts c).mp stands with rfl | hc
    · obtain ⟨name, method, args, he, -⟩ := taken
      exact absurd he (leaves name method args)
    · exact ⟨c, found, hc, taken, hx⟩
  · rintro ⟨c, found, hc, rest⟩
    exact ⟨c, found, (parts c).mpr (.inr hc), rest⟩

theorem not_findsIn_ident {name : String} : ¬ rule.FindsIn x (.ident name) := by
  rw [findsIn_iff_of_parts (P := fun _ ↦ False) (by simp) (by simp)]
  simp

theorem not_findsIn_literal {value : Literal} : ¬ rule.FindsIn x (.literal value) := by
  rw [findsIn_iff_of_parts (P := fun _ ↦ False) (by simp) (by simp)]
  simp

theorem findsIn_binary_iff {left right : Expr} {op : BinaryOp} :
    rule.FindsIn x (.binary left op right) ↔ rule.FindsIn x left ∨ rule.FindsIn x right := by
  rw [findsIn_iff_of_parts (by simp) fun _ ↦ Expr.StandsIn.binary_iff]
  simp only [or_and_right, exists_or, FindsIn]

theorem findsIn_call_iff {name : String} {args : List Expr} :
    rule.FindsIn x (.call name args) ↔ ∃ arg ∈ args, rule.FindsIn x arg := by
  rw [findsIn_iff_of_parts (by simp) fun _ ↦ Expr.StandsIn.call_iff]
  constructor
  · rintro ⟨c, found, ⟨arg, ha, stands⟩, rest⟩
    exact ⟨arg, ha, c, found, stands, rest⟩
  · rintro ⟨arg, ha, c, found, stands, rest⟩
    exact ⟨c, found, ⟨arg, ha, stands⟩, rest⟩

theorem findsIn_error_iff {payload : Expr} :
    rule.FindsIn x (.error payload) ↔ rule.FindsIn x payload := by
  rw [findsIn_iff_of_parts (by simp) fun _ ↦ Expr.StandsIn.error_iff, FindsIn]

/-- In a call that the rule takes, it finds nothing but what it takes. -/
theorem findsIn_invoke_of_takes {name : String} {method : Method} {args : List Expr}
    (h : rule method name args = some ⟨found, none⟩) :
    rule.FindsIn x (.invoke (.ident name) method args) ↔ x ∈ found := by
  have takes : rule.Takes (.invoke (.ident name) method args) found := ⟨_, _, _, rfl, h⟩
  constructor
  · rintro ⟨c, other, stands, taken, hx⟩
    rcases Expr.StandsIn.invoke_iff.mp stands with rfl | stands | ⟨hs, -⟩
    · obtain ⟨_, _, _, he, ho⟩ := taken
      cases he
      cases h.symm.trans ho
      exact hx
    · exact absurd ⟨c, other, stands, taken, hx⟩ not_findsIn_ident
    · exact absurd ⟨found, takes⟩ hs
  · exact fun hx ↦ ⟨_, found, .self, takes, hx⟩

theorem findsIn_invoke_of_none {name : String} {method : Method} {args : List Expr}
    (h : rule method name args = none) :
    rule.FindsIn x (.invoke (.ident name) method args) ↔ ∃ arg ∈ args, rule.FindsIn x arg := by
  have leaves (found : List α) : ¬ rule.Takes (.invoke (.ident name) method args) found := by
    rintro ⟨_, _, _, he, hf⟩
    cases he
    cases h.symm.trans hf
  constructor
  · rintro ⟨c, found, stands, taken, hx⟩
    rcases Expr.StandsIn.invoke_iff.mp stands with rfl | stands | ⟨-, arg, ha, stands⟩
    · exact absurd taken (leaves found)
    · exact absurd ⟨c, found, stands, taken, hx⟩ not_findsIn_ident
    · exact ⟨arg, ha, c, found, stands, taken, hx⟩
  · rintro ⟨arg, ha, c, found, stands, rest⟩
    exact ⟨c, found, .argument (fun ⟨found, ht⟩ ↦ leaves found ht) ha stands, rest⟩

end CallRule

mutual

/-- A scan that is not stopped finds all that its rule finds. -/
theorem Expr.mem_scan_iff : ∀ {e : Expr} {found : List α},
    e.scan rule = ⟨found, none⟩ → (x ∈ found ↔ rule.FindsIn x e)
  | .ident name, found, h => by
    obtain rfl : [] = found := congrArg Scan.found h
    simp [CallRule.not_findsIn_ident]
  | .literal value, found, h => by
    obtain rfl : [] = found := congrArg Scan.found h
    simp [CallRule.not_findsIn_literal]
  | .binary left op right, found, h => by
    obtain ⟨xs, ys, hl, hr, rfl⟩ := Scan.andThen_eq_iff.mp h
    rw [List.mem_append, Expr.mem_scan_iff hl, Expr.mem_scan_iff hr, CallRule.findsIn_binary_iff]
  | .call name args, found, h => by
    rw [Expr.mem_scanAll_iff h, CallRule.findsIn_call_iff]
  | .invoke object method args, found, h => by
    -- On anything but a variable, the scan stops.
    cases object with
    | ident name =>
      simp only [Expr.scan, Expr.target] at h
      cases hr : rule method name args with
      | some taken =>
        rw [hr] at h
        rw [CallRule.findsIn_invoke_of_takes (hr.trans (congrArg some h))]
      | none =>
        rw [hr] at h
        rw [Expr.mem_scanAll_iff h, CallRule.findsIn_invoke_of_none hr]
    | literal | binary | call | invoke | error => cases congrArg Scan.problem h
  | .error payload, found, h => by
    rw [Expr.mem_scan_iff (e := payload) h, CallRule.findsIn_error_iff]

/-- A scan of expressions that is not stopped finds all that its rule finds in them. -/
theorem Expr.mem_scanAll_iff : ∀ {es : List Expr} {found : List α},
    Expr.scanAll rule es = ⟨found, none⟩ → (x ∈ found ↔ ∃ e ∈ es, rule.FindsIn x e)
  | [], found, h => by
    obtain rfl : [] = found := congrArg Scan.found h
    simp
  | e :: rest, found, h => by
    obtain ⟨xs, ys, hs, hr, rfl⟩ := Scan.andThen_eq_iff.mp h
    rw [List.mem_append, Expr.mem_scan_iff hs, Expr.mem_scanAll_iff hr]
    simp

end

end

/-! ### Reads and writes of targets -/

/-- A read of one of the targets. -/
def Expr.IsRead (targets : List String) (e : Expr) : Prop :=
  ∃ name ∈ targets, ∃ args, e = .invoke (.ident name) .get args

/-- A write of a field of one of the targets. -/
def Expr.IsWrite (targets : List String) (e : Expr) : Prop :=
  ∃ name ∈ targets, ∃ field value, e = .invoke (.ident name) .set [field, value]

theorem readRule_takes_iff {targets : List String} {c : Expr} {found : List FieldRead} :
    (readRule targets).Takes c found ↔ ∃ name ∈ targets, ∃ args,
      c = .invoke (.ident name) .get args ∧ found = [⟨name, Expr.flatNames args⟩] := by
  constructor
  · rintro ⟨name, method, args, rfl, h⟩
    simp only [readRule, Bool.and_eq_true, decide_eq_true_eq, List.contains_iff_mem] at h
    split at h
    · next hc =>
      cases h
      exact ⟨name, hc.2, args, by rw [hc.1], rfl⟩
    · cases h
  · rintro ⟨name, hn, args, rfl, rfl⟩
    exact ⟨name, .get, args, rfl, by simp [readRule, hn, Scan.one]⟩

theorem writeRule_takes_iff {targets messages : List String} {c : Expr} {found : List FieldWrite} :
    (writeRule targets messages).Takes c found ↔ ∃ name ∈ targets, ∃ field value,
      c = .invoke (.ident name) .set [field, value] ∧
        found = [⟨name, field.flatName, value.flatName⟩] := by
  constructor
  · rintro ⟨name, method, args, rfl, h⟩
    simp only [writeRule, Bool.and_eq_true, decide_eq_true_eq, List.contains_iff_mem] at h
    split at h
    · next hc =>
      split at h
      · next field value =>
        cases h
        exact ⟨name, hc.2, field, value, by rw [hc.1], rfl⟩
      · cases h
    · split at h <;> cases h
  · rintro ⟨name, hn, field, value, rfl, rfl⟩
    exact ⟨name, .set, [field, value], rfl, by simp [writeRule, hn, Scan.one]⟩

theorem writeRule_set_of_length_ne {targets messages : List String} {name : String}
    {args : List Expr} (hn : name ∈ targets) (hl : args.length ≠ 2) :
    writeRule targets messages .set name args = some (.stop (.writeArity name args.length)) := by
  have takes : (decide (Method.set = .set) && targets.contains name) = true := by simp [hn]
  rw [writeRule, if_pos takes]
  rintro field value rfl
  exact hl rfl

/-- The calls that the rule of reads takes, and so looks into no further, are the reads. -/
theorem readRule_takes_eq {targets : List String} :
    (fun c ↦ ∃ found, (readRule targets).Takes c found) = Expr.IsRead targets := by
  funext c
  simp [readRule_takes_iff, Expr.IsRead]

/-- The calls that the rule of writes takes, and so looks into no further, are the writes. -/
theorem writeRule_takes_eq {targets messages : List String} :
    (fun c ↦ ∃ found, (writeRule targets messages).Takes c found) = Expr.IsWrite targets := by
  funext c
  simp [writeRule_takes_iff, Expr.IsWrite]

theorem readRule_findsIn_iff {targets : List String} {r : FieldRead} {e : Expr} :
    (readRule targets).FindsIn r e ↔ ∃ name ∈ targets, ∃ args,
      (Expr.invoke (.ident name) .get args).StandsIn (Expr.IsRead targets) e ∧
        r = ⟨name, Expr.flatNames args⟩ := by
  rw [CallRule.FindsIn, readRule_takes_eq]
  constructor
  · rintro ⟨c, found, stands, taken, hr⟩
    obtain ⟨name, hn, args, rfl, rfl⟩ := readRule_takes_iff.mp taken
    exact ⟨name, hn, args, stands, List.mem_singleton.mp hr⟩
  · rintro ⟨name, hn, args, stands, rfl⟩
    exact ⟨_, _, stands, readRule_takes_iff.mpr ⟨name, hn, args, rfl, rfl⟩, by simp⟩

theorem writeRule_findsIn_iff {targets messages : List String} {w : FieldWrite} {e : Expr} :
    (writeRule targets messages).FindsIn w e ↔ ∃ name ∈ targets, ∃ field value,
      (Expr.invoke (.ident name) .set [field, value]).StandsIn (Expr.IsWrite targets) e ∧
        w = ⟨name, field.flatName, value.flatName⟩ := by
  rw [CallRule.FindsIn, writeRule_takes_eq]
  constructor
  · rintro ⟨c, found, stands, taken, hw⟩
    obtain ⟨name, hn, field, value, rfl, rfl⟩ := writeRule_takes_iff.mp taken
    exact ⟨name, hn, field, value, stands, List.mem_singleton.mp hw⟩
  · rintro ⟨name, hn, field, value, stands, rfl⟩
    exact ⟨_, _, stands, writeRule_takes_iff.mpr ⟨name, hn, field, value, rfl, rfl⟩, by simp⟩

/-! ### Field sets of handlers -/

theorem mem_allReadFields_iff {targets : List String} {reads : List FieldRead} {f : Field} :
    f ∈ allReadFields targets reads ↔ ∃ r ∈ reads, r.target ∈ targets ∧ f ∈ r.fields := by
  simp only [allReadFields, readFields, List.mem_flatMap, mem_foldl_addNew, List.mem_filter,
    decide_eq_true_eq]
  constructor
  · rintro ⟨target, ht, r, ⟨hr, rfl⟩, hf⟩
    exact ⟨r, hr, by simpa using ht, hf⟩
  · rintro ⟨r, hr, ht, hf⟩
    exact ⟨r.target, .inr ht, r, ⟨hr, rfl⟩, hf⟩

theorem mem_allWrittenFields_iff {targets : List String} {writes : List FieldWrite} {f : Field} :
    f ∈ allWrittenFields targets writes ↔ ∃ w ∈ writes, w.target ∈ targets ∧ w.field = f := by
  simp only [allWrittenFields, writtenFields, List.mem_flatMap, mem_foldl_addNew, List.map_map,
    List.mem_map, List.mem_filter, decide_eq_true_eq, Function.comp_apply]
  constructor
  · rintro ⟨target, ht, w, ⟨hw, rfl⟩, hf⟩
    exact ⟨w, hw, by simpa using ht, hf⟩
  · rintro ⟨w, hw, ht, hf⟩
    exact ⟨w.target, .inr ht, w, ⟨hw, rfl⟩, hf⟩

namespace Block

variable {b : Block} {f : Field}

theorem mem_allReadFields_of_scan {targets : List String} {reads : List FieldRead}
    (h : readScan targets b.exprs = ⟨reads, none⟩) :
    f ∈ allReadFields targets reads ↔ ∃ name ∈ targets, ∃ args, f ∈ args.map Expr.flatName ∧
      b.Exposes (Expr.IsRead targets) (.invoke (.ident name) .get args) := by
  rw [mem_allReadFields_iff]
  simp only [Expr.mem_scanAll_iff h, readRule_findsIn_iff, mem_exprs_iff,
    ← Expr.flatNames_eq_map]
  constructor
  · rintro ⟨r, ⟨e, he, name, hn, args, stands, rfl⟩, -, hf⟩
    exact ⟨name, hn, args, hf, e, he, stands⟩
  · rintro ⟨name, hn, args, hf, e, he, stands⟩
    exact ⟨_, ⟨e, he, name, hn, args, stands, rfl⟩, hn, hf⟩

theorem mem_allWrittenFields_of_scan {targets messages : List String} {writes : List FieldWrite}
    (h : writeScan targets messages b.exprs = ⟨writes, none⟩) :
    f ∈ allWrittenFields targets writes ↔ ∃ name ∈ targets, ∃ field value, field.flatName = f ∧
      b.Exposes (Expr.IsWrite targets) (.invoke (.ident name) .set [field, value]) := by
  rw [mem_allWrittenFields_iff]
  simp only [Expr.mem_scanAll_iff h, writeRule_findsIn_iff, mem_exprs_iff]
  constructor
  · rintro ⟨w, ⟨e, he, name, hn, field, value, stands, rfl⟩, -, hf⟩
    exact ⟨name, hn, field, value, hf, e, he, stands⟩
  · rintro ⟨name, hn, field, value, hf, e, he, stands⟩
    exact ⟨_, ⟨e, he, name, hn, field, value, stands, rfl⟩, hn, hf⟩

end Block

theorem eq_ofFields_of_collectFields {set : String} {fields : List Field} {s : FieldSet}
    (h : collectFields set fields = .ok s) : s = .ofFields fields := by
  rw [collectFields] at h
  split at h
  · cases h
  · exact (Except.ok.inj h).symm

theorem contains_of_collectFields {set : String} {fields : List Field} {s : FieldSet}
    (h : collectFields set fields = .ok s) (f : Field) : s.contains f = true ↔ f ∈ fields := by
  have nothing : FieldSet.empty.contains f ≠ true := by
    simp [FieldSet.contains, FieldSet.empty, FieldSet.isAll, FieldSet.fields]
  rw [eq_ofFields_of_collectFields h, FieldSet.ofFields, FieldSet.contains_foldl_insert,
    or_iff_right nothing]

/-- A set that is collected from a list has each field once. -/
theorem FieldSet.nodup_fields_ofFields (fs : List Field) : (ofFields fs).fields.Nodup :=
  nodup_fields_foldl_insert fs List.nodup_nil

theorem nodup_fields_of_collectFields {set : String} {fields : List Field} {s : FieldSet}
    (h : collectFields set fields = .ok s) : s.fields.Nodup := by
  rw [eq_ofFields_of_collectFields h]
  exact FieldSet.nodup_fields_ofFields fields

namespace Block.Analysed

variable {element : String} {t : Traffic} {options : AnalysisOptions} {b : Block}
  {aliases : Aliases} {effects : PathEffects}

theorem contains_read_iff (h : b.Analysed element t options aliases effects) (f : Field) :
    (if options.isRecorder element then effects.record else effects.read).contains f = true ↔
      ∃ name ∈ aliases.names, ∃ args, f ∈ args.map Expr.flatName ∧
        b.Exposes (Expr.IsRead aliases.names) (.invoke (.ident name) .get args) := by
  obtain ⟨reads, scanned, collected⟩ := h.reads
  rw [contains_of_collectFields collected, mem_allReadFields_of_scan scanned]

theorem contains_write_iff (h : b.Analysed element t options aliases effects) (f : Field) :
    effects.write.contains f = true ↔
      ∃ name ∈ aliases.names, ∃ field value, field.flatName = f ∧
        b.Exposes (Expr.IsWrite aliases.names) (.invoke (.ident name) .set [field, value]) := by
  obtain ⟨writes, scanned, collected⟩ := h.writes
  rw [contains_of_collectFields collected, mem_allWrittenFields_of_scan scanned]

end Block.Analysed

/-- A profile shows a field as read exactly if it is an argument of a read of the message that
stands anywhere in the handler but among the arguments of another, and as written exactly if it is
the field of such a write. -/
theorem Program.contains_accesses_iff {p : Program} {options : AnalysisOptions} {profile : Profile}
    (h : p.profile options = .ok profile) (t : Traffic) :
    ∃ aliases, Aliases.ofBlock options.message (p.handler t) = .ok aliases ∧ ∀ f : Field,
      ((if options.isRecorder p.name then (profile.effects.on t).record
          else (profile.effects.on t).read).contains f = true ↔
        ∃ name ∈ aliases.names, ∃ args, f ∈ args.map Expr.flatName ∧
          (p.handler t).Exposes (Expr.IsRead aliases.names) (.invoke (.ident name) .get args)) ∧
      ((profile.effects.on t).write.contains f = true ↔
        ∃ name ∈ aliases.names, ∃ field value, field.flatName = f ∧
          (p.handler t).Exposes (Expr.IsWrite aliases.names)
            (.invoke (.ident name) .set [field, value])) := by
  obtain ⟨aliases, analysed⟩ := Block.exists_analysed (Program.effects_of_profile h t)
  exact ⟨aliases, analysed.found, fun f ↦
    ⟨analysed.contains_read_iff f, analysed.contains_write_iff f⟩⟩

/-- A handler that reads a field in the argument of a call and, in an arm, another one in a value
that it writes: all three accesses show. -/
theorem Program.contains_accesses_iff_nested :
    let get (f : Field) := Expr.invoke (.ident "rpc") .get [.literal (.text f)]
    let set := Expr.invoke (.ident "rpc") .set [.literal (.text "user"), get "name"]
    let p : Program := ⟨"acl", [], [], [.choose (.call "check" [get "role"])
      [(.literal (.flag true), [.eval set])], .send (.ident "rpc") .down], []⟩
    ∃ profile, p.profile .standard = .ok profile ∧ ∃ aliases,
      Aliases.ofBlock "rpc" (p.handler .request) = .ok aliases ∧
        (profile.effects.on .request).read.contains "role" = true ∧
        (profile.effects.on .request).read.contains "name" = true ∧
        (profile.effects.on .request).write.contains "user" = true := by
  intro get set p
  let effects := { PathEffects.none with read := .only ["role", "name"], write := .only ["user"] }
  have h : p.profile .standard = .ok ⟨.stateless, ⟨effects, .none⟩⟩ := by decide +kernel
  obtain ⟨aliases, found, accesses⟩ := Program.contains_accesses_iff h .request
  obtain rfl : Aliases.ofMessage "rpc" = aliases := Except.ok.inj (.trans (by decide) found)
  have value_seen : ¬ Expr.IsRead ["rpc"] set := by
    rintro ⟨_, _, _, he⟩
    simp [set] at he
  have role := (accesses "role").1.mpr ⟨"rpc", .head _, [.literal (.text "role")], .head _,
    _, .subject, .operand (.head _) .self⟩
  have name := (accesses "name").1.mpr ⟨"rpc", .head _, [.literal (.text "name")], .head _,
    set, .inArm (.head _) .alone, .argument value_seen (.tail _ (.head _)) .self⟩
  have user := (accesses "user").2.mpr ⟨"rpc", .head _, .literal (.text "user"), get "name", rfl,
    set, .inArm (.head _) .alone, .self⟩
  exact ⟨_, h, _, found, role, name, user⟩

/-- What is read or written among the arguments of another read or write does not show. -/
theorem Program.nested_access_without_effect :
    let inner := Expr.invoke (.ident "rpc") .get [.literal (.text "key")]
    let outer := Expr.invoke (.ident "rpc") .get [inner]
    let set := Expr.invoke (.ident "rpc") .set [.literal (.text "b"), .literal (.number "1")]
    let p : Program := ⟨"lookup", [], [],
      [.assign "v" outer, .send (.ident "rpc") .down],
      [.eval (.invoke (.ident "rpc") .set [.literal (.text "a"), set]), .send (.ident "rpc") .up]⟩
    (p.handler .request).Exposes (fun _ ↦ False) inner ∧
      (p.handler .response).Exposes (fun _ ↦ False) set ∧
      p.profile .standard = .ok ⟨.stateless,
        ⟨{ PathEffects.none with read := .only ["rpc.GET(key)"] },
          { PathEffects.none with write := .only ["a"] }⟩⟩ := by
  intro inner outer set p
  refine ⟨⟨outer, .assigned, .argument id (.head _) .self⟩,
    ⟨_, .alone, .argument id (.tail _ (.head _)) .self⟩, by decide +kernel⟩

end ChainPlan
