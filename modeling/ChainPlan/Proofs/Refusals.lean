import ChainPlan.Proofs.Accesses
import ChainPlan.Proofs.Aliasing

/-! # Refusals of handlers

The analysis refuses a handler with a call on something other than a variable, a deletion of a field
of the message, a write that is not of a field and a value, or an access to a field without a name.
Each is met by a scan, so it goes unseen where no scan looks: the scan of reads does not look among
the arguments of reads, nor the scan of writes among those of writes. Only the scan of writes meets
deletions, while calls on something other than a variable stop both scans. Nothing else is refused.
-/

namespace ChainPlan

variable {α : Type}

/-! ### What stops a scan -/

namespace Scan

theorem problem_andThen_ne_none_iff {a b : Scan α} :
    (a.andThen b).problem ≠ none ↔ a.problem ≠ none ∨ b.problem ≠ none := by
  rw [andThen]
  cases ha : a.problem with
  | none => simp
  | some problem => simp [ha]

theorem problem_ne_none_of_toExcept {a : Scan α} {problem : Problem}
    (h : a.toExcept = .error problem) : a.problem ≠ none := by
  intro passed
  rw [toExcept, passed] at h
  cases h

end Scan

/-- A call on something other than a variable. -/
def Expr.IsUnresolved (e : Expr) : Prop :=
  ∃ object method args, e = .invoke object method args ∧ object.ident? = none

/-- A rule refuses a call on a variable. -/
def CallRule.Refuses (rule : CallRule α) (e : Expr) : Prop :=
  ∃ name method args found problem, e = .invoke (.ident name) method args ∧
    rule method name args = some ⟨found, some problem⟩

/-- A call that no scan under the rule gets past stands in an expression, outside of the arguments
of every call that the rule takes. -/
def CallRule.StopsIn (rule : CallRule α) (e : Expr) : Prop :=
  ∃ c, c.StandsIn (fun c ↦ ∃ found, rule.Takes c found) e ∧ (c.IsUnresolved ∨ rule.Refuses c)

section

variable {rule : CallRule α}

namespace CallRule

theorem not_stopsIn_ident {name : String} : ¬ rule.StopsIn (.ident name) := by
  simp [StopsIn, Expr.IsUnresolved, Refuses]

theorem not_stopsIn_literal {value : Literal} : ¬ rule.StopsIn (.literal value) := by
  simp [StopsIn, Expr.IsUnresolved, Refuses]

theorem stopsIn_binary_iff {left right : Expr} {op : BinaryOp} :
    rule.StopsIn (.binary left op right) ↔ rule.StopsIn left ∨ rule.StopsIn right := by
  simp [StopsIn, or_and_right, exists_or, Expr.IsUnresolved, Refuses]

theorem stopsIn_call_iff {name : String} {args : List Expr} :
    rule.StopsIn (.call name args) ↔ ∃ arg ∈ args, rule.StopsIn arg := by
  constructor
  · rintro ⟨c, stands, stops⟩
    rcases Expr.StandsIn.call_iff.mp stands with rfl | ⟨arg, ha, stands⟩
    · simp [Expr.IsUnresolved, Refuses] at stops
    · exact ⟨arg, ha, c, stands, stops⟩
  · rintro ⟨arg, ha, c, stands, stops⟩
    exact ⟨c, .operand ha stands, stops⟩

theorem stopsIn_error_iff {payload : Expr} :
    rule.StopsIn (.error payload) ↔ rule.StopsIn payload := by
  simp [StopsIn, or_and_right, exists_or, Expr.IsUnresolved, Refuses]

theorem stopsIn_of_ident?_eq_none {object : Expr} {method : Method} {args : List Expr}
    (h : object.ident? = none) : rule.StopsIn (.invoke object method args) :=
  ⟨_, .self, .inl ⟨object, method, args, rfl, h⟩⟩

/-- A rule that knows the call decides alone whether it is stopped there. -/
theorem stopsIn_invoke_of_some {name : String} {method : Method} {args : List Expr}
    {taken : Scan α} (h : rule method name args = some taken) :
    rule.StopsIn (.invoke (.ident name) method args) ↔ taken.problem ≠ none := by
  obtain ⟨found, problem⟩ := taken
  constructor
  · rintro ⟨c, stands, stops⟩ hp
    obtain rfl : problem = none := hp
    rcases Expr.StandsIn.invoke_iff.mp stands with rfl | stands | ⟨hs, -⟩
    · simp [Expr.IsUnresolved, Refuses, Expr.ident?, h] at stops
    · exact not_stopsIn_ident ⟨c, stands, stops⟩
    · exact hs ⟨found, name, method, args, rfl, h⟩
  · intro hp
    obtain ⟨problem, rfl⟩ := Option.ne_none_iff_exists'.mp hp
    exact ⟨_, .self, .inr ⟨name, method, args, found, problem, rfl, h⟩⟩

theorem stopsIn_invoke_of_none {name : String} {method : Method} {args : List Expr}
    (h : rule method name args = none) :
    rule.StopsIn (.invoke (.ident name) method args) ↔ ∃ arg ∈ args, rule.StopsIn arg := by
  constructor
  · rintro ⟨c, stands, stops⟩
    rcases Expr.StandsIn.invoke_iff.mp stands with rfl | stands | ⟨-, arg, ha, stands⟩
    · simp [Expr.IsUnresolved, Refuses, Expr.ident?, h] at stops
    · exact absurd ⟨c, stands, stops⟩ not_stopsIn_ident
    · exact ⟨arg, ha, c, stands, stops⟩
  · rintro ⟨arg, ha, c, stands, stops⟩
    have seen : ¬ ∃ found, rule.Takes (.invoke (.ident name) method args) found := by
      simp [Takes, h]
    exact ⟨c, .argument seen ha stands, stops⟩

end CallRule

mutual

/-- A scan is stopped exactly if a call that it does not get past stands where it looks. -/
theorem Expr.problem_scan_ne_none_iff :
    ∀ {e : Expr}, (e.scan rule).problem ≠ none ↔ rule.StopsIn e
  | .ident name => by simp [Expr.scan, Scan.nothing, CallRule.not_stopsIn_ident]
  | .literal value => by simp [Expr.scan, Scan.nothing, CallRule.not_stopsIn_literal]
  | .binary left op right => by
    rw [Expr.scan, Scan.problem_andThen_ne_none_iff, Expr.problem_scan_ne_none_iff,
      Expr.problem_scan_ne_none_iff, CallRule.stopsIn_binary_iff]
  | .call name args => by
    rw [Expr.scan, Expr.problem_scanAll_ne_none_iff, CallRule.stopsIn_call_iff]
  | .invoke object method args => by
    cases object with
    | ident name =>
      simp only [Expr.scan, Expr.target]
      cases hr : rule method name args with
      | some taken => exact (CallRule.stopsIn_invoke_of_some hr).symm
      | none =>
        rw [CallRule.stopsIn_invoke_of_none hr]
        exact Expr.problem_scanAll_ne_none_iff
    | literal | binary | call | invoke | error =>
      refine iff_of_true ?_ (CallRule.stopsIn_of_ident?_eq_none rfl)
      simp [Expr.scan, Expr.target, Scan.stop]
  | .error payload => by
    rw [Expr.scan, Expr.problem_scan_ne_none_iff, CallRule.stopsIn_error_iff]

theorem Expr.problem_scanAll_ne_none_iff :
    ∀ {es : List Expr}, (Expr.scanAll rule es).problem ≠ none ↔ ∃ e ∈ es, rule.StopsIn e
  | [] => by simp [Expr.scanAll, Scan.nothing]
  | e :: rest => by
    rw [Expr.scanAll, Scan.problem_andThen_ne_none_iff, Expr.problem_scan_ne_none_iff,
      Expr.problem_scanAll_ne_none_iff]
    simp

end

end

/-! ### What stops the scans of a handler -/

/-- A write of one of the targets that is not of a field and a value. -/
def Expr.IsMalformedWrite (targets : List String) (e : Expr) : Prop :=
  ∃ name ∈ targets, ∃ args, e = .invoke (.ident name) .set args ∧ args.length ≠ 2

/-- A deletion of a field of one of the messages. -/
def Expr.IsDeletion (messages : List String) (e : Expr) : Prop :=
  ∃ name ∈ messages, ∃ args, e = .invoke (.ident name) .delete args

theorem not_refuses_readRule {targets : List String} {c : Expr} :
    ¬ (readRule targets).Refuses c := by
  rintro ⟨name, method, args, found, problem, -, h⟩
  rw [readRule] at h
  split at h <;> cases h

theorem refuses_writeRule_iff {targets messages : List String} {c : Expr} :
    (writeRule targets messages).Refuses c ↔
      c.IsMalformedWrite targets ∨ c.IsDeletion messages := by
  constructor
  · rintro ⟨name, method, args, found, problem, rfl, h⟩
    simp only [writeRule, Bool.and_eq_true, decide_eq_true_eq, List.contains_iff_mem] at h
    split at h
    · next hc =>
      split at h
      · cases h
      · next other =>
        refine .inl ⟨name, hc.2, args, by rw [hc.1], fun two ↦ ?_⟩
        obtain ⟨field, value, rfl⟩ := List.length_eq_two.mp two
        exact other field value rfl
    · split at h
      · next hd => exact .inr ⟨name, hd.2, args, by rw [hd.1]⟩
      · cases h
  · rintro (⟨name, hn, args, rfl, two⟩ | ⟨name, hn, args, rfl⟩)
    · exact ⟨name, .set, args, [], .writeArity name args.length, rfl,
        writeRule_set_of_length_ne hn two⟩
    · exact ⟨name, .delete, args, [], .deletion name, rfl, by simp [writeRule, hn, Scan.stop]⟩

namespace Block

variable {b : Block}

/-- A scan of a handler is stopped exactly by what it does not get past and the handler exposes to
it. -/
theorem problem_scanAll_exprs_ne_none_iff {rule : CallRule α} :
    (Expr.scanAll rule b.exprs).problem ≠ none ↔
      ∃ c, b.Exposes (fun c ↦ ∃ found, rule.Takes c found) c ∧
        (c.IsUnresolved ∨ rule.Refuses c) := by
  rw [Expr.problem_scanAll_ne_none_iff]
  simp only [mem_exprs_iff]
  constructor
  · rintro ⟨whole, evaluated, c, stands, hc⟩
    exact ⟨c, ⟨whole, evaluated, stands⟩, hc⟩
  · rintro ⟨c, ⟨whole, evaluated, stands⟩, hc⟩
    exact ⟨whole, evaluated, c, stands, hc⟩

theorem problem_readScan_ne_none_iff {targets : List String} :
    (readScan targets b.exprs).problem ≠ none ↔
      ∃ c, b.Exposes (Expr.IsRead targets) c ∧ c.IsUnresolved := by
  rw [readScan, problem_scanAll_exprs_ne_none_iff, readRule_takes_eq]
  simp only [not_refuses_readRule, or_false]

theorem problem_writeScan_ne_none_iff {targets messages : List String} :
    (writeScan targets messages b.exprs).problem ≠ none ↔
      ∃ c, b.Exposes (Expr.IsWrite targets) c ∧
        (c.IsUnresolved ∨ c.IsMalformedWrite targets ∨ c.IsDeletion messages) := by
  rw [writeScan, problem_scanAll_exprs_ne_none_iff, writeRule_takes_eq]
  simp only [refuses_writeRule_iff]

end Block

/-- Fields can be collected only if each has a name. -/
theorem exists_collectFields_error_iff {set : String} {fields : List Field} :
    (∃ problem, collectFields set fields = .error problem) ↔ "" ∈ fields := by
  have nameless : fields.any String.isEmpty = true ↔ "" ∈ fields := by
    simp [List.any_eq_true, String.isEmpty_iff]
  rw [← nameless, collectFields]
  split
  · next h => simp [h]
  · next h => simp [h]

/-! ### What stops the aliases -/

mutual

/-- Whether an expression refers to an alias cannot be told only if a call on something other than
a variable stands in it, and then outside of the arguments of all methods. -/
theorem Expr.exists_unresolved_of_refers {isAlias : String → Bool} {problem : Problem}
    (shut : Expr → Prop) : ∀ {e : Expr}, e.refers isAlias = .error problem →
      ∃ c : Expr, c.StandsIn shut e ∧ c.IsUnresolved
  | .binary left op right, h => by
    rw [Expr.refers] at h
    -- The right operand is looked at only if the left one refers to no alias.
    split at h
    · obtain ⟨c, stands, hc⟩ := Expr.exists_unresolved_of_refers shut h
      exact ⟨c, .right stands, hc⟩
    · obtain ⟨c, stands, hc⟩ := Expr.exists_unresolved_of_refers shut h
      exact ⟨c, .left stands, hc⟩
  | .call name args, h => by
    obtain ⟨arg, ha, c, stands, hc⟩ := Expr.exists_unresolved_of_anyRefers shut h
    exact ⟨c, .operand ha stands, hc⟩
  | .invoke object method args, h => by
    -- Nothing but the object is looked at, so the call itself is the unresolved one.
    refine ⟨_, .self, object, method, args, rfl, ?_⟩
    cases object with
    | ident name => cases h
    | literal | binary | call | invoke | error => rfl

theorem Expr.exists_unresolved_of_anyRefers {isAlias : String → Bool} {problem : Problem}
    (shut : Expr → Prop) : ∀ {es : List Expr}, Expr.anyRefers isAlias es = .error problem →
      ∃ e ∈ es, ∃ c : Expr, c.StandsIn shut e ∧ c.IsUnresolved
  | e :: rest, h => by
    rw [Expr.anyRefers] at h
    split at h
    · obtain ⟨e, he, hc⟩ := Expr.exists_unresolved_of_anyRefers shut h
      exact ⟨e, .tail _ he, hc⟩
    · exact ⟨e, .head _, Expr.exists_unresolved_of_refers shut h⟩

end

namespace Aliases

theorem exists_refers_of_follow {a : Aliases} {xs : List (String × Expr)} {problem : Problem}
    (h : (a.follow xs).2 = some problem) :
    ∃ x ∈ xs, ∃ isAlias, x.2.refers isAlias = .error problem := by
  induction xs generalizing a with
  | nil => cases h
  | cons x rest ih =>
    obtain ⟨name, value⟩ := x
    rw [follow] at h
    cases ha : a.assign name value with
    | ok b =>
      rw [ha] at h
      obtain ⟨x, hx, rest⟩ := ih h
      exact ⟨x, .tail _ hx, rest⟩
    | error other =>
      rw [ha] at h
      obtain rfl : other = problem := Option.some.inj h
      refine ⟨(name, value), .head _, a.has, ?_⟩
      rw [assign] at ha
      cases hr : value.refers a.has with
      | ok refers =>
        rw [hr] at ha
        cases ha
      | error other =>
        rw [hr] at ha
        cases ha
        rfl

end Aliases

mutual

private theorem Stmt.mem_exprs_of_mem_assigns {x : String × Expr} :
    ∀ {s : Stmt}, x ∈ s.assigns → x.2 ∈ s.exprs
  | .assign name value, h => by
    rw [List.mem_singleton.mp h]
    exact .head _
  | .choose subject arms, h => .tail _ (Stmt.mem_armExprs_of_mem_armAssigns h)

private theorem Stmt.mem_blockExprs_of_mem_blockAssigns {x : String × Expr} :
    ∀ {b : List Stmt}, x ∈ Stmt.blockAssigns b → x.2 ∈ Stmt.blockExprs b
  | s :: rest, h => by
    rcases List.mem_append.mp h with h | h
    · exact List.mem_append_left _ (Stmt.mem_exprs_of_mem_assigns h)
    · exact List.mem_append_right _ (Stmt.mem_blockExprs_of_mem_blockAssigns h)

private theorem Stmt.mem_armExprs_of_mem_armAssigns {x : String × Expr} :
    ∀ {arms : List (Expr × List Stmt)}, x ∈ Stmt.armAssigns arms → x.2 ∈ Stmt.armExprs arms
  | (pattern, body) :: rest, h => by
    refine .tail _ ?_
    rcases List.mem_append.mp h with h | h
    · exact List.mem_append_left _ (Stmt.mem_blockExprs_of_mem_blockAssigns h)
    · exact List.mem_append_right _ (Stmt.mem_armExprs_of_mem_armAssigns h)

end

namespace Block

/-- The values that a block assigns are among the expressions that it evaluates. -/
theorem evaluates_of_mem_assigns {b : Block} {x : String × Expr} (h : x ∈ b.assigns) :
    b.Evaluates x.2 :=
  mem_exprs_iff.mp (Stmt.mem_blockExprs_of_mem_blockAssigns h)

/-- The aliases of a message in a block, those found up to the first assignment that cannot be
analysed if there is one. -/
def aliases (message : String) (b : Block) : Aliases :=
  ((Aliases.ofMessage message).follow b.assigns).1

theorem aliases_of_ofBlock {message : String} {b : Block} {a : Aliases}
    (h : Aliases.ofBlock message b = .ok a) : b.aliases message = a := by
  rw [aliases, Aliases.follows_of_ofBlock h]

/-- Aliases cannot be followed only if a call on something other than a variable stands outside of
the arguments of all methods. -/
theorem exists_unresolved_of_ofBlock {message : String} {b : Block} {problem : Problem}
    (h : Aliases.ofBlock message b = .error problem) (shut : Expr → Prop) :
    ∃ c, b.Exposes shut c ∧ c.IsUnresolved := by
  have stopped : ((Aliases.ofMessage message).follow b.assigns).2 = some problem := by
    rw [Aliases.ofBlock] at h
    split at h
    · next followed =>
      cases h
      rw [followed]
    · cases h
  obtain ⟨x, hx, isAlias, hr⟩ := Aliases.exists_refers_of_follow stopped
  obtain ⟨c, stands, hc⟩ := Expr.exists_unresolved_of_refers shut hr
  exact ⟨c, ⟨x.2, evaluates_of_mem_assigns hx, stands⟩, hc⟩

/-! ### Refused handlers -/

/-- What the analysis of a handler is refused for. -/
inductive Refused (message : String) (b : Block) : Prop where
  /-- A call on something other than a variable, not among the arguments of a read. -/
  | unread {c : Expr} (hc : c.IsUnresolved)
      (exposed : b.Exposes (Expr.IsRead (b.aliases message).names) c)
  /-- A call on something other than a variable, not among the arguments of a write. -/
  | unwritten {c : Expr} (hc : c.IsUnresolved)
      (exposed : b.Exposes (Expr.IsWrite (b.aliases message).names) c)
  /-- A deletion on a name of the message, not among the arguments of a write. -/
  | deletion {c : Expr} (hc : c.IsDeletion (b.aliases message).renames)
      (exposed : b.Exposes (Expr.IsWrite (b.aliases message).names) c)
  | malformed {c : Expr} (hc : c.IsMalformedWrite (b.aliases message).names)
      (exposed : b.Exposes (Expr.IsWrite (b.aliases message).names) c)
  | namelessRead {name : String} {args : List Expr} {arg : Expr}
      (hn : name ∈ (b.aliases message).names) (ha : arg ∈ args) (nameless : arg.flatName = "")
      (exposed : b.Exposes (Expr.IsRead (b.aliases message).names)
        (.invoke (.ident name) .get args))
  | namelessWrite {name : String} {field value : Expr}
      (hn : name ∈ (b.aliases message).names) (nameless : field.flatName = "")
      (exposed : b.Exposes (Expr.IsWrite (b.aliases message).names)
        (.invoke (.ident name) .set [field, value]))

variable {element : String} {t : Traffic} {options : AnalysisOptions} {b : Block}

/-- An analysed handler is not refused. -/
theorem Analysed.not_refused {aliases : Aliases} {effects : PathEffects}
    (h : b.Analysed element t options aliases effects) : ¬ b.Refused options.message := by
  obtain ⟨reads, scannedReads, collectedReads⟩ := h.reads
  obtain ⟨writes, scannedWrites, collectedWrites⟩ := h.writes
  have readThrough : ¬ (readScan aliases.names b.exprs).problem ≠ none := by
    simp [scannedReads]
  have writtenThrough : ¬ (writeScan aliases.names aliases.renames b.exprs).problem ≠ none := by
    simp [scannedWrites]
  rw [problem_readScan_ne_none_iff] at readThrough
  rw [problem_writeScan_ne_none_iff] at writtenThrough
  have found := aliases_of_ofBlock h.found
  intro refused
  cases refused with
  | unread hc exposed => exact readThrough ⟨_, found ▸ exposed, hc⟩
  | unwritten hc exposed => exact writtenThrough ⟨_, found ▸ exposed, .inl hc⟩
  | deletion hc exposed =>
    exact writtenThrough ⟨_, found ▸ exposed, .inr (.inr (found ▸ hc))⟩
  | malformed hc exposed =>
    exact writtenThrough ⟨_, found ▸ exposed, .inr (.inl (found ▸ hc))⟩
  | namelessRead hn ha nameless exposed =>
    have read := (mem_allReadFields_of_scan scannedReads).mpr
      ⟨_, found ▸ hn, _, List.mem_map.mpr ⟨_, ha, nameless⟩, found ▸ exposed⟩
    obtain ⟨problem, hp⟩ := exists_collectFields_error_iff.mpr read
    cases collectedReads.symm.trans hp
  | namelessWrite hn nameless exposed =>
    have written := (mem_allWrittenFields_of_scan scannedWrites).mpr
      ⟨_, found ▸ hn, _, _, nameless, found ▸ exposed⟩
    obtain ⟨problem, hp⟩ := exists_collectFields_error_iff.mpr written
    cases collectedWrites.symm.trans hp

/-- A handler that has no effects is refused. -/
theorem refused_of_activeEffects {problem : Problem}
    (h : b.activeEffects element t options = .error problem) : b.Refused options.message := by
  rw [activeEffects] at h
  rcases eq_error_or_of_bind h with ha | ⟨aliases, ha, h⟩
  · obtain ⟨c, exposed, hc⟩ := exists_unresolved_of_ofBlock ha _
    exact .unread hc exposed
  obtain rfl := aliases_of_ofBlock ha
  rcases eq_error_or_of_bind h with hr | ⟨reads, hr, h⟩
  · obtain ⟨c, exposed, hc⟩ :=
      problem_readScan_ne_none_iff.mp (Scan.problem_ne_none_of_toExcept hr)
    exact .unread hc exposed
  rcases eq_error_or_of_bind h with hw | ⟨writes, hw, h⟩
  · obtain ⟨c, exposed, hc | hc | hc⟩ :=
      problem_writeScan_ne_none_iff.mp (Scan.problem_ne_none_of_toExcept hw)
    · exact .unwritten hc exposed
    · exact .malformed hc exposed
    · exact .deletion hc exposed
  rcases eq_error_or_of_bind h with hread | ⟨read, hread, h⟩
  · obtain ⟨name, hn, args, nameless, exposed⟩ :=
      (mem_allReadFields_of_scan (exists_of_toExcept hr)).mp
        (exists_collectFields_error_iff.mp ⟨_, hread⟩)
    obtain ⟨arg, ha, nameless⟩ := List.mem_map.mp nameless
    exact .namelessRead hn ha nameless exposed
  rcases eq_error_or_of_bind h with hwrite | ⟨write, hwrite, h⟩
  · obtain ⟨name, hn, field, value, nameless, exposed⟩ :=
      (mem_allWrittenFields_of_scan (exists_of_toExcept hw)).mp
        (exists_collectFields_error_iff.mp ⟨_, hwrite⟩)
    exact .namelessWrite hn nameless exposed
  · cases h

/-- A handler has no effects exactly if it is refused. -/
theorem exists_effects_error_iff :
    (∃ problem, b.effects element t options = .error problem) ↔ b.Refused options.message := by
  cases he : b.effects element t options with
  | ok effects =>
    obtain ⟨aliases, analysed⟩ := exists_analysed he
    simp [analysed.not_refused]
  | error problem =>
    rw [effects] at he
    split at he
    · cases he
    · simp [refused_of_activeEffects he]

end Block

namespace Program

variable {p : Program} {options : AnalysisOptions}

theorem exists_effectsOn_error_iff {t : Traffic} :
    (∃ error, p.effectsOn options t = .error error) ↔ (p.handler t).Refused options.message := by
  rw [← Block.exists_effects_error_iff, effectsOn]
  cases (p.handler t).effects p.name t options <;> simp

/-- An element has no profile exactly if its state cannot be analysed or one of its handlers is
refused. So a call on something other than a variable is missed only among the arguments of a read
and of a write at once, and the deletion of a field of the message only among those of a write. -/
theorem exists_profile_error_iff : (∃ error, p.profile options = .error error) ↔
    (∃ problem, p.stateNeeds = .error problem) ∨ ∃ t, (p.handler t).Refused options.message := by
  have either : (∃ t, (p.handler t).Refused options.message) ↔
      (∃ error, p.effectsOn options .request = .error error) ∨
        ∃ error, p.effectsOn options .response = .error error := by
    rw [exists_effectsOn_error_iff, exists_effectsOn_error_iff]
    constructor
    · rintro ⟨t, refused⟩
      cases t with
      | request => exact .inl refused
      | response => exact .inr refused
    · rintro (refused | refused)
      · exact ⟨.request, refused⟩
      · exact ⟨.response, refused⟩
  rw [either, profile]
  cases p.stateNeeds with
  | error problem => simp [bind, Except.bind]
  | ok state =>
    cases p.effectsOn options .request <;> cases p.effectsOn options .response <;>
      simp [bind, Except.bind, pure, Except.pure]

/-- A call on something other than a variable that is written to a field in the argument of a read,
and a deletion of a field of the message that is written to another field, are not refused. -/
theorem profile_of_hidden_calls :
    let unresolved := Expr.invoke (.call "lookup" []) .get [.literal (.text "b")]
    let deletion := Expr.invoke (.ident "rpc") .delete [.literal (.text "b")]
    let set (value : Expr) := Expr.invoke (.ident "rpc") .set [.literal (.text "a"), value]
    let p : Program := ⟨"lookup", [], [],
      [.assign "v" (.invoke (.ident "rpc") .get [set unresolved]), .send (.ident "rpc") .down],
      [.eval (set deletion), .send (.ident "rpc") .up]⟩
    unresolved.IsUnresolved ∧ (p.handler .request).Exposes (fun _ ↦ False) unresolved ∧
      deletion.IsDeletion ["rpc"] ∧ (p.handler .response).Exposes (fun _ ↦ False) deletion ∧
      p.profile .standard = .ok ⟨.stateless,
        ⟨⟨.only ["rpc.SET(a,lookup().GET(b))"], .only ["a"], .empty, false, false, false, false⟩,
          ⟨.empty, .only ["a"], .empty, false, false, false, false⟩⟩⟩ := by
  intro unresolved deletion set p
  have requested : (p.handler .request).Exposes (fun _ ↦ False) unresolved :=
    ⟨_, .assigned, .argument id (.head _) (.argument id (.tail _ (.head _)) .self)⟩
  have responded : (p.handler .response).Exposes (fun _ ↦ False) deletion :=
    ⟨_, .alone, .argument id (.tail _ (.head _)) .self⟩
  exact ⟨⟨_, _, _, rfl, rfl⟩, requested, ⟨"rpc", .head _, _, rfl⟩, responded, by decide +kernel⟩

end Program

end ChainPlan
