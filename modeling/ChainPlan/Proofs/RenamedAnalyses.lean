import ChainPlan.Proofs.Accesses
import ChainPlan.Proofs.Aliasing
import ChainPlan.Proofs.Renaming
import Mathlib.Data.List.Forall2

/-! # Analyses of renamed handlers

A renaming of the variables of a handler that keeps the message and gives no two names one carries
over to what the analyses find: the aliases are renamed, and so are the targets that are read and
written. A problem that stops an analysis stays of its kind, whatever names are in it.
-/

namespace ChainPlan

/-! ### Outcomes up to names -/

/-- The problem without the names in it. -/
def Problem.anonymous : Problem → Problem
  | .writeArity _ count => .writeArity "" count
  | .emptyField set => .emptyField set
  | .unknownConsistency name given => .unknownConsistency name given
  | .unresolvable method _ => .unresolvable method ""
  | .deletion _ => .deletion ""

/-- The error without the names of variables in it. -/
def SummaryError.anonymous : SummaryError → SummaryError
  | .handler element traffic cause => .handler element traffic cause.anonymous
  | .state element cause => .state element cause.anonymous

/-- Two outcomes are alike: related results, or problems that differ in names only. -/
inductive Alike {α β : Type} (R : α → β → Prop) : Except Problem α → Except Problem β → Prop where
  | ok {a : α} {b : β} (h : R a b) : Alike R (.ok a) (.ok b)
  | error {p q : Problem} (h : p.anonymous = q.anonymous) : Alike R (.error p) (.error q)

namespace Alike

variable {α β γ δ : Type} {R : α → β → Prop} {S : γ → δ → Prop}

theorem bind {x : Except Problem α} {y : Except Problem β} {f : α → Except Problem γ}
    {g : β → Except Problem δ} (h : Alike R x y)
    (hf : ∀ a b, x = .ok a → R a b → Alike S (f a) (g b)) : Alike S (x >>= f) (y >>= g) := by
  cases h with
  | ok h => exact hf _ _ rfl h
  | error h => exact .error h

theorem refl (x : Except Problem α) : Alike Eq x x := by
  cases x with
  | ok a => exact .ok rfl
  | error p => exact .error rfl

theorem map {x : Except Problem α} {y : Except Problem β} {f : α → γ} {g : β → δ}
    (h : Alike R x y) (hf : ∀ a b, R a b → S (f a) (g b)) : Alike S (x.map f) (y.map g) := by
  cases h with
  | ok h => exact .ok (hf _ _ h)
  | error h => exact .error h

end Alike

/-! ### Aliases -/

section

variable {ρ : String → String} {isAlias renamed : String → Bool}

private theorem alike_or {x y x' y' : Except Problem Bool} :
    Alike Eq x x' → Alike Eq y y' → Alike Eq
      (match x with
        | .ok false => y
        | decided => decided)
      (match x' with
        | .ok false => y'
        | decided => decided) := by
  intro hx hy
  cases hx with
  | error h => exact .error h
  | @ok a b h =>
    subst h
    cases a with
    | false => exact hy
    | true => exact .ok rfl

mutual

/-- A renamed expression refers to a renamed alias exactly if the expression refers to the alias. -/
theorem Expr.refers_rename (h : ∀ n, renamed (ρ n) = isAlias n) :
    ∀ e : Expr, Alike Eq (e.refers isAlias) ((e.rename ρ).refers renamed)
  | .ident name => .ok (h name).symm
  | .literal _ | .error _ => .ok rfl
  | .binary left _ right => alike_or (Expr.refers_rename h left) (Expr.refers_rename h right)
  | .call _ args => Expr.anyRefers_renameAll h args
  | .invoke (.ident name) method args => by
    refine .ok ?_
    simp only [h]
  | .invoke (.literal _) _ _ | .invoke (.binary _ _ _) _ _ | .invoke (.call _ _) _ _
  | .invoke (.invoke _ _ _) _ _ | .invoke (.error _) _ _ => .error rfl

theorem Expr.anyRefers_renameAll (h : ∀ n, renamed (ρ n) = isAlias n) : ∀ es : List Expr,
    Alike Eq (Expr.anyRefers isAlias es) (Expr.anyRefers renamed (Expr.renameAll ρ es))
  | [] => .ok rfl
  | e :: rest => alike_or (Expr.refers_rename h e) (Expr.anyRefers_renameAll h rest)

end

namespace Aliases

/-- The aliases with their names changed. -/
def rename (ρ : String → String) (a : Aliases) : Aliases := ⟨a.names.map ρ, a.derived.map ρ⟩

theorem has_rename (hρ : ρ.Injective) (a : Aliases) (name : String) :
    (a.rename ρ).has (ρ name) = a.has name := by
  rw [Bool.eq_iff_iff, has_iff, has_iff, rename, List.mem_map_of_injective hρ]

theorem assign_rename (hρ : ρ.Injective) (a : Aliases) (name : String) (value : Expr) :
    Alike (fun b b' ↦ b' = b.rename ρ) (a.assign name value)
      ((a.rename ρ).assign (ρ name) (value.rename ρ)) := by
  refine (Expr.refers_rename (a.has_rename hρ) value).map fun refers _ h ↦ ?_
  subst h
  rw [has_rename hρ]
  split
  · simp only [add, rename, Expr.isSome_ident?_rename, List.map_append, List.map_cons,
      List.map_nil]
    split <;> simp
  · rfl

theorem renames_rename (hρ : ρ.Injective) (a : Aliases) :
    (a.rename ρ).renames = a.renames.map ρ := by
  simp [renames, rename, List.filter_map, Function.comp_def, hρ.eq_iff]

/-- Following the assignments of a block is a fold. -/
theorem ofBlock_eq_foldlM (message : String) (b : Block) :
    ofBlock message b = b.assigns.foldlM (fun a x ↦ a.assign x.1 x.2) (ofMessage message) := by
  rw [ofBlock]
  generalize ofMessage message = a
  induction b.assigns generalizing a with
  | nil => rfl
  | cons x rest ih =>
    rw [follow, List.foldlM_cons]
    cases a.assign x.1 x.2 with
    | error problem => rfl
    | ok next => exact ih next

private theorem foldlM_rename (hρ : ρ.Injective) (a : Aliases) (xs : List (String × Expr)) :
    Alike (fun b b' ↦ b' = b.rename ρ) (xs.foldlM (fun b x ↦ b.assign x.1 x.2) a)
      ((xs.map fun x ↦ (ρ x.1, x.2.rename ρ)).foldlM (fun b x ↦ b.assign x.1 x.2)
        (a.rename ρ)) := by
  induction xs generalizing a with
  | nil => exact .ok rfl
  | cons x rest ih =>
    rw [List.map_cons, List.foldlM_cons, List.foldlM_cons]
    refine (a.assign_rename hρ x.1 x.2).bind fun b b' _ h ↦ ?_
    subst h
    exact ih b

/-- The aliases of a renamed block are those of the block, renamed. -/
theorem ofBlock_rename {message : String} (hρ : ρ.Injective) (hm : ρ message = message)
    (b : Block) :
    Alike (fun a a' ↦ a' = a.rename ρ) (ofBlock message b) (ofBlock message (b.rename ρ)) := by
  have start : ofMessage message = (ofMessage message).rename ρ := by
    simp [ofMessage, rename, hm]
  have follow := foldlM_rename hρ (ofMessage message) b.assigns
  rwa [← start, ← Block.assigns_rename, ← ofBlock_eq_foldlM, ← ofBlock_eq_foldlM] at follow

end Aliases

end

/-! ### Scans -/

namespace Scan

variable {α : Type} {R : α → α → Prop}

/-- Two scans are alike: what they find is related one by one, and problems differ in names only. -/
structure Alike (R : α → α → Prop) (a b : Scan α) : Prop where
  found : List.Forall₂ R a.found b.found
  problem : a.problem.map Problem.anonymous = b.problem.map Problem.anonymous

theorem alike_nothing : Alike R nothing nothing := ⟨.nil, rfl⟩

theorem Alike.andThen {a b a' b' : Scan α} (ha : a.Alike R a') (hb : b.Alike R b') :
    (a.andThen b).Alike R (a'.andThen b') := by
  obtain ⟨found, problem⟩ := a
  obtain ⟨found', problem'⟩ := a'
  cases problem <;> cases problem'
  · exact ⟨List.rel_append ha.found hb.found, hb.problem⟩
  · cases ha.problem
  · cases ha.problem
  · exact ha

theorem Alike.toExcept {a b : Scan α} (h : a.Alike R b) :
    ChainPlan.Alike (List.Forall₂ R) a.toExcept b.toExcept := by
  obtain ⟨found, problem⟩ := a
  obtain ⟨found', problem'⟩ := b
  cases problem <;> cases problem'
  · exact .ok h.found
  · cases h.problem
  · cases h.problem
  · exact .error (Option.some.inj h.problem)

end Scan

section

variable {α : Type} {R : α → α → Prop} {ρ : String → String} {rule renamed : CallRule α}

/-- A rule answers for a call: it takes the call or stops there. -/
def CallRule.Answers (rule : CallRule α) (c : Expr) : Prop :=
  ∃ name method args, c = .invoke (.ident name) method args ∧ (rule method name args).isSome

mutual

/-- A scan of a renamed expression is alike if the rules are at every call that it comes to. -/
theorem Expr.scan_rename : ∀ {e : Expr},
    (∀ name method args, (Expr.invoke (.ident name) method args).StandsIn rule.Answers e →
      Option.Rel (Scan.Alike R) (rule method name args)
        (renamed method (ρ name) (Expr.renameAll ρ args))) →
    (e.scan rule).Alike R ((e.rename ρ).scan renamed)
  | .ident _, _ | .literal _, _ => Scan.alike_nothing
  | .binary left _ right, h =>
    (Expr.scan_rename fun name method args hs ↦ h name method args (.left hs)).andThen
      (Expr.scan_rename fun name method args hs ↦ h name method args (.right hs))
  | .call _ args, h =>
    Expr.scanAll_rename fun name method params e he hs ↦ h name method params (.operand he hs)
  | .invoke (.ident name) method args, h => by
    have self := h name method args .self
    simp only [Expr.scan, Expr.rename, Expr.target]
    cases hr : rule method name args with
    | some taken =>
      rw [hr] at self
      cases hs : renamed method (ρ name) (Expr.renameAll ρ args) with
      | none => simp [hs] at self
      | some taken' => simpa [hs] using self
    | none =>
      rw [hr] at self
      -- The scan goes on into the arguments, so the call is not shut.
      have leaves : ¬ rule.Answers (.invoke (.ident name) method args) := by
        rintro ⟨_, _, _, he, hs⟩
        cases he
        simp [hr] at hs
      cases hs : renamed method (ρ name) (Expr.renameAll ρ args) with
      | some taken => simp [hs] at self
      | none =>
        exact Expr.scanAll_rename fun name method params e he hs ↦
          h name method params (.argument leaves he hs)
  | .invoke (.literal _) _ _, _ | .invoke (.binary _ _ _) _ _, _ | .invoke (.call _ _) _ _, _
  | .invoke (.invoke _ _ _) _ _, _ | .invoke (.error _) _ _, _ => ⟨.nil, rfl⟩
  | .error payload, h =>
    Expr.scan_rename (e := payload) fun name method args hs ↦ h name method args (.payload hs)

theorem Expr.scanAll_rename : ∀ {es : List Expr},
    (∀ name method args, ∀ e ∈ es,
      (Expr.invoke (.ident name) method args).StandsIn rule.Answers e →
      Option.Rel (Scan.Alike R) (rule method name args)
        (renamed method (ρ name) (Expr.renameAll ρ args))) →
    (Expr.scanAll rule es).Alike R (Expr.scanAll renamed (Expr.renameAll ρ es))
  | [], _ => Scan.alike_nothing
  | _ :: _, h =>
    (Expr.scan_rename fun name method args hs ↦ h name method args _ (.head _) hs).andThen
      (Expr.scanAll_rename fun name method args a ha hs ↦ h name method args a (.tail _ ha) hs)

end

theorem CallRule.Takes.answers {c : Expr} {found : List α} (h : rule.Takes c found) :
    rule.Answers c := by
  obtain ⟨name, method, args, rfl, hr⟩ := h
  exact ⟨name, method, args, rfl, by simp [hr]⟩

end

/-! ### Reads and writes -/

section

variable {ρ : String → String}

/-- A read after a renaming: it is of the renamed target, and of the same fields. -/
def FieldRead.Renamed (ρ : String → String) (r r' : FieldRead) : Prop :=
  r'.target = ρ r.target ∧ r'.fields = r.fields

/-- A write after a renaming: it is to the same field of the renamed target. -/
def FieldWrite.Renamed (ρ : String → String) (w w' : FieldWrite) : Prop :=
  w'.target = ρ w.target ∧ w'.field = w.field

/-- The same fields are read of the renamed targets, if the texts of what is read stay the same. -/
theorem readScan_rename {names : List String} {es : List Expr} (hρ : ρ.Injective)
    (h : ∀ e ∈ es, ∀ name ∈ names, ∀ args,
      (Expr.invoke (.ident name) .get args).StandsIn (Expr.IsRead names) e →
        ∀ arg ∈ args, (arg.rename ρ).flatName = arg.flatName) :
    (readScan names es).Alike (FieldRead.Renamed ρ)
      (readScan (names.map ρ) (es.map (Expr.rename ρ))) := by
  rw [readScan, readScan, ← Expr.renameAll_eq_map]
  refine Expr.scanAll_rename fun name method args e he stands ↦ ?_
  by_cases taken : method = .get ∧ name ∈ names
  · obtain ⟨rfl, hn⟩ := taken
    have reads := h e he name hn args <| stands.mono fun c ⟨n, hm, params, hc⟩ ↦
      (readRule_takes_iff.mpr ⟨n, hm, params, hc, rfl⟩).answers
    have fields : Expr.flatNames (Expr.renameAll ρ args) = Expr.flatNames args := by
      rw [Expr.flatNames_eq_map, Expr.flatNames_eq_map, Expr.renameAll_eq_map, List.map_map]
      exact List.map_congr_left reads
    have hr : readRule names .get name args = some (.one ⟨name, Expr.flatNames args⟩) := by
      simp [readRule, hn]
    have hr' : readRule (names.map ρ) .get (ρ name) (Expr.renameAll ρ args) =
        some (.one ⟨ρ name, Expr.flatNames args⟩) := by
      simp [readRule, hn, hρ.eq_iff, fields]
    rw [hr, hr']
    exact .some ⟨.cons ⟨rfl, rfl⟩ .nil, rfl⟩
  · have hr : readRule names method name args = none := by
      simpa [readRule] using taken
    have hr' : readRule (names.map ρ) method (ρ name) (Expr.renameAll ρ args) = none := by
      simpa [readRule, hρ.eq_iff] using taken
    rw [hr, hr']
    exact .none

/-- The same fields are written of the renamed targets, if the texts of what is written to stay the
same; the texts of values need not. -/
theorem writeScan_rename {names messages : List String} {es : List Expr} (hρ : ρ.Injective)
    (h : ∀ e ∈ es, ∀ name ∈ names, ∀ field value,
      (Expr.invoke (.ident name) .set [field, value]).StandsIn (Expr.IsWrite names) e →
        (field.rename ρ).flatName = field.flatName) :
    (writeScan names messages es).Alike (FieldWrite.Renamed ρ)
      (writeScan (names.map ρ) (messages.map ρ) (es.map (Expr.rename ρ))) := by
  rw [writeScan, writeScan, ← Expr.renameAll_eq_map]
  refine Expr.scanAll_rename fun name method args e he stands ↦ ?_
  by_cases taken : method = .set ∧ name ∈ names
  · obtain ⟨rfl, hn⟩ := taken
    by_cases hl : args.length = 2
    · obtain ⟨field, value, rfl⟩ := List.length_eq_two.mp hl
      have keeps := h e he name hn field value <| stands.mono fun c ⟨n, hm, f, v, hc⟩ ↦
        (writeRule_takes_iff.mpr ⟨n, hm, f, v, hc, rfl⟩).answers
      have hr : writeRule names messages .set name [field, value] =
          some (.one ⟨name, field.flatName, value.flatName⟩) := by
        simp [writeRule, hn]
      have hr' : writeRule (names.map ρ) (messages.map ρ) .set (ρ name)
          [field.rename ρ, value.rename ρ] =
            some (.one ⟨ρ name, field.flatName, (value.rename ρ).flatName⟩) := by
        simp [writeRule, hn, hρ.eq_iff, keeps]
      rw [hr, Expr.renameAll_eq_map, List.map_cons, List.map_cons, List.map_nil, hr']
      exact .some ⟨.cons ⟨rfl, rfl⟩ .nil, rfl⟩
    · rw [writeRule_set_of_length_ne hn hl,
        writeRule_set_of_length_ne (List.mem_map_of_mem hn) (by simpa using hl)]
      exact .some ⟨.nil, by simp [Scan.stop, Problem.anonymous]⟩
  · by_cases deleted : method = .delete ∧ name ∈ messages
    · obtain ⟨rfl, hn⟩ := deleted
      have hr : writeRule names messages .delete name args = some (.stop (.deletion name)) := by
        simp [writeRule, hn]
      have hr' : writeRule (names.map ρ) (messages.map ρ) .delete (ρ name)
          (Expr.renameAll ρ args) = some (.stop (.deletion (ρ name))) := by
        simp [writeRule, hn, hρ.eq_iff]
      rw [hr, hr']
      exact .some ⟨.nil, rfl⟩
    · have hr : writeRule names messages method name args = none := by
        simp [writeRule, taken, deleted]
      have hr' : writeRule (names.map ρ) (messages.map ρ) method (ρ name)
          (Expr.renameAll ρ args) = none := by
        simp [writeRule, hρ.eq_iff, taken, deleted]
      rw [hr, hr']
      exact .none

/-! ### Field sets -/

theorem map_foldl_addNew (hρ : ρ.Injective) (xs ys : List String) :
    (ys.foldl addNew xs).map ρ = (ys.map ρ).foldl addNew (xs.map ρ) := by
  induction ys generalizing xs with
  | nil => rfl
  | cons y ys ih =>
    have step : (addNew xs y).map ρ = addNew (xs.map ρ) (ρ y) := by
      simp only [addNew, List.mem_map_of_injective hρ]
      split <;> simp
    rw [List.foldl_cons, List.map_cons, List.foldl_cons, ih, step]

theorem readFields_rename (hρ : ρ.Injective) {reads reads' : List FieldRead}
    (h : List.Forall₂ (FieldRead.Renamed ρ) reads reads') (target : String) :
    readFields reads' (ρ target) = readFields reads target := by
  unfold readFields
  induction h with
  | nil => rfl
  | @cons r r' rest rest' hr _ ih =>
    simp only [List.filter_cons, hr.1, hρ.eq_iff]
    split
    · rw [List.flatMap_cons, List.flatMap_cons, hr.2, ih]
    · exact ih

theorem writtenFields_rename (hρ : ρ.Injective) {writes writes' : List FieldWrite}
    (h : List.Forall₂ (FieldWrite.Renamed ρ) writes writes') (target : String) :
    (writtenFields writes' (ρ target)).map Prod.fst =
      (writtenFields writes target).map Prod.fst := by
  unfold writtenFields
  induction h with
  | nil => rfl
  | @cons w w' rest rest' hw _ ih =>
    simp only [List.filter_cons, hw.1, hρ.eq_iff]
    split
    · rw [List.map_cons, List.map_cons, List.map_cons, List.map_cons, hw.2, ih]
    · exact ih

theorem allReadFields_rename (hρ : ρ.Injective) (names : List String)
    {reads reads' : List FieldRead} (h : List.Forall₂ (FieldRead.Renamed ρ) reads reads') :
    allReadFields (names.map ρ) reads' = allReadFields names reads := by
  have targets := map_foldl_addNew hρ [] names
  rw [allReadFields, allReadFields, ← List.map_nil (f := ρ), ← targets, List.flatMap_map]
  exact List.flatMap_congr fun target _ ↦ readFields_rename hρ h target

theorem allWrittenFields_rename (hρ : ρ.Injective) (names : List String)
    {writes writes' : List FieldWrite}
    (h : List.Forall₂ (FieldWrite.Renamed ρ) writes writes') :
    allWrittenFields (names.map ρ) writes' = allWrittenFields names writes := by
  have targets := map_foldl_addNew hρ [] names
  rw [allWrittenFields, allWrittenFields, ← List.map_nil (f := ρ), ← targets, List.flatMap_map]
  exact List.flatMap_congr fun target _ ↦ writtenFields_rename hρ h target

end

end ChainPlan
