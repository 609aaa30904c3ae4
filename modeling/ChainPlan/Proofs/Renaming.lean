import ChainPlan.Handler.Name
import ChainPlan.Handler.Walk
import Mathlib.Logic.Equiv.Basic

/-! # Renaming of variables

A renaming gives the variables of a handler other names and leaves all else as it is: functions,
methods, literals, directions. What the analyses look at in a renamed handler is what they look at
in the handler, renamed. To exchange two names is to replace the one by the other where the other
does not occur.
-/

namespace ChainPlan

variable {ρ σ : String → String}

/-! ### Expressions -/

namespace Expr

mutual

/-- The expression with its variables renamed. -/
def rename (ρ : String → String) : Expr → Expr
  | .ident name => .ident (ρ name)
  | .literal value => .literal value
  | .binary left op right => .binary (left.rename ρ) op (right.rename ρ)
  | .call name args => .call name (renameAll ρ args)
  | .invoke object method args => .invoke (object.rename ρ) method (renameAll ρ args)
  | .error payload => .error (payload.rename ρ)

/-- The expressions with their variables renamed. -/
def renameAll (ρ : String → String) : List Expr → List Expr
  | [] => []
  | e :: rest => e.rename ρ :: renameAll ρ rest

end

mutual

/-- The variables of an expression, as often as they stand in it. -/
def idents : Expr → List String
  | .ident name => [name]
  | .literal _ => []
  | .binary left _ right => left.idents ++ right.idents
  | .call _ args => identsOfAll args
  | .invoke object _ args => object.idents ++ identsOfAll args
  | .error payload => payload.idents

/-- The variables of expressions. -/
def identsOfAll : List Expr → List String
  | [] => []
  | e :: rest => e.idents ++ identsOfAll rest

end

theorem renameAll_eq_map (ρ : String → String) (es : List Expr) :
    renameAll ρ es = es.map (rename ρ) := by
  induction es with
  | nil => rfl
  | cons e rest ih => rw [renameAll, ih, List.map_cons]

@[simp] theorem length_renameAll (ρ : String → String) (es : List Expr) :
    (renameAll ρ es).length = es.length := by
  rw [renameAll_eq_map, List.length_map]

mutual

/-- Renamings that agree on the variables of an expression rename it alike. -/
theorem rename_congr : ∀ {e : Expr}, (∀ n ∈ e.idents, ρ n = σ n) → e.rename ρ = e.rename σ
  | .ident name, h => by rw [rename, rename, h name (.head _)]
  | .literal _, _ => rfl
  | .binary left op right, h => by
    obtain ⟨hl, hr⟩ := List.forall_mem_append.mp h
    rw [rename, rename, rename_congr hl, rename_congr hr]
  | .call name args, h => by rw [rename, rename, renameAll_congr h]
  | .invoke object method args, h => by
    obtain ⟨ho, ha⟩ := List.forall_mem_append.mp h
    rw [rename, rename, rename_congr ho, renameAll_congr ha]
  | .error payload, h => by rw [rename, rename, rename_congr (e := payload) h]

theorem renameAll_congr :
    ∀ {es : List Expr}, (∀ n ∈ identsOfAll es, ρ n = σ n) → renameAll ρ es = renameAll σ es
  | [], _ => rfl
  | e :: rest, h => by
    obtain ⟨he, hr⟩ := List.forall_mem_append.mp h
    rw [renameAll, renameAll, rename_congr he, renameAll_congr hr]

end

mutual

/-- A renaming of variables keeps the functions that are called. -/
theorem callees_rename (ρ : String → String) : ∀ e : Expr, (e.rename ρ).callees = e.callees
  | .ident _ | .literal _ => rfl
  | .binary left _ right => by
    rw [rename, callees, callees, callees_rename ρ left, callees_rename ρ right]
  | .call name args => by rw [rename, callees, callees, calleesOfAll_renameAll ρ args]
  | .invoke object _ args => by
    rw [rename, callees, callees, callees_rename ρ object, calleesOfAll_renameAll ρ args]
  | .error payload => callees_rename ρ payload

theorem calleesOfAll_renameAll (ρ : String → String) :
    ∀ es : List Expr, calleesOfAll (renameAll ρ es) = calleesOfAll es
  | [] => rfl
  | e :: rest => by
    rw [renameAll, calleesOfAll, calleesOfAll, callees_rename ρ e, calleesOfAll_renameAll ρ rest]

end

@[simp] theorem isError_rename (ρ : String → String) (e : Expr) :
    (e.rename ρ).isError = e.isError := by
  cases e <;> rfl

@[simp] theorem isSome_ident?_rename (ρ : String → String) (e : Expr) :
    (e.rename ρ).ident?.isSome = e.ident?.isSome := by
  cases e <;> rfl

end Expr

/-! ### Handlers -/

namespace Stmt

mutual

/-- The statement with its variables renamed. -/
def rename (ρ : String → String) : Stmt → Stmt
  | .start => .start
  | .finish => .finish
  | .pass => .pass
  | .assign name value => .assign (ρ name) (value.rename ρ)
  | .choose subject arms => .choose (subject.rename ρ) (renameArms ρ arms)
  | .send message direction => .send (message.rename ρ) direction
  | .eval value => .eval (value.rename ρ)

/-- The block with its variables renamed. -/
def renameBlock (ρ : String → String) : List Stmt → List Stmt
  | [] => []
  | s :: rest => s.rename ρ :: renameBlock ρ rest

/-- The arms with their variables renamed. -/
def renameArms (ρ : String → String) : List (Expr × List Stmt) → List (Expr × List Stmt)
  | [] => []
  | (pattern, body) :: rest => (pattern.rename ρ, renameBlock ρ body) :: renameArms ρ rest

end

mutual

private theorem walks_rename (ρ : String → String) : ∀ s : Stmt,
    (s.rename ρ).exprs = s.exprs.map (Expr.rename ρ) ∧
      (s.rename ρ).assigns = s.assigns.map (fun a ↦ (ρ a.1, a.2.rename ρ)) ∧
      (s.rename ρ).sends = s.sends.map fun m ↦ (m.1.rename ρ, m.2)
  | .start | .finish | .pass | .assign _ _ | .send _ _ | .eval _ => ⟨rfl, rfl, rfl⟩
  | .choose subject arms => by
    obtain ⟨he, ha, hs⟩ := walks_renameArms ρ arms
    refine ⟨?_, ?_, ?_⟩
    · rw [rename, exprs, exprs, he, List.map_cons]
    · rw [rename, assigns, assigns, ha]
    · rw [rename, sends, sends, hs]

private theorem walks_renameBlock (ρ : String → String) : ∀ b : List Stmt,
    blockExprs (renameBlock ρ b) = (blockExprs b).map (Expr.rename ρ) ∧
      blockAssigns (renameBlock ρ b) =
        (blockAssigns b).map (fun a ↦ (ρ a.1, a.2.rename ρ)) ∧
      blockSends (renameBlock ρ b) = (blockSends b).map fun m ↦ (m.1.rename ρ, m.2)
  | [] => ⟨rfl, rfl, rfl⟩
  | s :: rest => by
    obtain ⟨he, ha, hs⟩ := walks_rename ρ s
    obtain ⟨re, ra, rs⟩ := walks_renameBlock ρ rest
    refine ⟨?_, ?_, ?_⟩
    · rw [renameBlock, blockExprs, blockExprs, he, re, List.map_append]
    · rw [renameBlock, blockAssigns, blockAssigns, ha, ra, List.map_append]
    · rw [renameBlock, blockSends, blockSends, hs, rs, List.map_append]

private theorem walks_renameArms (ρ : String → String) : ∀ arms : List (Expr × List Stmt),
    armExprs (renameArms ρ arms) = (armExprs arms).map (Expr.rename ρ) ∧
      armAssigns (renameArms ρ arms) = (armAssigns arms).map (fun a ↦ (ρ a.1, a.2.rename ρ)) ∧
      armSends (renameArms ρ arms) = (armSends arms).map fun m ↦ (m.1.rename ρ, m.2)
  | [] => ⟨rfl, rfl, rfl⟩
  | (pattern, body) :: rest => by
    obtain ⟨he, ha, hs⟩ := walks_renameBlock ρ body
    obtain ⟨re, ra, rs⟩ := walks_renameArms ρ rest
    refine ⟨?_, ?_, ?_⟩
    · rw [renameArms, armExprs, armExprs, he, re, List.map_cons, List.map_append]
    · rw [renameArms, armAssigns, armAssigns, ha, ra, List.map_append]
    · rw [renameArms, armSends, armSends, hs, rs, List.map_append]

end

private theorem innerSends_rename (ρ : String → String) (s : Stmt) :
    (s.rename ρ).innerSends = s.innerSends.map fun m ↦ (m.1.rename ρ, m.2) := by
  cases s with
  | choose subject arms => exact (walks_renameArms ρ arms).2.2
  | start | finish | pass | assign | send | eval => rfl

mutual

private theorem rename_congr : ∀ {s : Stmt}, (∀ e ∈ s.exprs, ∀ n ∈ e.idents, ρ n = σ n) →
    (∀ a ∈ s.assigns, ρ a.1 = σ a.1) → s.rename ρ = s.rename σ
  | .start, _, _ | .finish, _, _ | .pass, _, _ => rfl
  | .assign name value, he, ha => by
    rw [rename, rename, ha _ (.head _), Expr.rename_congr (he _ (.head _))]
  | .choose subject arms, he, ha => by
    obtain ⟨hs, hr⟩ := List.forall_mem_cons.mp he
    rw [rename, rename, Expr.rename_congr hs, renameArms_congr hr ha]
  | .send message _, he, _ => by rw [rename, rename, Expr.rename_congr (he _ (.head _))]
  | .eval value, he, _ => by rw [rename, rename, Expr.rename_congr (he _ (.head _))]

private theorem renameBlock_congr : ∀ {b : List Stmt},
    (∀ e ∈ blockExprs b, ∀ n ∈ e.idents, ρ n = σ n) →
    (∀ a ∈ blockAssigns b, ρ a.1 = σ a.1) → renameBlock ρ b = renameBlock σ b
  | [], _, _ => rfl
  | s :: rest, he, ha => by
    obtain ⟨hs, hr⟩ := List.forall_mem_append.mp he
    obtain ⟨as, ar⟩ := List.forall_mem_append.mp ha
    rw [renameBlock, renameBlock, rename_congr hs as, renameBlock_congr hr ar]

private theorem renameArms_congr : ∀ {arms : List (Expr × List Stmt)},
    (∀ e ∈ armExprs arms, ∀ n ∈ e.idents, ρ n = σ n) →
    (∀ a ∈ armAssigns arms, ρ a.1 = σ a.1) → renameArms ρ arms = renameArms σ arms
  | [], _, _ => rfl
  | (pattern, body) :: rest, he, ha => by
    obtain ⟨hp, he⟩ := List.forall_mem_cons.mp he
    obtain ⟨hb, hr⟩ := List.forall_mem_append.mp he
    obtain ⟨ab, ar⟩ := List.forall_mem_append.mp ha
    rw [renameArms, renameArms, Expr.rename_congr hp, renameBlock_congr hb ab,
      renameArms_congr hr ar]

end

@[simp] theorem isPlaceholder_rename (ρ : String → String) (s : Stmt) :
    (s.rename ρ).isPlaceholder = s.isPlaceholder := by
  cases s <;> rfl

end Stmt

namespace Block

/-- The block with its variables renamed. -/
def rename (ρ : String → String) (b : Block) : Block := Stmt.renameBlock ρ b

theorem rename_eq_map (ρ : String → String) (b : Block) : b.rename ρ = b.map (Stmt.rename ρ) := by
  unfold rename
  induction b with
  | nil => rfl
  | cons s rest ih => rw [Stmt.renameBlock, ih, List.map_cons]

@[simp] theorem exprs_rename (ρ : String → String) (b : Block) :
    (b.rename ρ).exprs = b.exprs.map (Expr.rename ρ) :=
  (Stmt.walks_renameBlock ρ b).1

@[simp] theorem assigns_rename (ρ : String → String) (b : Block) :
    (b.rename ρ).assigns = b.assigns.map fun a ↦ (ρ a.1, a.2.rename ρ) :=
  (Stmt.walks_renameBlock ρ b).2.1

@[simp] theorem sends_rename (ρ : String → String) (b : Block) :
    (b.rename ρ).sends = b.sends.map fun m ↦ (m.1.rename ρ, m.2) :=
  (Stmt.walks_renameBlock ρ b).2.2

@[simp] theorem innerSends_rename (ρ : String → String) (b : Block) :
    (b.rename ρ).innerSends = b.innerSends.map fun m ↦ (m.1.rename ρ, m.2) := by
  rw [innerSends, innerSends, rename_eq_map, List.map_flatMap, List.flatMap_map]
  simp only [Stmt.innerSends_rename]

@[simp] theorem all_isPlaceholder_rename (ρ : String → String) (b : Block) :
    (b.rename ρ).all Stmt.isPlaceholder = b.all Stmt.isPlaceholder := by
  rw [rename_eq_map, List.all_map]
  congr 1
  funext s
  exact Stmt.isPlaceholder_rename ρ s

/-- The variables of a block: those that it assigns and those of its expressions. -/
def idents (b : Block) : List String :=
  b.assigns.map Prod.fst ++ b.exprs.flatMap Expr.idents

/-- Renamings that agree on the variables of a block rename it alike. -/
theorem rename_congr {b : Block} (h : ∀ n ∈ b.idents, ρ n = σ n) : b.rename ρ = b.rename σ := by
  obtain ⟨ha, he⟩ := List.forall_mem_append.mp h
  exact Stmt.renameBlock_congr (fun e hm n hn ↦ he n (List.mem_flatMap.mpr ⟨e, hm, hn⟩))
    fun a hm ↦ ha a.1 (List.mem_map_of_mem hm)

/-- To exchange two names in a block without the second is to replace the first by the second. -/
theorem rename_swap {b : Block} {x y : String} (fresh : y ∉ b.idents) :
    b.rename (Equiv.swap x y) = b.rename (Function.update id x y) := by
  refine rename_congr fun n hn ↦ ?_
  by_cases hx : n = x
  · subst n
    rw [Equiv.swap_apply_left, Function.update_self]
  · have hy : n ≠ y := fun he ↦ fresh (he ▸ hn)
    rw [Equiv.swap_apply_of_ne_of_ne hx hy, Function.update_of_ne hx, id]

end Block

/-! ### The name of error messages -/

namespace Expr

/-- Every operator has a sign that is no letter. -/
private theorem exists_mem_symbol (op : BinaryOp) :
    ∃ c ∈ op.symbol.toList, c ∉ errorName.toList := by
  cases op <;> simp [BinaryOp.symbol, errorName]

/-- A renaming that keeps the name of error messages gives it to nothing else. -/
theorem flatName_rename_eq_errorName_iff (hρ : ρ.Injective) (he : ρ errorName = errorName)
    (e : Expr) : (e.rename ρ).flatName = errorName ↔ e.flatName = errorName := by
  have apart {c : Char} {text : String} (hc : c ∈ text.toList) (hn : c ∉ errorName.toList) :
      text ≠ errorName := fun he ↦ hn (he ▸ hc)
  cases e with
  | ident name => exact hρ.eq_iff' he
  | literal | error => exact Iff.rfl
  | binary left op right =>
    obtain ⟨c, hc, hn⟩ := exists_mem_symbol op
    rw [rename, flatName, flatName]
    exact iff_of_false (apart (by simp [hc]) hn) (apart (by simp [hc]) hn)
  | call name args =>
    rw [rename, flatName, flatName]
    refine iff_of_false (apart (c := '(') ?_ ?_) (apart (c := '(') ?_ ?_)
    all_goals simp [errorName]
  | invoke object method args =>
    rw [rename, flatName, flatName]
    refine iff_of_false (apart (c := '(') ?_ ?_) (apart (c := '(') ?_ ?_)
    all_goals simp [errorName]

end Expr

end ChainPlan
