import ChainPlan.Proofs.Aliasing
import Mathlib.Data.Finset.Insert
import Mathlib.Data.Finset.Erase

/-! # References along runs

Along a run, a variable refers to the message from an assignment of a value that does to the next
one of a value that does not. The aliases are found without any run, in one pass through the arms of
all matches that takes no name back. Every variable that refers to the message at some point of some
run holds something of the message there, and so it is an alias.
-/

namespace ChainPlan

/-- The variables that refer to the message. -/
abbrev References := Finset String

namespace References

/-- At the start, the message is the only variable that refers to it. -/
def start (message : String) : References := {message}

/-- An assignment puts its variable in if the value refers to one of the variables, by the rule that
finds aliases, and takes it out otherwise. -/
def assign (refs : References) (name : String) (value : Expr) : References :=
  if value.refers (fun n ↦ n ∈ refs) = .ok true then insert name refs else refs.erase name

/-- The variables that refer to the message after a statement that is no match. -/
def after (refs : References) : Stmt → References
  | .assign name value => refs.assign name value
  | _ => refs

/-- The variables that refer to the message after a run. -/
def afterAll (refs : References) (run : Block) : References := run.foldl after refs

/-- Every variable that refers to the message holds something of it. -/
def HeldIn (refs : References) (locals : Locals) : Prop := ∀ n ∈ refs, locals n ≠ .other

variable {refs : References} {locals : Locals}

theorem heldIn_start (message : String) : (start message).HeldIn (.start message) := by
  intro n hn
  rw [start, Finset.mem_singleton] at hn
  simp [Locals.start, hn]

theorem HeldIn.assign (h : refs.HeldIn locals) (name : String) (value : Expr) :
    (refs.assign name value).HeldIn (locals.assign name value) := by
  intro n hn
  rw [References.assign] at hn
  by_cases he : n = name
  · subst n
    rw [Locals.assign, if_pos rfl]
    split at hn
    · next hr => exact Expr.holding_of_refers (fun m hm ↦ h m (of_decide_eq_true hm)) hr
    · exact absurd hn (Finset.notMem_erase name refs)
  · rw [Locals.assign, if_neg he]
    split at hn
    · exact h n (Finset.mem_of_mem_insert_of_ne hn he)
    · exact h n (Finset.mem_of_mem_erase hn)

theorem HeldIn.after (h : refs.HeldIn locals) (s : Stmt) :
    (refs.after s).HeldIn (locals.after s) := by
  cases s with
  | assign name value => exact h.assign name value
  | start | finish | pass | choose | send | eval => exact h

theorem HeldIn.afterAll (h : refs.HeldIn locals) (run : Block) :
    (refs.afterAll run).HeldIn (locals.afterAll run) := by
  induction run generalizing refs locals with
  | nil => exact h
  | cons s rest ih => exact ih (h.after s)

end References

/-- At any point of any run of a block, every variable that refers to the message is among the
aliases of the block. -/
theorem Aliases.mem_names_of_refers {message : String} {block before after : Block} {a : Aliases}
    (h : ofBlock message block = .ok a) (hr : block.Runs (before ++ after)) {name : String}
    (hn : name ∈ (References.start message).afterAll before) : name ∈ a.names :=
  covers_of_runs h hr name ((References.heldIn_start message).afterAll before name hn)

/-- A run through two arms has lost the message by its own name and keeps a part of it by another;
an arm that it leaves out makes one more alias. -/
theorem Aliases.mem_names_of_refers_nested :
    let part := Expr.invoke (.ident "r") .get [.literal (.text "user")]
    let rename := Stmt.assign "r" (.ident "rpc")
    let lose := Stmt.assign "rpc" (.literal (.number "1"))
    let keep := Stmt.assign "n" (.call "wrap" [.literal (.number "2"), part])
    let inner : List Arm := [(.ident "a", [keep]), (.ident "b", [.assign "m" (.ident "n")])]
    let outer : List Arm := [(.ident "c", [lose, .choose (.ident "rpc") inner])]
    let block : Block := [rename, .choose (.ident "r") outer, .send (.ident "r") .down]
    let a : Aliases := ⟨["rpc", "r", "n", "m"], ["n"]⟩
    ofBlock "rpc" block = .ok a ∧
      block.Runs ([rename, lose, keep] ++ [.send (.ident "r") .down]) ∧
      "rpc" ∉ (References.start "rpc").afterAll [rename, lose, keep] ∧
      "n" ∈ (References.start "rpc").afterAll [rename, lose, keep] ∧ "n" ∈ a.names := by
  intro part rename lose keep inner outer block a
  have h : ofBlock "rpc" block = .ok a := by decide +kernel
  have run : block.Runs ([rename, lose, keep] ++ [.send (.ident "r") .down]) := by
    have kept : Block.Runs [keep] [keep] := .step (fun _ _ ↦ nofun) .finish
    have first : (.ident "a", [keep]) ∈ inner := by simp [inner]
    have within := @Block.Runs.arm (.ident "rpc") inner _ _ _ _ first kept .finish
    have lost : Block.Runs [lose, .choose (.ident "rpc") inner] [lose, keep] :=
      .step (fun _ _ ↦ nofun) within
    have only : (.ident "c", [lose, .choose (.ident "rpc") inner]) ∈ outer := by simp [outer]
    have sent : Block.Runs [.send (.ident "r") .down] [.send (.ident "r") .down] :=
      .step (fun _ _ ↦ nofun) .finish
    have through := @Block.Runs.arm (.ident "r") outer _ _ _ _ only lost sent
    exact .step (fun _ _ ↦ nofun) through
  have refers : "n" ∈ (References.start "rpc").afterAll [rename, lose, keep] := by decide +kernel
  exact ⟨h, run, by decide +kernel, refers, mem_names_of_refers h run refers⟩

end ChainPlan
