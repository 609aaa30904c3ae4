import ChainPlan.Proofs.Reading

/-! # Texts of handlers

The text of a block is read statement by statement. The line that a statement opens with starts with
an expression, or with a word that is reserved for statements and reads as one; the arms of a match
end at a closing bracket, which no statement and no pattern starts with. So the text of a block
shows the block up to the grouping of the operators in its expressions.
-/

namespace ChainPlan

/-! ### Lines as lists of characters -/

/-- The blanks in front of a line. -/
def indent (depth : Nat) : List Char := List.replicate (4 * depth) ' '

theorem toList_indentedLine (depth : Nat) (text : String) :
    (indentedLine depth text).toList = indent depth ++ text.toList := by
  simp [indentedLine, indent]

namespace Stmt

/-- The expression that the text of the statement starts like. -/
def lead : Stmt → Expr
  | .start => .ident "START"
  | .finish => .ident "END"
  | .pass => .ident "pass"
  | .assign name _ => .ident name
  | .choose _ _ => .ident "match"
  | .send message direction => .call "send" [message, .ident direction.name]
  | .eval value => value

/-- What follows the lead in the first line of the statement. -/
def trail : Stmt → List Char
  | .assign _ value => ' ' :: ':' :: '=' :: ' ' :: value.chars
  | .choose subject _ => ' ' :: (subject.chars ++ [' ', '\x7b'])
  | .start | .finish | .pass | .send _ _ | .eval _ => []

/-- The arms of the statement if it is a match. -/
def arms? : Stmt → Option (List Arm)
  | .choose _ arms => some arms
  | _ => none

/-- The characters of a block. -/
def blockChars (depth : Nat) (b : List Stmt) : List Char := (joinLines (blockLines depth b)).toList

/-- The characters of the arms of a match. -/
def armChars (depth : Nat) (arms : List (Expr × List Stmt)) : List Char :=
  (joinLines (armLines depth arms)).toList

/-- The characters of the lines behind the first line of the statement. -/
def innerChars (depth : Nat) (s : Stmt) : List Char :=
  match s.arms? with
  | some arms => armChars (depth + 1) arms ++ (indent depth ++ ['\x7d', '\n'])
  | none => []

/-- The characters of a statement. -/
def chars (depth : Nat) (s : Stmt) : List Char :=
  indent depth ++ (s.lead.chars ++ (s.trail ++ '\n' :: s.innerChars depth))

theorem toList_joinLines_lines (depth : Nat) (s : Stmt) :
    (joinLines (s.lines depth)).toList = s.chars depth := by
  cases s with
  | choose subject arms =>
    simp [lines, toList_indentedLine, chars, lead, trail, innerChars, arms?, armChars, Expr.chars,
      Expr.render, joinLines]
  | start | finish | pass | assign | send | eval =>
    simp [lines, toList_indentedLine, chars, lead, trail, innerChars, arms?, Expr.chars,
      Expr.render, Expr.renderAll, joinLines]

theorem blockChars_nil (depth : Nat) : blockChars depth [] = [] := by
  rfl

theorem blockChars_cons (depth : Nat) (s : Stmt) (rest : List Stmt) :
    blockChars depth (s :: rest) = s.chars depth ++ blockChars depth rest := by
  rw [← toList_joinLines_lines]
  simp [blockChars, blockLines, joinLines]

theorem armChars_nil (depth : Nat) : armChars depth [] = [] := by
  rfl

theorem armChars_cons (depth : Nat) (pattern : Expr) (body : List Stmt)
    (rest : List (Expr × List Stmt)) :
    armChars depth ((pattern, body) :: rest) =
      indent depth ++ (pattern.chars ++ (' ' :: '=' :: '>' :: ' ' :: '\x7b' :: '\n' ::
        (blockChars (depth + 1) body ++ (indent depth ++ '\x7d' :: '\n' :: armChars depth rest)))) := by
  simp [armChars, armLines, blockChars, toList_indentedLine, Expr.chars, joinLines]

end Stmt

/-! ### First lines of statements -/

theorem Direction.name_inj {d d' : Direction} (h : d.name = d'.name) : d = d' := by
  revert h
  cases d <;> cases d' <;> decide

/-- No operator starts with a sign other than these. -/
def operatorSigns : List Char := ['+', '-', '*', '/', '=', '!', '<', '>', '&', '|']

theorem ends_of_not_operator {c : Char} (hc : c ∉ operatorSigns) (r : List Char) :
    Ends (' ' :: c :: r) := by
  apply ends_of_blank
  intro op hp
  have first : ∀ d ∈ op.symbol.toList.head?, d ∈ operatorSigns := by
    intro d hd
    cases op <;> cases hd <;> decide
  cases hs : op.symbol.toList with
  | nil => cases op <;> cases hs
  | cons d t =>
    rw [hs] at first hp
    obtain ⟨rfl, -⟩ := List.cons_prefix_cons.mp hp
    exact hc (first d rfl)

/-- An arrow is no operator. -/
theorem ends_arrow (r : List Char) : Ends (' ' :: '=' :: '>' :: r) := by
  apply ends_of_blank
  intro op hp
  cases op <;> simp [BinaryOp.symbol] at hp

namespace Expr

theorem ends_blank_chars {e : Expr} (h : e.IsLegible expressionWords) (r : List Char) :
    Ends (' ' :: (e.chars ++ r)) := by
  obtain ⟨c, t, hc, quote⟩ := exists_first h
  rw [hc]
  apply ends_of_not_operator
  intro hs
  have among : operatorSigns ⊆ signs := by decide
  rw [quote (among hs)] at hs
  revert hs
  decide

/-- The variable or function that the expression is or calls, if it is that alone. -/
def word? : Expr → Option String
  | .ident name | .call name _ => some name
  | .literal _ | .binary _ _ _ | .invoke _ _ _ | .error _ => none

theorem word?_regroup (e : Expr) : e.regroup.word? = e.word? := by
  cases e with
  | binary left op right =>
    rw [regroup]
    cases right.regroup <;> rfl
  | invoke object method args =>
    rw [regroup]
    cases object.regroup <;> rfl
  | ident | literal | call | error => rfl

theorem notMem_of_word? {reserved : List String} {e : Expr} {w : String}
    (h : e.IsLegible reserved) (hw : e.word? = some w) : w ∉ reserved := by
  cases e with
  | ident name => cases hw; exact h.free
  | call name args => cases hw; exact h.1.free
  | literal | binary | invoke | error => cases hw

end Expr

namespace Stmt

/-- A statement with legible names and expressions. -/
def IsLegible (s : Stmt) : Prop := Legible s.assigns s.exprs

theorem ends_trail {s : Stmt} (h : s.IsLegible) (r : List Char) : Ends (s.trail ++ '\n' :: r) := by
  cases s with
  | assign name value => exact ends_of_not_operator (by decide) _
  | choose subject arms =>
    have legible : subject.IsLegible expressionWords := h.of_cons.1
    rw [trail, List.cons_append, List.append_assoc]
    exact Expr.ends_blank_chars legible _
  | start | finish | pass | send | eval => exact ends_of_mem (by decide) r

theorem legible_lead {s : Stmt} (h : s.IsLegible) : s.lead.IsLegible expressionWords := by
  cases s with
  | start =>
    show IsName expressionWords "START"
    decide
  | finish =>
    show IsName expressionWords "END"
    decide
  | pass =>
    show IsName expressionWords "pass"
    decide
  | choose =>
    show IsName expressionWords "match"
    decide
  | assign name value =>
    exact (h.names (name, value) (.head _)).mono (List.subset_append_right _ _)
  | send message direction =>
    have name : IsName expressionWords "send" := by decide
    have direction : IsName expressionWords direction.name := by cases direction <;> decide
    exact ⟨name, h.of_cons.1, direction, trivial⟩
  | eval value => exact h.of_cons.1

/-- The reserved word that the statement starts with. -/
def keyword? : Stmt → Option String
  | .start => some "START"
  | .finish => some "END"
  | .pass => some "pass"
  | .choose _ _ => some "match"
  | .send _ _ => some "send"
  | .assign _ _ | .eval _ => none

/-- The reserved word of a statement can be told from what it starts like. -/
theorem keyword?_eq {s : Stmt} (h : s.IsLegible) :
    s.keyword? = s.lead.word?.filter (· ∈ reservedWords) := by
  cases s with
  | start | finish | pass | choose | send => rfl
  | assign name value =>
    have free : name ∉ reservedWords := (h.names (name, value) (.head _)).free
    exact (Option.filter_some_neg (by simpa using free)).symm
  | eval value =>
    show none = value.word?.filter _
    cases hw : value.word? with
    | none => rfl
    | some w =>
      have free : w ∉ reservedWords := Expr.notMem_of_word? (h.exprs value (.head _)) hw
      exact (Option.filter_some_neg (by simpa using free)).symm

/-- Two statements open alike if they are the same up to the grouping of operators and the arms. -/
inductive OpensLike : Stmt → Stmt → Prop where
  | single {s s' : Stmt} (h : s.regroup = s'.regroup) (hs : s.arms? = none)
      (hs' : s'.arms? = none) : OpensLike s s'
  | choose {subject subject' : Expr} (arms arms' : List Arm)
      (h : subject.regroup = subject'.regroup) :
      OpensLike (.choose subject arms) (.choose subject' arms')

/-- The first line of a statement shows all of it but its arms, up to the grouping of operators. -/
theorem opening_inj {s s' : Stmt} {r r' : List Char} (h : s.IsLegible) (h' : s'.IsLegible)
    (same : s.lead.chars ++ (s.trail ++ '\n' :: r) = s'.lead.chars ++ (s'.trail ++ '\n' :: r')) :
    s.OpensLike s' ∧ r = r' := by
  obtain ⟨leads, trails⟩ := s.lead.reads (legible_lead h) (legible_lead h') (ends_trail h r)
    (ends_trail h' r') same
  -- This leaves a statement of the same reserved word, or two without one.
  have words : s.keyword? = s'.keyword? := by
    rw [keyword?_eq h, keyword?_eq h', ← s.lead.word?_regroup, ← s'.lead.word?_regroup, leads]
  cases s with
  | start =>
    cases s' with
    | start => exact ⟨.single rfl rfl rfl, (List.cons.inj trails).2⟩
    | _ => simp [keyword?] at words
  | finish =>
    cases s' with
    | finish => exact ⟨.single rfl rfl rfl, (List.cons.inj trails).2⟩
    | _ => simp [keyword?] at words
  | pass =>
    cases s' with
    | pass => exact ⟨.single rfl rfl rfl, (List.cons.inj trails).2⟩
    | _ => simp [keyword?] at words
  | choose subject arms =>
    cases s' with
    | choose subject' arms' =>
      simp only [trail, List.cons_append, List.append_assoc, List.cons.injEq, true_and] at trails
      have brace (r : List Char) : Ends (' ' :: '\x7b' :: r) := ends_of_not_operator (by decide) r
      obtain ⟨subjects, rest⟩ := subject.reads h.of_cons.1 h'.of_cons.1 (brace _) (brace _) trails
      exact ⟨.choose arms arms' subjects, by simpa using rest⟩
    | _ => simp [keyword?] at words
  | send message direction =>
    cases s' with
    | send message' direction' =>
      simp only [lead, Expr.regroup, Expr.regroupAll, Expr.call.injEq, List.cons.injEq,
        Expr.ident.injEq, true_and, and_true] at leads
      obtain ⟨messages, names⟩ := leads
      exact ⟨.single (congrArg₂ send messages (Direction.name_inj names)) rfl rfl,
        (List.cons.inj trails).2⟩
    | _ => simp [keyword?] at words
  | assign name value =>
    cases s' with
    | assign name' value' =>
      simp only [trail, List.cons_append, List.cons.injEq, true_and] at trails
      have line (r : List Char) : Ends ('\n' :: r) := ends_of_mem (by decide) r
      obtain ⟨values, rest⟩ := value.reads h.of_cons.1 h'.of_cons.1 (line r) (line r') trails
      exact ⟨.single (congrArg₂ assign (Expr.ident.inj leads) values) rfl rfl,
        (List.cons.inj rest).2⟩
    | eval value' => simp [trail] at trails
    | _ => simp [keyword?] at words
  | eval value =>
    cases s' with
    | eval value' => exact ⟨.single (congrArg eval leads) rfl rfl, (List.cons.inj trails).2⟩
    | assign name' value' => simp [trail] at trails
    | _ => simp [keyword?] at words

end Stmt

/-! ### Reading -/

/-- What follows a block: nothing, or the bracket that closes an arm, or a match behind its arms. -/
def Closes (r : List Char) : Prop :=
  r = [] ∨ ∃ (blanks : Nat) (t : List Char), r = List.replicate blanks ' ' ++ '\x7d' :: t

theorem closes_indent (depth : Nat) (r : List Char) : Closes (indent depth ++ '\x7d' :: r) :=
  .inr ⟨_, r, rfl⟩

/-- No line that starts with an expression closes a block. -/
theorem Expr.not_closes {e : Expr} (h : e.IsLegible expressionWords) (depth : Nat) (r : List Char) :
    ¬ Closes (indent depth ++ (e.chars ++ r)) := by
  obtain ⟨c, t, hc, quote⟩ := Expr.exists_first h
  have first : c ≠ ' ' ∧ c ≠ '\x7d' := by
    constructor <;> (rintro rfl; revert quote; decide)
  rw [hc]
  rintro (none | ⟨blanks, rest, same⟩)
  · simp at none
  · have stops {d : Char} {r : List Char} (hd : d ≠ ' ') : ∀ a ∈ (d :: r).head?, ¬ a = ' ' := by
      intro a ha
      cases ha
      exact hd
    have cut := cut_unique (fun a ha ↦ List.eq_of_mem_replicate ha)
      (fun a ha ↦ List.eq_of_mem_replicate ha) (stops first.1) (stops (by decide)) same
    exact first.2 (List.cons.inj cut.2).1

namespace Stmt

/-- A statement can be read, up to the grouping of operators, in front of anything. -/
def Reads (s : Stmt) : Prop :=
  ∀ ⦃s' : Stmt⦄ ⦃depth : Nat⦄ ⦃r r' : List Char⦄, s.IsLegible → s'.IsLegible →
    s.chars depth ++ r = s'.chars depth ++ r' → s.regroup = s'.regroup ∧ r = r'

/-- A block can be read, up to the grouping of operators, in front of whatever closes it. -/
def BlockReads (b : List Stmt) : Prop :=
  ∀ ⦃b' : List Stmt⦄ ⦃depth : Nat⦄ ⦃r r' : List Char⦄,
    Legible (blockAssigns b) (blockExprs b) → Legible (blockAssigns b') (blockExprs b') →
    Closes r → Closes r' → blockChars depth b ++ r = blockChars depth b' ++ r' →
    regroupBlock b = regroupBlock b' ∧ r = r'

/-- Arms can be read, up to the grouping of operators, in front of whatever closes their match. -/
def ArmsRead (arms : List (Expr × List Stmt)) : Prop :=
  ∀ ⦃arms' : List (Expr × List Stmt)⦄ ⦃depth : Nat⦄ ⦃r r' : List Char⦄,
    Legible (armAssigns arms) (armExprs arms) → Legible (armAssigns arms') (armExprs arms') →
    Closes r → Closes r' → armChars depth arms ++ r = armChars depth arms' ++ r' →
    regroupArms arms = regroupArms arms' ∧ r = r'

/-- A statement can be read if its arms can. -/
theorem reads_of_arms {s : Stmt} (ha : ∀ arms ∈ s.arms?, ArmsRead arms) : s.Reads := by
  intro s' depth r r' h h' same
  simp only [chars, List.append_assoc, List.cons_append] at same
  obtain ⟨opens, same⟩ := opening_inj h h' (List.append_cancel_left same)
  cases opens with
  | single alike hs hs' =>
    simp only [innerChars, hs, hs', List.nil_append] at same
    exact ⟨alike, same⟩
  | choose arms arms' subjects =>
    simp only [innerChars, arms?, List.append_assoc, List.cons_append, List.nil_append] at same
    obtain ⟨alike, same⟩ := ha arms rfl h.of_cons.2 h'.of_cons.2 (closes_indent depth _)
      (closes_indent depth _) same
    exact ⟨congrArg₂ choose subjects alike, by simpa using same⟩

theorem not_closes {s : Stmt} (h : s.IsLegible) (depth : Nat) (r : List Char) :
    ¬ Closes (s.chars depth ++ r) := by
  rw [chars, List.append_assoc, List.append_assoc]
  exact Expr.not_closes (legible_lead h) depth _

theorem blockReads_nil : BlockReads [] := by
  intro b' depth r r' _ h' hr _ same
  cases b' with
  | nil => exact ⟨rfl, same⟩
  | cons s' rest' =>
    rw [blockChars_nil, List.nil_append, blockChars_cons, List.append_assoc] at same
    exact (not_closes h'.of_append.1 depth _ (same ▸ hr)).elim

theorem blockReads_cons {s : Stmt} {rest : List Stmt} (hs : s.Reads) (hb : BlockReads rest) :
    BlockReads (s :: rest) := by
  intro b' depth r r' h h' hr hr' same
  cases b' with
  | nil =>
    rw [blockChars_nil, List.nil_append, blockChars_cons, List.append_assoc] at same
    exact (not_closes h.of_append.1 depth _ (same ▸ hr')).elim
  | cons s' rest' =>
    rw [blockChars_cons, blockChars_cons, List.append_assoc, List.append_assoc] at same
    obtain ⟨first, same⟩ := hs h.of_append.1 h'.of_append.1 same
    obtain ⟨others, same⟩ := hb h.of_append.2 h'.of_append.2 hr hr' same
    exact ⟨congrArg₂ List.cons first others, same⟩

theorem armsRead_nil : ArmsRead [] := by
  intro arms' depth r r' _ h' hr _ same
  cases arms' with
  | nil => exact ⟨rfl, same⟩
  | cons arm' rest' =>
    rw [armChars_nil, List.nil_append, armChars_cons, List.append_assoc, List.append_assoc] at same
    exact (Expr.not_closes h'.of_cons.1 depth _ (same ▸ hr)).elim

theorem armsRead_cons {pattern : Expr} {body : List Stmt} {rest : List (Expr × List Stmt)}
    (hb : BlockReads body) (ha : ArmsRead rest) : ArmsRead ((pattern, body) :: rest) := by
  intro arms' depth r r' h h' hr hr' same
  cases arms' with
  | nil =>
    rw [armChars_nil, List.nil_append, armChars_cons, List.append_assoc, List.append_assoc] at same
    exact (Expr.not_closes h.of_cons.1 depth _ (same ▸ hr')).elim
  | cons arm' rest' =>
    obtain ⟨pattern', body'⟩ := arm'
    simp only [armChars_cons, List.append_assoc, List.cons_append] at same
    obtain ⟨patterns, same⟩ := pattern.reads h.of_cons.1 h'.of_cons.1 (ends_arrow _) (ends_arrow _)
      (List.append_cancel_left same)
    simp only [List.cons.injEq, true_and] at same
    obtain ⟨bodies, same⟩ := hb h.of_cons.2.of_append.1 h'.of_cons.2.of_append.1
      (closes_indent depth _) (closes_indent depth _) same
    simp only [List.append_cancel_left_eq, List.cons.injEq, true_and] at same
    obtain ⟨others, same⟩ := ha h.of_cons.2.of_append.2 h'.of_cons.2.of_append.2 hr hr' same
    exact ⟨congrArg₂ List.cons (congrArg₂ Prod.mk patterns bodies) others, same⟩

mutual

theorem reads : ∀ s : Stmt, s.Reads
  | .choose _ arms => reads_of_arms fun _ h ↦ Option.some.inj h ▸ armsRead arms
  | .start | .finish | .pass | .assign _ _ | .send _ _ | .eval _ => reads_of_arms nofun

theorem blockReads : ∀ b : List Stmt, BlockReads b
  | [] => blockReads_nil
  | s :: rest => blockReads_cons (reads s) (blockReads rest)

theorem armsRead : ∀ arms : List (Expr × List Stmt), ArmsRead arms
  | [] => armsRead_nil
  | (_, body) :: rest => armsRead_cons (blockReads body) (armsRead rest)

end

end Stmt

namespace Block

/-- Blocks of the same text are the same up to the grouping of operators. -/
theorem regroup_eq_of_render_eq {b b' : Block} (h : b.IsLegible) (h' : b'.IsLegible)
    (same : b.render = b'.render) : b.regroup = b'.regroup := by
  have chars : Stmt.blockChars 0 b ++ [] = Stmt.blockChars 0 b' ++ [] := by
    rw [List.append_nil, List.append_nil]
    exact congrArg String.toList same
  exact (Stmt.blockReads b h h' (.inl rfl) (.inl rfl) chars).1

/-- Blocks of the same text are the same if their operators are grouped to the left. -/
theorem eq_of_render_eq {b b' : Block} (h : b.IsLegible) (h' : b'.IsLegible) (hg : b.IsGrouped)
    (hg' : b'.IsGrouped) (same : b.render = b'.render) : b = b' := by
  rw [← regroup_of_isGrouped hg, ← regroup_of_isGrouped hg']
  exact regroup_eq_of_render_eq h h' same

/-- Two blocks have the same text exactly if they are the same up to the grouping of operators. -/
theorem render_eq_iff {b b' : Block} (h : b.IsLegible) (h' : b'.IsLegible) :
    b.render = b'.render ↔ b.regroup = b'.regroup := by
  constructor
  · exact regroup_eq_of_render_eq h h'
  · intro same
    rw [← render_regroup b, same, render_regroup b']

/-- A match whose text shows neither how its differences are grouped nor that a method is called on
a sum. -/
theorem render_eq_render_match :
    let answer : Block := [.send (.error (.literal (.text "no"))) .up, .pass]
    let b : Block :=
      [.choose (.invoke (.binary (.ident "key") .add (.ident "salt")) .get [.literal (.text "k")])
        [(.literal (.number "1"),
            [.assign "n" (.binary (.ident "a") .sub (.binary (.ident "b") .sub (.ident "c")))]),
          (.ident "other", answer)]]
    let b' : Block :=
      [.choose (.binary (.ident "key") .add (.invoke (.ident "salt") .get [.literal (.text "k")]))
        [(.literal (.number "1"),
            [.assign "n" (.binary (.binary (.ident "a") .sub (.ident "b")) .sub (.ident "c"))]),
          (.ident "other", answer)]]
    b.IsLegible ∧ b'.IsLegible ∧ (b.render = b'.render ↔ b.regroup = b'.regroup) ∧
      b.render = b'.render := by
  intro answer b b'
  have legible : b.IsLegible := by decide
  have legible' : b'.IsLegible := by decide
  have same : b.render = b'.render ↔ b.regroup = b'.regroup := render_eq_iff legible legible'
  exact ⟨legible, legible', same, same.2 rfl⟩

/-- The text of a difference does not show which of two differences is taken first. -/
theorem render_hides_grouping :
    let b : Block :=
      [.eval (.binary (.ident "a") .sub (.binary (.ident "b") .sub (.ident "c")))]
    let b' : Block :=
      [.eval (.binary (.binary (.ident "a") .sub (.ident "b")) .sub (.ident "c"))]
    b.IsLegible ∧ b'.IsLegible ∧ b.render = b'.render ∧ b ≠ b' := by
  refine ⟨by decide, by decide, rfl, ?_⟩
  intro same
  simp at same

end Block

end ChainPlan
