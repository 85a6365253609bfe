import Mathlib
import SwiftMacros.Proofs.Parser.Terminating
import SwiftMacros.Grammar.Closed

/-! The grammar comes to an end. A rule reads nested parts only behind a token that it has taken, so that
a grammar that is good for less room ahead is good enough for them; and it takes a token wherever it
answers, but for the few rules that may answer with nothing at all. So with every level a grammar
is good for more room, whatever it does when its levels are used up. -/

namespace SwiftMacros

open SwiftMacros.Parser

/-- Two grammars that do the same as long as there is less room ahead than `n`, and take a token where
they answer. -/
structure Grammar.Terminating (n : Nat) (g h : Grammar) : Prop where
  type : Advancing n g.type h.type
  constraint : Advancing n g.constraint h.constraint
  expression : Advancing n g.expression h.expression
  operand : Advancing n g.operand h.operand

theorem Token.kind_of_isMark {t : Token} (h : t.isMark = true) : t.kind = .operator := by
  simp only [isMark, Bool.and_eq_true, beq_iff_eq] at h
  exact h.1

namespace Grammar

variable {g h : Grammar} {n : Nat} {c : Cursor}

section Annotations

theorem effects_terminating : Parser.Terminating n effects effects := by
  refine .bind (.collectWhile fun c hs hr hm => ?_) fun _ => .pure _
  refine .take hs (Nat.lt_succ_of_lt hr) (.consume hs (by simp [Token.kind_of_isIdentifierIn hm]))
    fun t => .bind .get fun c => ?_
  exact .ite (.bind .skipBalanced fun _ => .sliceFrom _) (.sliceFrom _)

theorem elementLabel_terminating : Parser.Terminating n elementLabel elementLabel := by
  refine .bind .get fun c => .ite (.bind (.skip _) fun _ => .pure _) (.ite ?_ (.pure _))
  exact .bind (.skip _) fun _ => .bind (.sliceFrom _) fun _ => .bind (.skip _) fun _ => .pure _

theorem skipEllipsis_terminating : Parser.Terminating n skipEllipsis skipEllipsis :=
  .bind .current fun _ => .ite (.skip _) (.pure _)

theorem typeSuffixes_terminating (start : Token) (base : TypeTree) :
    Parser.Terminating n (typeSuffixes start base) (typeSuffixes start base) := by
  refine .extend (fun node c hs hr => .get_bind (.ite (fun hm => ?_) fun _ => .ite (fun hd => ?_)
    fun _ => .stop)) base
  · simp only [Bool.and_eq_true] at hm
    exact .step hs hr (.consumePart hs (Token.kind_of_isMark hm.1) Nat.one_pos) fun _ => .keep _ _
  · simp only [Bool.and_eq_true, beq_iff_eq] at hd
    exact .step hs hr (.skip hs (by simp [hd.1]) Nat.two_pos) fun _ => .keep _ _

variable (hg : g.Terminating n h)
include hg

theorem arguments_advancing (first last : String) :
    Advancing (n + 1) (g.arguments first last) (h.arguments first last) := by
  refine .bracketed _ _ _ (Terminating.bind_advancing .get fun c => .ite ?_ ?_)
  · exact Terminating.bind_advancing (.skip _) fun _ => Terminating.bind_advancing (.pure _) fun _ =>
      .bind hg.expression fun _ => .keep _ _
  · exact Terminating.bind_advancing (.pure _) fun _ => .bind hg.expression fun _ => .keep _ _

theorem attributeRule_advancing : Advancing (n + 1) g.attributeRule h.attributeRule := by
  unfold attributeRule
  refine fun c hs hr => .consume_bind hs fun c₁ hs₁ ho htook => ?_
  extract_lets finish rest rest'
  have hfinish : ∀ arguments, Parser.Terminating n (finish arguments) (finish arguments) :=
    fun _ => .bind (.sliceFrom _) fun _ => .bind .get fun _ => .pure _
  have hrest : Parser.Terminating n (rest ()) (rest' ()) := by
    refine .bind .get fun c => .ite (.bind (.attempt ((arguments_advancing hg _ _).terminating.mono
      n.le_succ)) fun o => ?_) (.bind (.pure _) hfinish)
    cases o with
    | none => exact .bind .skipBalanced fun _ => .bind (.pure _) hfinish
    | some as => exact .bind (.pure _) hfinish
  refine .ite (fun _ => .throw_bind (by simp [SyntaxError.locate])) fun hk => ?_
  exact .behind hs hr ho (htook (by simp at hk; simp [hk])) hrest

theorem attributesRule_terminating : Parser.Terminating (n + 1) g.attributesRule h.attributesRule :=
  .collectWhile fun _ hs hr _ => attributeRule_advancing hg _ hs hr

theorem genericClause_advancing : Advancing (n + 1) g.genericClause h.genericClause :=
  .take (.consumeOperator (by decide)) fun _ => .bind (.separated hg.type.terminating) fun _ =>
    .bind (.consumeOperator (by decide)) fun _ => .sliceFrom _

theorem namedType_halts (hs : c.Sized) (hr : c.room < n + 1) (hk : c.peek.kind = .identifier) :
    Halts g.namedType h.namedType c fun _ c' => c.position < c'.position := by
  have hclause := (genericClause_advancing hg).terminating.mono n.le_succ
  unfold namedType
  refine .take hs hr (.consume hs (by simp [hk])) fun start => .bind .get fun c => ?_
  extract_lets members members'
  have hmembers : ∀ generics, Parser.Terminating n (members generics) (members' generics) := by
    refine fun _ => .bind (.sliceFrom _) fun _ => .extend (fun node c hs hr => .get_bind (.ite
      (fun hd => ?_) fun _ => .stop)) _
    simp only [Bool.and_eq_true, beq_iff_eq] at hd
    exact .step hs hr (.skip hs (by simp [hd.1.1]) Nat.two_pos) fun _ => .bind .get fun _ =>
      .ite (.bind hclause fun _ => .keep _ _) (.keep _ _)
  exact .ite (.bind hclause hmembers) (.bind (.pure _) hmembers)

theorem tupleOrFunctionType_advancing :
    Advancing (n + 1) g.tupleOrFunctionType h.tupleOrFunctionType := by
  refine Terminating.bind_advancing .current fun start => .take (.bracketed _ _ _ ?_) fun elements =>
    .bind effects_terminating fun effects => .bind .current fun t => .ite ?_ (.ite (.fail _) (.keep _ _))
  · exact Terminating.bind_advancing .current fun first => Terminating.bind_advancing elementLabel_terminating
      fun _ => .bind hg.type fun _ => .bind skipEllipsis_terminating fun _ => .keep _ _
  · exact .bind (.skip _) fun _ => .bind hg.type.terminating fun _ => .keep _ _

theorem collectionType_halts (hs : c.Sized) (hr : c.room < n + 1) (hk : c.peek.kind ≠ .eof) :
    Halts g.collectionType h.collectionType c fun _ c' => c.position < c'.position := by
  refine .take hs hr (.consume hs hk) fun start => .bind hg.type.terminating fun element =>
    .bind .current fun t => .ite ?_ (.bind (.expect _) fun _ => .keep _ _)
  exact .bind (.skip _) fun _ => .bind hg.type.terminating fun _ => .bind (.expect _) fun _ => .keep _ _

theorem simpleType_advancing : Advancing (n + 1) g.simpleType h.simpleType := fun c hs hr =>
  .current_bind (.ite (fun _ => tupleOrFunctionType_advancing hg c hs hr) fun _ =>
    .ite (fun hb => collectionType_halts hg hs hr (by simp [Token.kind_of_isSymbol hb])) fun _ =>
      .ite (fun hk => namedType_halts hg hs hr (by simpa using hk)) fun _ => .fail)

theorem constraintRule_advancing : Advancing (n + 1) g.constraintRule h.constraintRule := by
  refine fun c hs hr => .get_bind (.ite (fun hq => ?_) fun _ => .ite (fun hw => ?_) fun _ => ?_)
  · refine .take hs hr (.collectWhile (fun c hs hr hq => .current_bind (.ite (fun _ => ?_) fun hk => ?_))
      hs hr hq) fun _ => .bind hg.type.terminating fun _ => .keep _ _
    · exact .bind hs (attributeRule_advancing hg c hs hr) fun _ _ _ _ hlt => .pure hlt
    · refine .bind hs (.consume hs ?_) fun _ _ _ _ hlt => .pure hlt
      simp only [qualifiesType, Bool.or_eq_true] at hq
      simp [Token.kind_of_isIdentifierIn (hq.resolve_left hk)]
  · simp only [Bool.and_eq_true] at hw
    exact .take hs hr (.skip hs (by simp [Token.kind_of_isIdentifierIn hw.1]) Nat.one_pos) fun _ =>
      .bind hg.constraint.terminating fun _ => .keep _ _
  · exact .take hs hr (simpleType_advancing hg c hs hr) fun _ => typeSuffixes_terminating _ _

theorem typeRule_advancing : Advancing (n + 1) g.typeRule h.typeRule := by
  refine Terminating.bind_advancing .current fun _ => .take (constraintRule_advancing hg) fun _ =>
    .bind (.collectWhile fun c hs hr hand => ?_) fun _ => .ite (.pure _) (.keep _ _)
  exact .take hs (Nat.lt_succ_of_lt hr) (.skip hs (by simp [Token.kind_of_has hand]) Nat.one_pos)
    fun _ => (constraintRule_advancing hg).terminating.mono n.le_succ

end Annotations

section Closures

theorem captureSpecifier_terminating : Parser.Terminating n captureSpecifier captureSpecifier := by
  refine .bind .get fun c => .ite (.bind (.skip _) fun _ => .bind .get fun _ => ?_) (.pure _)
  exact .ite (.bind .skipBalanced fun _ => .keep _ _) (.keep _ _)

theorem captureName_terminating : Parser.Terminating n captureName captureName :=
  .bind .get fun _ => .ite (.bind (.skip _) fun _ => .pure _) (.pure _)

theorem statements_terminating : Parser.Terminating n statements statements := by
  refine .bind .get fun c => ?_
  extract_lets
  split
  · exact .bind (.skip _) fun _ => .pure _
  · exact .bind (.skip _) fun _ => .fail _

variable (hg : g.Terminating n h)
include hg

theorem captureClause_advancing : Advancing (n + 1) g.captureClause h.captureClause := by
  refine Terminating.bind_advancing .current fun start => .take (.bracketed _ _ _ ?_) fun _ => .keep _ _
  exact Terminating.bind_advancing .current fun _ => Terminating.bind_advancing captureSpecifier_terminating fun _ =>
    Terminating.bind_advancing captureName_terminating fun _ => .bind hg.expression fun _ => .keep _ _

theorem closureParameter_advancing : Advancing (n + 1) g.closureParameter h.closureParameter := by
  unfold closureParameter
  refine fun c hs hr => .current_bind ?_
  extract_lets type rest type' rest'
  have htype : ∀ name, Parser.Terminating n (type name) (type' name) := by
    refine fun _ => .bind .current fun t => .ite ?_ (.bind (.pure _) fun _ => .keep _ _)
    exact .bind (.skip _) fun _ => .bind hg.type.terminating fun _ => .bind skipEllipsis_terminating fun _ =>
      .bind (.pure _) fun _ => .keep _ _
  refine .ite (fun _ => .fail_bind) fun hk => .take hs hr (.consume hs ?_) fun _ => .bind .current fun _ =>
    .ite (.bind .consume fun _ => .bind (.pure _) htype) (.bind (.pure _) htype)
  simp only [bne_iff_ne, ne_eq, not_not] at hk
  simp [hk]

theorem closureParameters_terminating :
    Parser.Terminating (n + 1) g.closureParameters h.closureParameters := by
  refine .bind .current fun start => .ite ?_ (.ite ?_ (.pure _))
  · exact .bind (Advancing.bracketed _ _ _ ((closureParameter_advancing hg).mono n.le_succ)).terminating
      fun _ => .keep _ _
  · refine .bind (.separated (.bind .current fun _ => .ite ?_ (.fail _))) fun _ => .keep _ _
    exact .bind .consume fun _ => .pure _

theorem returnClause_terminating : Parser.Terminating (n + 1) g.returnClause h.returnClause := by
  refine fun c hs hr => .current_bind (.ite (fun ha => ?_) fun _ => .pure trivial)
  exact .mono (.take hs hr (.skip hs (by simp [Token.kind_of_has ha]) Nat.one_pos) fun _ =>
    .bind hg.type.terminating fun _ => .keep _ _) fun _ _ _ _ => trivial

theorem closureSignature_terminating : Parser.Terminating (n + 1) g.closureSignature h.closureSignature := by
  unfold closureSignature
  refine .bind .current fun start => .bind (attributesRule_terminating hg) fun _ => ?_
  extract_lets rest rest'
  have hrest : ∀ capture, Parser.Terminating (n + 1) (rest capture) (rest' capture) :=
    fun _ => .bind (closureParameters_terminating hg) fun _ => .bind effects_terminating fun _ =>
      .bind (returnClause_terminating hg) fun _ => .bind .current fun _ =>
        .ite (.bind (.skip _) fun _ => .keep _ _) (.fail _)
  refine .bind .current fun _ => .ite ?_ (.bind (.pure _) hrest)
  exact .bind (captureClause_advancing hg).terminating fun _ => .bind (.pure _) hrest

theorem closureRule_advancing : Advancing (n + 1) g.closureRule h.closureRule :=
  .take (.expect _) fun _ => .bind (.attempt ((closureSignature_terminating hg).mono n.le_succ)) fun _ =>
    .bind statements_terminating fun _ => .bind (.expect _) fun _ => .keep _ _

theorem trailingClosure_terminating : Parser.Terminating (n + 1) g.trailingClosure h.trailingClosure :=
  .bind .get fun _ => .ite (.bind (closureRule_advancing hg).terminating fun _ => .pure _) (.pure _)

theorem specializationClause_advancing :
    Advancing (n + 1) g.specializationClause h.specializationClause :=
  .bind (genericClause_advancing hg) fun _ => .bind .current fun _ => .ite (.pure _) (.fail _)

theorem expansionRule_advancing : Advancing (n + 1) g.expansionRule h.expansionRule := by
  unfold expansionRule
  refine fun c hs hr => .consume_bind hs fun c₁ hs₁ ho htook => ?_
  extract_lets trailing arguments rest trailing' arguments' rest'
  have htrailing : ∀ as, Parser.Terminating n (trailing as) (trailing' as) := fun _ =>
    .bind ((trailingClosure_terminating hg).mono n.le_succ) fun _ => .bind (.sliceFrom _) fun _ =>
      .bind .get fun _ => .pure _
  have harguments : Parser.Terminating n (arguments ()) (arguments' ()) := .bind .current fun _ =>
    .ite (.bind ((arguments_advancing hg _ _).terminating.mono n.le_succ) htrailing)
      (.bind (.pure _) htrailing)
  have hrest : Parser.Terminating n (rest ()) (rest' ()) := .bind .get fun _ =>
    .ite (.bind (.attempt ((specializationClause_advancing hg).terminating.mono n.le_succ))
      fun _ => harguments) harguments
  refine .ite (fun _ => .throw_bind (by simp [SyntaxError.locate])) fun hk => ?_
  exact .behind hs hr ho (htook (by simp at hk; simp [hk])) hrest

end Closures

section Expressions

theorem controlExpression_halts (hs : c.Sized) (hr : c.room < n + 1) (hk : c.peek.kind ≠ .eof) :
    Halts controlExpression controlExpression c fun _ c' => c.position < c'.position := by
  refine .take hs hr (.consume hs hk) fun start => .bind (.extend (fun _ c hs hr => .get_bind (.ite
    (fun hb => ?_) fun _ => .ite (fun _ => .fail) fun he => ?_)) _) fun _ => .keep _ _
  · exact .step hs hr (.skipBalanced hs (by simp [Token.kind_of_isSymbol hb])) fun _ =>
      .bind .current fun _ => .ite (.bind (.skip _) fun _ => .pure _) (.pure _)
  · have hne : c.ahead ≠ [] := by simpa [Cursor.isEof] using he
    refine .ite (fun hb => ?_) fun _ => .step hs hr (.skip_of_ahead hne Nat.one_pos) fun _ => .pure _
    exact .step hs hr (.skipBalanced hs (by simp [Token.kind_of_isOpener hb])) fun _ => .pure _

theorem keyPath_halts (hs : c.Sized) (hr : c.room < n + 1) (hk : c.peek.kind ≠ .eof) :
    Halts keyPath keyPath c fun _ c' => c.position < c'.position := by
  refine .take hs hr (.consume hs hk) fun start => .bind (.extend (fun _ c hs hr => .current_bind (.ite
    (fun _ => .stop) fun _ => .ite (fun hn => ?_) fun _ => .ite (fun hm => ?_) fun _ => .ite
      (fun hb => ?_) fun _ => .stop)) _) fun _ => .keep _ _
  · simp only [Bool.or_eq_true, beq_iff_eq] at hn
    refine .step hs hr (.skip hs ?_ Nat.one_pos) fun _ => .pure _
    rcases hn with (hn | hn) | hn <;> simp [hn]
  · exact .step hs hr (.consumePart hs (Token.kind_of_isMark hm) Nat.one_pos) fun _ => .pure _
  · exact .step hs hr (.skipBalanced hs (by simp [Token.kind_of_isSymbol hb])) fun _ => .pure _

theorem otherItems_terminating {α : Type} {p q : Parser α} (hp : Parser.Terminating n p q) :
    Parser.Terminating n (otherItems p) (otherItems q) := by
  refine .collect fun c hs hr => .current_bind (.ite (fun hcomma => ?_) fun _ => .stop)
  exact .step hs hr (.skip hs (by simp [Token.kind_of_isSymbol hcomma]) Nat.one_pos) fun _ =>
    .bind .current fun _ => .ite (.pure _) (.bind hp fun _ => .pure _)

theorem castModifier_terminating : Parser.Terminating n castModifier castModifier :=
  .bind .current fun _ => .ite (.bind (.consumePart Nat.one_pos) fun _ => .pure _) (.pure _)

variable (hg : g.Terminating n h)
include hg

theorem collectionLiteral_halts (hs : c.Sized) (hr : c.room < n + 1) (hk : c.peek.kind ≠ .eof) :
    Halts g.collectionLiteral h.collectionLiteral c fun _ c' => c.position < c'.position := by
  have hexpression := hg.expression.terminating
  refine .take hs hr (.consume hs hk) fun start => .bind .get fun c => .ite
    (.bind (.skip _) fun _ => .keep _ _) (.ite (.bind (.skip _) fun _ => .keep _ _)
      (.bind hexpression fun _ => .bind .current fun _ => .ite ?_ ?_))
  · refine .bind (.skip _) fun _ => .bind hexpression fun _ => .bind (.sliceFrom _) fun _ =>
      .bind (otherItems_terminating ?_) fun _ => .bind (.expect _) fun _ => .keep _ _
    exact .bind .current fun _ => .bind hexpression fun _ => .bind (.expect _) fun _ =>
      .bind hexpression fun _ => .keep _ _
  · exact .bind (otherItems_terminating hexpression) fun _ => .bind (.expect _) fun _ => .keep _ _

theorem nameExpression_halts (hs : c.Sized) (hr : c.room < n + 1) (hk : c.peek.kind ≠ .eof) :
    Halts g.nameExpression h.nameExpression c fun _ c' => c.position < c'.position := by
  refine .take hs hr (.consume hs hk) fun t => .bind .get fun c => .ite ?_ (.pure _)
  refine .bind (.attempt ((specializationClause_advancing hg).terminating.mono n.le_succ)) fun o => ?_
  cases o with
  | none => exact .pure _
  | some clause => exact .keep _ _

theorem wordExpression_halts (hs : c.Sized) (hr : c.room < n + 1) (hk : c.peek.kind ≠ .eof) :
    Halts g.wordExpression h.wordExpression c fun _ c' => c.position < c'.position :=
  .current_bind (.ite (fun _ => .take hs hr (.skip hs hk Nat.one_pos) fun _ => .pure _) fun _ =>
    .ite (fun _ => .take hs hr (.skip hs hk Nat.one_pos) fun _ => .pure _) fun _ =>
      .ite (fun _ => controlExpression_halts hs hr hk) fun _ => nameExpression_halts hg hs hr hk)

theorem primary_advancing : Advancing (n + 1) g.primary h.primary := by
  refine fun c hs hr => .get_bind ?_
  dsimp only
  split
  case h_4 hk => exact wordExpression_halts hg hs hr (by simp [hk])
  case h_5 => exact .bind hs (expansionRule_advancing hg c hs hr) fun _ _ _ _ hlt => .pure hlt
  case h_6 hk => exact keyPath_halts hs hr (by simp [hk])
  case h_7 =>
    refine .ite (fun hd => ?_) fun _ => .ite (fun hb => ?_) fun _ => .ite (fun _ => ?_) fun _ =>
      .ite (fun _ => ?_) fun _ => .fail
    · simp only [Bool.and_eq_true, beq_iff_eq] at hd
      exact .take hs hr (.skip hs (by simp [hd.1.1]) Nat.two_pos) fun _ => .keep _ _
    · exact collectionLiteral_halts hg hs hr (by simp [Token.kind_of_isSymbol hb])
    · exact .take hs hr (arguments_advancing hg _ _ c hs hr) fun _ => .keep _ _
    · exact .bind hs (closureRule_advancing hg c hs hr) fun _ _ _ _ hlt => .pure hlt
  all_goals
    rename_i hk
    exact .take hs hr (.skip hs (by simp [hk]) Nat.one_pos) fun _ => .pure _

theorem suffixes_terminating (start : Token) (base : Expression) :
    Parser.Terminating n (g.suffixes start base) (h.suffixes start base) := by
  have harguments : ∀ first last, Advancing n (g.arguments first last) (h.arguments first last) :=
    fun _ _ => (arguments_advancing hg _ _).mono n.le_succ
  refine .extend (fun e c hs hr => .get_bind (.ite (fun hd => ?_) fun _ => .ite (fun _ => ?_) fun _ =>
    .ite (fun _ => ?_) fun _ => .ite (fun _ => ?_) fun _ => .ite (fun hm => ?_) fun _ => .stop)) base
  · simp only [Bool.and_eq_true, beq_iff_eq] at hd
    exact .step hs hr (.skip hs (by simp [hd.1]) Nat.two_pos) fun _ => .keep _ _
  · exact .step hs hr (harguments _ _ c hs hr) fun _ =>
      .bind ((trailingClosure_terminating hg).mono n.le_succ) fun _ => .keep _ _
  · exact .step hs hr (harguments _ _ c hs hr) fun _ => .keep _ _
  · exact .step hs hr ((closureRule_advancing hg).mono n.le_succ c hs hr) fun _ => .keep _ _
  · simp only [isMarks, Bool.and_eq_true, beq_iff_eq] at hm
    exact .step hs hr (.consumePart hs hm.1.1 Nat.one_pos) fun _ => .keep _ _

theorem operandRule_advancing : Advancing (n + 1) g.operandRule h.operandRule := by
  unfold operandRule
  refine fun c hs hr => .get_bind ?_
  extract_lets start next inner inner'
  have hinner : Parser.Terminating n (inner ()) (inner' ()) :=
    .bind (.sliceFrom _) fun _ => .bind hg.operand.terminating fun _ => .keep _ _
  refine .ite (fun hw => ?_) fun _ => .ite (fun ho => ?_) fun _ => .ite (fun ho => ?_) fun _ => ?_
  · simp only [start, Bool.and_eq_true] at hw
    refine .take hs hr (.skip hs (by simp [Token.kind_of_isIdentifierIn hw.1]) Nat.one_pos) fun _ => ?_
    exact .ite (.bind (.consumePart Nat.one_pos) fun _ => hinner) hinner
  · simp only [start, Bool.and_eq_true, beq_iff_eq] at ho
    exact .take hs hr (.skip hs (by simp [ho.1]) Nat.one_pos) fun _ => .pure _
  · simp only [start, Bool.and_eq_true, beq_iff_eq] at ho
    exact .take hs hr (.skip hs (by simp [ho.1]) Nat.one_pos) fun _ =>
      .bind hg.operand.terminating fun _ => .keep _ _
  · exact .take hs hr (primary_advancing hg c hs hr) fun _ => suffixes_terminating hg _ _

theorem sequenceTail_stepping : Stepping n g.sequenceTail h.sequenceTail := by
  unfold sequenceTail
  refine fun c hs hr => .get_bind ?_
  extract_lets t target operand target' operand'
  have htarget : ∀ link, Parser.Terminating n (target link) (target' link) := fun _ =>
    .bind .current fun _ => .bind hg.type.terminating fun _ => .keep _ _
  have hoperand : ∀ link, Parser.Terminating n (operand link) (operand' link) := fun _ =>
    .bind ((operandRule_advancing hg).terminating.mono n.le_succ) fun _ => .pure _
  refine .ite (fun hw => ?_) fun _ => .ite (fun ho => ?_) fun _ => .stop
  · simp only [t, Bool.and_eq_true] at hw
    refine .step hs hr (.skip hs (by simp [Token.kind_of_isIdentifierIn hw.1]) Nat.one_pos) fun _ => ?_
    refine .ite (.bind castModifier_terminating fun _ => .bind (.sliceFrom _) fun _ => ?_)
      (.bind (.pure _) htarget)
    exact .bind (.pure _) htarget
  · simp only [t, Bool.and_eq_true, beq_iff_eq] at ho
    refine .step hs hr (.skip hs (by simp [ho.1]) Nat.one_pos) fun _ => ?_
    refine .ite (.bind hg.expression.terminating fun _ => .bind (.expect _) fun _ =>
      .bind (.sliceFrom _) fun _ => ?_) (.bind (.pure _) hoperand)
    exact .bind (.pure _) hoperand

theorem expressionRule_advancing : Advancing (n + 1) g.expressionRule h.expressionRule :=
  Terminating.bind_advancing .current fun _ => .take (operandRule_advancing hg) fun _ =>
    .bind (.collect (sequenceTail_stepping hg)) fun _ => .ite (.pure _) (.keep _ _)

end Expressions

section Declarations

theorem orRest_terminating {α : Type} {p q : Parser α} (hp : Parser.Terminating n p q) (raw : Text → α) :
    Parser.Terminating n (orRest p raw) (orRest q raw) := by
  refine .bind .current fun _ => .bind (.attempt hp) fun o => ?_
  cases o with
  | none => exact .bind .get fun _ => .bind (.skip _) fun _ => .keep _ _
  | some a => exact .pure _

theorem groupHeader_terminating (name : Text) :
    Parser.Terminating n (groupHeader name) (groupHeader name) := by
  refine .extend (fun _ c hs hr => .get_bind (.ite (fun _ => .stop) fun _ => .ite (fun _ => .fail)
    fun he => ?_)) _
  have hne : c.ahead ≠ [] := by simpa [Cursor.isEof] using he
  refine .ite (fun hb => ?_) fun _ => .step hs hr (.skip_of_ahead hne Nat.one_pos) fun _ => .pure _
  exact .step hs hr (.skipBalanced hs (by simp [Token.kind_of_isOpener hb])) fun _ => .pure _

variable (hg : g.Terminating n h)
include hg

theorem modifierRule_halts (hs : c.Sized) (hr : c.room < n + 1) (hk : c.peek.kind ≠ .eof) :
    Halts g.modifierRule h.modifierRule c fun _ c' => c.position < c'.position := by
  unfold modifierRule
  refine .take hs hr (.consume hs hk) fun t => ?_
  extract_lets rest rest'
  have hrest : ∀ detail, Parser.Terminating n (rest detail) (rest' detail) := fun _ =>
    .bind (.sliceFrom _) fun _ => .bind ((attributesRule_terminating hg).mono n.le_succ) fun _ => .pure _
  refine .bind .get fun c => .ite ?_ (.bind (.pure _) hrest)
  exact .bind (.skip _) fun _ => .bind .consume fun _ => .bind (.expect _) fun _ =>
    .bind (.pure _) hrest

theorem modifiersRule_terminating : Parser.Terminating (n + 1) g.modifiersRule h.modifiersRule := by
  refine .collectWhile fun c hs hr hm => modifierRule_halts hg hs hr ?_
  simp only [modifierFollows, Bool.and_eq_true] at hm
  simp [Token.kind_of_isIdentifierIn hm.1]

theorem bindingRule_advancing : Advancing (n + 1) g.bindingRule h.bindingRule := by
  unfold bindingRule
  refine fun c hs hr => .current_bind ?_
  extract_lets pattern pattern'
  have hpattern : ∀ name, Parser.Terminating n (pattern name) (pattern' name) := by
    refine fun _ => .bind (.sliceFrom _) fun _ => .bind .current fun _ => ?_
    extract_lets initializer initializer'
    have hinitializer : ∀ type, Parser.Terminating n (initializer type) (initializer' type) := by
      refine fun _ => .bind .current fun _ => ?_
      extract_lets accessors
      have haccessors : ∀ value, Parser.Terminating n (accessors value) (accessors value) := by
        refine fun _ => .bind .current fun _ => ?_
        extract_lets finish
        have hfinish : ∀ text, Parser.Terminating n (finish text) (finish text) := fun _ => .keep _ _
        refine .ite ?_ (.bind (.pure _) hfinish)
        exact .bind .skipBalanced fun _ => .bind (.sliceFrom _) fun _ => .bind (.pure _) hfinish
      refine .ite ?_ (.bind (.pure _) haccessors)
      exact .bind (.skip _) fun _ => .bind (orRest_terminating hg.expression.terminating _) fun _ =>
        .bind (.pure _) haccessors
    refine .ite ?_ (.bind (.pure _) hinitializer)
    exact .bind (.skip _) fun _ => .bind (orRest_terminating hg.type.terminating _) fun _ =>
      .bind (.pure _) hinitializer
  refine .ite (fun hk => ?_) fun _ => .ite (fun hb => ?_) fun _ => .fail_bind
  · exact .take hs hr (.consume hs (by simp_all)) fun _ => .bind (.pure _) hpattern
  · exact .take hs hr (.skipBalanced hs (by simp [Token.kind_of_isSymbol hb])) fun _ =>
      .bind (.pure _) hpattern

theorem memberBody_terminating (start : Token) (attributes : List Attribute) (modifiers : List Modifier) :
    Parser.Terminating (n + 1) (g.memberBody start attributes modifiers)
      (h.memberBody start attributes modifiers) := by
  refine .bind .current fun t => .ite ?_ ?_
  · exact .bind (.skip _) fun _ => .bind (.separated (bindingRule_advancing hg).terminating) fun _ =>
      .keep _ _
  · exact .bind .get fun _ => .bind (.skip _) fun _ => .bind .get fun _ => .pure _

theorem memberRule_terminating : Parser.Terminating (n + 1) g.memberRule h.memberRule :=
  .bind .current fun _ => .bind (attributesRule_terminating hg) fun _ =>
    .bind (modifiersRule_terminating hg) fun _ => memberBody_terminating hg _ _ _

/-- A member may take no token at all; then one is passed over. -/
theorem blockItem_stepping : Stepping (n + 1) g.blockItem h.blockItem := by
  refine fun c hs hr => .get_bind (.ite (fun _ => .stop) fun _ => .ite (fun _ => .fail) fun he =>
    .ite (fun hb => ?_) fun _ => ?_)
  · exact .step hs hr (.skip hs (by simp [Token.kind_of_isSymbol hb]) Nat.one_pos) fun _ => .pure _
  · have hne : c.ahead ≠ [] := by simpa [Cursor.isEof] using he
    refine .bind hs (memberRule_terminating hg c hs hr) fun member c₁ hs₁ ho _ => .get_bind (.ite
      (fun hp => ?_) fun hp => ?_)
    · refine .bind hs₁ (.skip_of_ahead (ho.ahead_ne_nil hp hne) Nat.one_pos)
        fun _ _ _ _ hlt => .pure fun _ => ?_
      rwa [hp] at hlt
    · have := ho.position_le
      exact .pure fun _ => by omega

theorem memberBlockRule_advancing : Advancing (n + 1) g.memberBlockRule h.memberBlockRule :=
  .bind (.expect _) fun _ => .bind (.collect (blockItem_stepping hg)) fun _ =>
    .bind (.expect _) fun _ => .keep _ _

theorem groupBody_terminating (start : Token) (attributes : List Attribute) (modifiers : List Modifier) :
    Parser.Terminating (n + 1) (g.groupBody start attributes modifiers)
      (h.groupBody start attributes modifiers) := by
  unfold groupBody
  refine .bind .consume fun keyword => ?_
  extract_lets rest rest'
  have hrest : Parser.Terminating (n + 1) (rest ()) (rest' ()) :=
    .bind .consume fun _ => .bind (groupHeader_terminating _) fun _ =>
      .bind (memberBlockRule_advancing hg).terminating fun _ => .keep _ _
  exact .bind .current fun _ => .ite (.bind (.fail _) fun _ => hrest) hrest

theorem declarationRule_terminating : Parser.Terminating (n + 1) g.declarationRule h.declarationRule :=
  .bind .current fun _ => .bind (attributesRule_terminating hg) fun _ =>
    .bind (modifiersRule_terminating hg) fun _ => .bind .current fun _ =>
      .ite (.bind (groupBody_terminating hg _ _ _) fun _ => .pure _)
        (.bind (memberBody_terminating hg _ _ _) fun _ => .pure _)

end Declarations

/-- A grammar with one more level: its nested parts are read by the rules that `g` is used in. -/
def level (g : Grammar) : Grammar :=
  { type := fun c => g.typeRule c
    constraint := fun c => g.constraintRule c
    expression := fun c => g.expressionRule c
    operand := fun c => g.operandRule c }

/-- A number of levels on top of a lowest grammar. -/
def above (lowest : Grammar) (n : Nat) : Grammar := level^[n] lowest

theorem above_succ (lowest : Grammar) (n : Nat) : above lowest (n + 1) = level (above lowest n) :=
  Function.iterate_succ_apply' level n lowest

theorem above_add (lowest : Grammar) (m n : Nat) : above lowest (m + n) = above (above lowest n) m :=
  Function.iterate_add_apply level m n lowest

theorem upTo_eq_above (n : Nat) : upTo n = above (upTo 0) n := by
  induction n with
  | zero => rfl
  | succ n ih =>
    rw [above_succ, ← ih]
    rfl

/-- A grammar is good for as much room as it has levels. -/
theorem above_terminating (lowest lowest' : Grammar) (n : Nat) :
    (above lowest n).Terminating n (above lowest' n) := by
  induction n with
  | zero =>
    exact ⟨fun _ _ hr => absurd hr (Nat.not_lt_zero _), fun _ _ hr => absurd hr (Nat.not_lt_zero _),
      fun _ _ hr => absurd hr (Nat.not_lt_zero _), fun _ _ hr => absurd hr (Nat.not_lt_zero _)⟩
  | succ n ih =>
    rw [above_succ, above_succ]
    exact ⟨typeRule_advancing ih, constraintRule_advancing ih, expressionRule_advancing ih,
      operandRule_advancing ih⟩

end Grammar

end SwiftMacros
