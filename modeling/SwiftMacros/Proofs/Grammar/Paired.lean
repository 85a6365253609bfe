import Mathlib
import SwiftMacros.Proofs.Parser.Paired
import SwiftMacros.Proofs.Grammar.Declaration

/-! Types and expressions are read with their brackets in pairs, as long as they open no brace. Braces
are what makes the difference: behind one, statements are told apart by counting brackets of
all kinds, and `if`, `switch` and `do` go on to the next brace over any bracket. -/

namespace SwiftMacros

open SwiftMacros.Parser

/-- A reliable grammar whose rules read brackets in pairs. -/
structure Grammar.Pairs (g : Grammar) : Prop where
  reliable : g.Reliable
  type : ∀ c : Cursor, c.Reached → Parser.Paired g.type c
  constraint : ∀ c : Cursor, c.Reached → Parser.Paired g.constraint c
  expression : ∀ c : Cursor, c.Reached → Parser.Paired g.expression c
  operand : ∀ c : Cursor, c.Reached → Parser.Paired g.operand c

namespace Token

variable {t : Token}

theorem isOpener_of_isSymbol {text : String} (h : t.isSymbol text = true)
    (hm : text = "(" ∨ text = "[") : t.isOpener = true := by
  have hword := word_of_isSymbol h
  simp only [word, Prod.mk.injEq] at hword
  rcases hm with rfl | rfl <;> simp [isOpener, isSymbolIn, hword.1, hword.2]

theorem not_bracket_of_identifier {words : List String} (h : t.isIdentifierIn words = true) :
    t.isOpener = false ∧ t.isCloser = false :=
  not_bracket_of_kind (by simp [kind_of_isIdentifierIn h])

theorem not_bracket_of_has {kind : Kind} {text : String} (h : t.has kind text = true)
    (hk : kind ≠ .symbol) : t.isOpener = false ∧ t.isCloser = false :=
  not_bracket_of_kind (by simpa [kind_of_has h] using hk)

end Token

namespace Grammar

variable {g : Grammar} {c c' : Cursor}

/-- A parenthesis that directly follows a token. -/
theorem opener_of_parenFollows (h : parenFollows c = true) :
    c.peek.isSymbol "(" = true ∧ c.peek.isOpener = true := by
  simp only [parenFollows, Bool.and_eq_true] at h
  exact ⟨h.1, Token.isOpener_of_isSymbol h.1 (.inl rfl)⟩

section Annotations

theorem effects_paired (hc : c.Reached) : Paired effects c := by
  refine .bind hc (.collectWhile hc fun c₁ hc₁ hm => ?_) fun _ _ hc₁ => .pure hc₁
  refine .consume_bind hc₁ (Token.not_bracket_of_identifier hm) fun hc₂ => .get_bind (.ite
    (fun hp => ?_) fun _ => .sliceFrom hc₂)
  simp only [Bool.and_eq_true] at hp
  exact .bind hc₂ (.skipBalanced hc₂ (opener_of_parenFollows hp.2).2) fun _ _ hc₃ => .sliceFrom hc₃

theorem elementLabel_paired (hc : c.Reached) : Paired elementLabel c := by
  refine .get_bind (.ite (fun h => ?_) fun _ => .ite (fun h => ?_) fun _ => .pure hc)
  · simp only [Bool.and_eq_true, beq_iff_eq] at h
    exact .skip_two_bind hc (Token.not_bracket_of_kind (by simp [h.1]))
      (Token.not_bracket_of_symbol h.2 (by decide)) fun hc₁ => .pure hc₁
  · simp only [Bool.and_eq_true, beq_iff_eq] at h
    refine .skip_two_bind hc (Token.not_bracket_of_kind (by simp [h.1.1]))
      (Token.not_bracket_of_kind (by simp [h.1.2])) fun hc₁ => .sliceFrom_bind ?_
    exact .skip_bind hc₁ (by rw [Cursor.peek_advance]; exact Token.not_bracket_of_symbol h.2 (by decide))
      fun hc₂ => .pure hc₂

theorem skipEllipsis_paired (hc : c.Reached) : Paired skipEllipsis c :=
  .current_bind (.ite (fun h => Paired.skip hc (Token.not_bracket_of_has h (by decide)))
    fun _ => .pure hc)

variable (hg : g.Pairs) (hc : c.Reached)
include hg hc

omit hc in
theorem argument_paired (hc : c.Reached) : Paired (do
    let c ← get
    let start := c.peek
    let label ←
      if start.kind == .identifier && (c.peek 1).isSymbol ":" then do
        skip 2
        pure (some start.text)
      else pure none
    let expression ← g.expression
    return Argument.mk expression label (← sliceFrom start)) c := by
  refine .get_bind ?_
  extract_lets start finish
  have hfinish : ∀ label (c₁ : Cursor), c₁.Reached → Paired (finish label) c₁ := fun _ c₁ hc₁ =>
    .bind hc₁ (hg.expression c₁ hc₁) fun _ _ hc₂ => .keep hc₂
  refine .ite (fun h => ?_) fun _ => hfinish none c hc
  simp only [start, Bool.and_eq_true, beq_iff_eq] at h
  exact .skip_two_bind hc (Token.not_bracket_of_kind (by simp [h.1]))
    (Token.not_bracket_of_symbol h.2 (by decide)) fun hc₁ => hfinish _ _ hc₁

theorem arguments_paired {o e : Char} (ho : o = '(' ∧ e = ')' ∨ o = '[' ∧ e = ']') :
    Paired (g.arguments (String.singleton o) (String.singleton e)) c :=
  .bracketed ho hc fun _ hc₁ => argument_paired hg hc₁

/-- Where the arguments of an attribute end is told by the grains ahead, whether they are read as
expressions without a brace or passed over. -/
theorem attributeRule_cases {a : Attribute} (h : g.attributeRule c = .ok a c') :
    c.peek.kind = .atName ∧ a.text = c'.sliceFrom c.peek ∧ (c.advance 1).Leads c' ∧
      if parenFollows (c.advance 1) then
        ∀ W, (c.advance 1).grains = W ++ c'.grains → Grain.Unbraced W →
          Grain.behind? 0 (c.advance 1).grains = some c'.grains
      else c' = c.advance 1 := by
  have hc₁ := hc.lead (hc.sound.advance 1)
  rw [attributeRule, consume_bind_eq_ok] at h
  by_cases hk : c.peek.kind = .atName
  · simp only [hk, bne_self_eq_false, Bool.false_eq_true, if_false, get_bind_eq_ok] at h
    refine ⟨hk, ?_⟩
    split at h
    next hp =>
      have hopen := opener_of_parenFollows hp
      obtain ⟨o, c₂, ho, h⟩ := of_bind_ok h
      rw [if_pos hp]
      cases o with
      | some as =>
        simp only [pure_bind_eq_ok, sliceFrom_bind_eq_ok, get_bind_eq_ok, pure_eq_ok] at h
        obtain ⟨rfl, rfl⟩ := h
        obtain ⟨hl, gap, gap', W, hW, hlevel⟩ := Paired.of_bracketed (.inl ⟨rfl, rfl⟩) hc₁
          (fun _ hc₃ => argument_paired hg hc₃) (attempt_eq_some.mp ho)
        refine ⟨rfl, hl, fun V hV hnone => ?_⟩
        obtain rfl : V = _ := List.append_cancel_right
          (hV.symm.trans (hW.trans (List.append_cons _ _ _)))
        exact hW ▸ (hlevel hnone.left.tail).behind rfl rfl rfl
      | none =>
        obtain ⟨e, c₃, he, rfl⟩ := attempt_eq_none.mp ho
        have hl₃ := (arguments_spec hg.reliable hc₁.sound hopen.1).error he
        obtain ⟨u, c₄, hskip, h⟩ := of_bind_ok h
        simp only [pure_bind_eq_ok, sliceFrom_bind_eq_ok, get_bind_eq_ok, pure_eq_ok] at h
        obtain ⟨rfl, rfl⟩ := h
        have hl := hl₃.rewind.1.trans ((Spec.skipBalanced hl₃.rewind.1.sound).lead.ok hskip).1
        exact ⟨rfl, hl, fun _ _ _ => hc₁.grains_rewind hl₃ ▸ Cursor.grains_skipBalanced hskip⟩
    next hp =>
      simp only [pure_bind_eq_ok, sliceFrom_bind_eq_ok, get_bind_eq_ok, pure_eq_ok] at h
      obtain ⟨rfl, rfl⟩ := h
      exact ⟨rfl, hc₁.sound.refl, by rw [if_neg hp]⟩
  · rw [if_pos (by simpa using hk)] at h
    cases h

/-- An attribute is read if its arguments, if it has some, are in brackets. -/
theorem exists_attributeRule (hk : c.peek.kind = .atName) {A : List Grain}
    (hA : parenFollows (c.advance 1) = true → Grain.behind? 0 (c.advance 1).grains = some A) :
    ∃ a c', g.attributeRule c = .ok a c' := by
  have hc₁ := hc.lead (hc.sound.advance 1)
  unfold attributeRule
  simp only [consume_bind_eq_ok, hk, bne_self_eq_false, Bool.false_eq_true, if_false, get_bind_eq_ok]
  split
  next hp =>
    have hopen := opener_of_parenFollows hp
    cases hargs : g.arguments "(" ")" (c.advance 1) with
    | ok as c₂ => exact ⟨_, _, bind_of_ok (attempt_eq_some.mpr hargs)⟩
    | error e c₂ =>
      have hl := (arguments_spec hg.reliable hc₁.sound hopen.1).error hargs
      have hc₂ := hc₁.lead hl.rewind.1
      obtain ⟨c₃, hskip, -⟩ := hc₂.exists_skipBalanced (A := A) (by
        rw [hc₁.grains_rewind hl]
        exact hA hp)
      simp only [bind_of_ok (attempt_eq_none.mpr ⟨e, c₂, hargs, rfl⟩), bind_of_ok hskip]
      exact ⟨_, _, rfl⟩
  next => exact ⟨_, _, rfl⟩

theorem attributeRule_paired : Paired g.attributeRule c := by
  intro a c' h
  obtain ⟨hk, -, hl, hend⟩ := attributeRule_cases hg hc h
  have hpass := hc.passes_advance (Token.not_bracket_of_kind (by simp [hk])).1
    (Token.not_bracket_of_kind (by simp [hk])).2
  have hc₁ := hc.lead hpass.leads
  split at hend
  next hp =>
    obtain ⟨V, hV, hlevelV⟩ := hpass.level
    obtain ⟨W, hW⟩ := hc₁.taken hl
    refine ⟨hpass.leads.trans hl, V ++ W, by rw [hV, hW, List.append_assoc], fun hnone => ?_⟩
    obtain ⟨U, hU, hlevelU⟩ := hc₁.level_behind (opener_of_parenFollows hp).2 (hend W hW hnone.right)
    obtain rfl : U = W := List.append_cancel_right (hU.symm.trans hW)
    exact (hlevelV hnone.left).append hlevelU
  next => exact hend ▸ hpass

theorem genericClause_paired : Paired g.genericClause c :=
  .consumeOperator_bind (m := '<') hc rfl fun _ _ hc₁ => .bind hc₁ (.separated hc₁ hg.type)
    fun _ _ hc₂ => .consumeOperator_bind (m := '>') hc₂ rfl fun _ _ hc₃ => .sliceFrom hc₃

theorem namedType_paired (hk : c.peek.kind = .identifier) : Paired g.namedType c := by
  unfold namedType
  refine .consume_bind hc (Token.not_bracket_of_kind (by simp [hk])) fun hc₁ => .get_bind ?_
  extract_lets members
  have hmembers : ∀ generics (c₂ : Cursor), c₂.Reached → Paired (members generics) c₂ := by
    refine fun _ c₂ hc₂ => .sliceFrom_bind (.extend hc₂ fun node c₃ hc₃ => .get_bind (.ite
      (fun hm => ?_) fun _ => .pure hc₃))
    simp only [Bool.and_eq_true, beq_iff_eq] at hm
    refine .skip_two_bind hc₃ (Token.not_bracket_of_kind (by simp [hm.1.1]))
      (Token.not_bracket_of_kind (by simp [hm.1.2])) fun hc₄ => .get_bind (.ite (fun _ => ?_) fun _ => .keep hc₄)
    exact .bind hc₄ (genericClause_paired hg hc₄) fun _ _ hc₅ => .keep hc₅
  exact .ite (fun _ => .bind hc₁ (genericClause_paired hg hc₁) fun _ _ hc₂ => hmembers _ _ hc₂)
    fun _ => hmembers _ _ hc₁

theorem tupleOrFunctionType_paired : Paired g.tupleOrFunctionType c := by
  refine .current_bind (.bind hc (.bracketed (o := '(') (e := ')') (.inl ⟨rfl, rfl⟩) hc fun c₁ hc₁ => ?_)
    fun elements c₁ hc₁ => .bind hc₁ (effects_paired hc₁) fun effects c₂ hc₂ => .current_bind (.ite
      (fun h => ?_) fun _ => .ite (fun _ => .fail) fun _ => .keep hc₂))
  · exact .current_bind (.bind hc₁ (elementLabel_paired hc₁) fun _ c₂ hc₂ =>
      .bind hc₂ (hg.type c₂ hc₂) fun _ _ hc₃ => .bind hc₃ (skipEllipsis_paired hc₃) fun _ _ hc₄ =>
        .keep hc₄)
  · exact .skip_bind hc₂ (Token.not_bracket_of_has h (by decide)) fun hc₃ =>
      .bind hc₃ (hg.type _ hc₃) fun _ _ hc₄ => .keep hc₄

theorem collectionType_paired (hk : c.peek.isSymbol "[" = true) : Paired g.collectionType c := by
  refine .open_bind hc hk fun hc₁ => .bind hc₁ (hg.type _ hc₁) fun element c₂ hc₂ => .current_bind (.ite
    (fun h => ?_) fun _ => .expect hc₂)
  exact .skip_bind hc₂ (Token.not_bracket_of_symbol h (by decide)) fun hc₃ =>
    .bind hc₃ (hg.type _ hc₃) fun value c₄ hc₄ => .expect hc₄

omit hg in
theorem typeSuffixes_paired (start : Token) (base : TypeTree) :
    Paired (typeSuffixes start base) c := by
  refine .extend hc fun node c₁ hc₁ => .get_bind (.ite (fun hm => ?_) fun _ => .ite (fun hm => ?_)
    fun _ => .pure hc₁)
  · simp only [Bool.and_eq_true] at hm
    obtain ⟨hk, m, hm, hmark⟩ := Token.mark_of_isMark hm.1
    exact .consumePart_bind hc₁ hk hm hmark fun _ _ hc₂ => .keep hc₂
  · simp only [Bool.and_eq_true, beq_iff_eq] at hm
    exact .skip_two_bind hc₁ (Token.not_bracket_of_kind (by simp [hm.1]))
      (Token.not_bracket_of_identifier hm.2) fun hc₂ => .keep hc₂

theorem simpleType_paired : Paired g.simpleType c :=
  .current_bind (.ite (fun _ => tupleOrFunctionType_paired hg hc) fun _ =>
    .ite (fun hk => collectionType_paired hg hc hk) fun _ =>
      .ite (fun hk => namedType_paired hg hc (by simpa using hk)) fun _ => .fail)

theorem constraintRule_paired : Paired g.constraintRule c := by
  refine .get_bind (.ite (fun _ => ?_) fun _ => .ite (fun hq => ?_) fun _ => ?_)
  · refine .bind hc (.collectWhile hc fun c₁ hc₁ hq => .current_bind (.ite (fun _ => ?_) fun hk => ?_))
      fun _ c₁ hc₁ => .bind hc₁ (hg.type c₁ hc₁) fun _ _ hc₂ => .keep hc₂
    · exact .bind hc₁ (attributeRule_paired hg hc₁) fun _ _ hc₂ => .pure hc₂
    · refine .consume_bind hc₁ ?_ fun hc₂ => .pure hc₂
      simp only [qualifiesType, Bool.or_eq_true] at hq
      exact Token.not_bracket_of_identifier (hq.resolve_left hk)
  · simp only [Bool.and_eq_true] at hq
    exact .skip_bind hc (Token.not_bracket_of_identifier hq.1) fun hc₁ =>
      .bind hc₁ (hg.constraint _ hc₁) fun _ _ hc₂ => .keep hc₂
  · exact .bind hc (simpleType_paired hg hc) fun _ _ hc₁ => typeSuffixes_paired hc₁ _ _

theorem typeRule_paired : Paired g.typeRule c :=
  .current_bind (.bind hc (constraintRule_paired hg hc) fun _ c₁ hc₁ => .bind hc₁
    (.collectWhile hc₁ fun _ hc₂ hm => .skip_bind hc₂ (Token.not_bracket_of_has hm (by decide))
      fun hc₃ => constraintRule_paired hg hc₃)
    fun _ _ hc₂ => .ite (fun _ => .pure hc₂) fun _ => .keep hc₂)

end Annotations

section Expressions

/-- What `if`, `switch` and `do` are read with goes on to a brace. -/
theorem controlExpression_paired (hc : c.Reached) (hk : c.peek.kind ≠ .eof) : Paired controlExpression c := by
  intro e c' h
  have hl := ((controlExpression_spec hc.sound hk).ok h).1
  have hs₁ := (hc.sound.advance 1).sound
  rw [controlExpression, consume_bind_eq_ok] at h
  obtain ⟨u, c₂, hloop, h⟩ := of_bind_ok h
  simp only [sliceFrom_bind_eq_ok, pure_eq_ok] at h
  obtain ⟨-, rfl⟩ := h
  have hread := (Spec.extend (I := fun _ _ => True) (Q := fun _ c₃ => ∃ c₁,
      (c.advance 1).Leads c₁ ∧ c₁.peek.isSymbol "\x7b" = true ∧ (c₁.advance 1).Leads c₃)
    (fun _ c₁ hl₁ _ => Spec.get_bind ?_) hs₁ trivial).ok hloop
  · obtain ⟨-, c₁, hl₁, hbrace, hl₂⟩ := hread
    have hc₁ := hc.lead ((hc.sound.advance 1).trans hl₁)
    obtain ⟨W, hW⟩ := hc.taken ((hc.sound.advance 1).trans hl₁)
    have hl₂' := (hc₁.sound.advance 1).trans hl₂
    obtain ⟨V, hV⟩ := hc₁.taken hl₂'
    have hk₁ : c₁.peek.kind ≠ .eof := by simp [Token.kind_of_isSymbol hbrace]
    refine ⟨hl, W ++ V, by rw [hW, hV, List.append_assoc], fun hnone => ?_⟩
    exact absurd hnone.right (hc₁.not_unbraced hbrace hl₂' (hc₁.sound.peek_lt hk₁ hl₂) hV)
  · have hs := hl₁.sound
    refine Spec.ite (fun hbrace => ?_) fun _ => Spec.ite (fun _ => Spec.fail hs) fun _ =>
      Spec.ite (fun _ => ?_) fun _ => Spec.skip_bind hs (Spec.pure (hs.advance 1).sound (by simp))
    · refine Spec.bind (Spec.skipBalanced hs) fun _ c₂ hl₂ hl => Spec.current_bind (Spec.ite (fun _ => ?_)
        fun _ => Spec.pure hl₂.sound ⟨by simp, fun _ => ⟨c₁, hl₁, hbrace, hl⟩⟩)
      exact Spec.skip_bind hl₂.sound (Spec.pure (hl₂.sound.advance 1).sound (by simp))
    · exact Spec.bind (Spec.skipBalanced hs) fun _ c₂ hl₂ _ => Spec.pure hl₂.sound (by simp)

theorem keyPath_paired (hc : c.Reached) (hk : c.peek.kind = .backslash) : Paired keyPath c := by
  refine .consume_bind hc (Token.not_bracket_of_kind (by simp [hk])) fun hc₁ => .bind hc₁
    (.extend hc₁ fun _ c₂ hc₂ => .current_bind ?_) fun _ _ hc₂ => .keep hc₂
  refine .ite (fun _ => .pure hc₂) fun _ => .ite (fun h => ?_) fun _ => .ite (fun hm => ?_)
    fun _ => .ite (fun h => ?_) fun _ => .pure hc₂
  · refine .skip_bind hc₂ (Token.not_bracket_of_kind ?_) fun hc₃ => .pure hc₃
    simp only [Bool.or_eq_true, beq_iff_eq] at h
    rcases h with (h | h) | h <;> simp [h]
  · obtain ⟨hk, m, hm, hmark⟩ := Token.mark_of_isMark hm
    exact .consumePart_bind hc₂ hk hm hmark fun _ _ hc₃ => .pure hc₃
  · exact .bind hc₂ (.skipBalanced hc₂ (Token.isOpener_of_isSymbol h (.inr rfl))) fun _ _ hc₃ =>
      .pure hc₃

theorem otherItems_paired {α : Type} {item : Parser α} (hc : c.Reached)
    (h : ∀ c' : Cursor, c'.Reached → Paired item c') : Paired (otherItems item) c := by
  refine .collect hc fun c₁ hc₁ => .current_bind (.ite (fun hm => ?_) fun _ => .pure hc₁)
  exact .skip_bind hc₁ (Token.not_bracket_of_symbol hm (by decide)) fun hc₂ =>
    .current_bind (.ite (fun _ => .pure hc₂) fun _ => .bind hc₂ (h _ hc₂) fun _ _ hc₃ => .pure hc₃)

theorem castModifier_paired (hc : c.Reached) : Paired castModifier c := by
  refine .current_bind (.ite (fun hm => ?_) fun _ => .pure hc)
  simp only [Bool.and_eq_true] at hm
  obtain ⟨hk, m, hm, hmark⟩ := Token.mark_of_isMark hm.1
  exact .consumePart_bind hc hk hm hmark fun _ _ hc₁ => .pure hc₁

variable (hg : g.Pairs) (hc : c.Reached)
include hc

include hg

/-- A closure is read with its brace. -/
theorem closureRule_paired : Paired g.closureRule c := by
  intro k c' h
  obtain ⟨hl, hk⟩ := (closureRule_spec hg.reliable hc.sound).ok h
  obtain ⟨W, hW⟩ := hc.taken hl
  have hkind := hc.sound.kind_of_reads (m := '\x7b') rfl hk.opening
  have hopening := hk.opening
  simp only [Token.reads, Bool.and_eq_true, beq_iff_eq] at hopening
  have hbrace : c.peek.isSymbol "\x7b" = true := by simp [Token.isSymbol, Token.has, hkind, hopening.1.1]
  exact ⟨hl, W, hW, fun hnone => absurd hnone (hc.not_unbraced hbrace hl hk.lt hW)⟩

theorem trailingClosure_paired : Paired g.trailingClosure c :=
  .get_bind (.ite (fun _ => .bind hc (closureRule_paired hg hc) fun _ _ hc₁ => .pure hc₁) fun _ => .pure hc)

theorem specializationClause_paired : Paired g.specializationClause c :=
  .bind hc (genericClause_paired hg hc) fun _ _ hc₁ =>
    .current_bind (.ite (fun _ => .pure hc₁) fun _ => .fail)

theorem expansionRule_paired (hk : c.peek.kind = .poundName) : Paired g.expansionRule c := by
  unfold expansionRule
  refine .consume_bind hc (Token.not_bracket_of_kind (by simp [hk])) fun hc₁ => ?_
  extract_lets trailing arguments rest
  have htrailing : ∀ as (c₂ : Cursor), c₂.Reached → Paired (trailing as) c₂ := fun _ c₂ hc₂ =>
    .bind hc₂ (trailingClosure_paired hg hc₂) fun _ _ hc₃ => .sliceFrom_bind (.get_bind (.pure hc₃))
  have harguments : ∀ c₂ : Cursor, c₂.Reached → Paired (arguments ()) c₂ := fun c₂ hc₂ =>
    .current_bind (.ite (fun _ => .bind hc₂ (arguments_paired (o := '(') (e := ')') hg hc₂ (.inl ⟨rfl, rfl⟩)) fun _ _ hc₃ =>
      htrailing _ _ hc₃) fun _ => htrailing _ _ hc₂)
  refine .ite (fun h => absurd hk (by simpa using h)) fun _ => .get_bind (.ite (fun _ => ?_)
    fun _ => harguments _ hc₁)
  exact .bind hc₁ (.attempt hc₁ (specializationClause_spec hg.reliable hc₁.sound)
    (specializationClause_paired hg hc₁)) fun _ _ hc₂ => harguments _ hc₂

theorem collectionLiteral_paired (hk : c.peek.isSymbol "[" = true) : Paired g.collectionLiteral c := by
  refine .open_bind hc hk fun hc₁ => .get_bind (.ite (fun h => ?_) fun _ => .ite (fun h => .skip hc₁ h)
    fun _ => .bind hc₁ (hg.expression _ hc₁) fun first c₂ hc₂ => .current_bind (.ite (fun h => ?_)
      fun _ => .bind hc₂ (otherItems_paired hc₂ hg.expression) fun _ _ hc₃ => .expect hc₃))
  · simp only [Bool.and_eq_true] at h
    refine Closing.skip_two hc₁ (Token.not_bracket_of_symbol h.1 (by decide)) h.2
  · refine .skip_bind hc₂ (Token.not_bracket_of_symbol h (by decide)) fun hc₃ => .bind hc₃
      (hg.expression _ hc₃) fun value c₄ hc₄ => Closing.get_bind (.bind hc₄ (otherItems_paired hc₄
        fun c₅ hc₅ => ?_) fun _ _ hc₅ => .expect hc₅)
    exact .current_bind (.bind hc₅ (hg.expression _ hc₅) fun _ c₆ hc₆ => .expect_bind hc₆ rfl (by decide)
      fun hc₇ => .bind hc₇ (hg.expression _ hc₇) fun _ _ hc₈ => .keep hc₈)

theorem nameExpression_paired (hk : c.peek.kind = .identifier) : Paired g.nameExpression c := by
  refine .consume_bind hc (Token.not_bracket_of_kind (by simp [hk])) fun hc₁ => .get_bind (.ite
    (fun _ => .bind hc₁ (.attempt hc₁ (specializationClause_spec hg.reliable hc₁.sound)
      (specializationClause_paired hg hc₁)) fun o c₂ hc₂ => ?_) fun _ => .pure hc₁)
  cases o with
  | none => exact .pure hc₂
  | some clause => exact .keep hc₂

theorem wordExpression_paired (hk : c.peek.kind = .identifier) : Paired g.wordExpression c := by
  have hplain := Token.not_bracket_of_kind (t := c.peek) (by simp [hk])
  exact .current_bind (.ite (fun _ => .skip_bind hc hplain fun hc₁ => .pure hc₁) fun _ =>
    .ite (fun _ => .skip_bind hc hplain fun hc₁ => .pure hc₁) fun _ =>
      .ite (fun _ => controlExpression_paired hc (by simp [hk])) fun _ => nameExpression_paired hg hc hk)

theorem primary_paired : Paired g.primary c := by
  refine .get_bind ?_
  dsimp only
  split
  case h_4 hk => exact wordExpression_paired hg hc hk
  case h_5 hk => exact .bind hc (expansionRule_paired hg hc hk) fun _ _ hc₁ => .pure hc₁
  case h_6 hk => exact keyPath_paired hc hk
  case h_7 =>
    refine .ite (fun h => ?_) fun _ => .ite (fun h => collectionLiteral_paired hg hc h) fun _ =>
      .ite (fun _ => .bind hc (arguments_paired (o := '(') (e := ')') hg hc (.inl ⟨rfl, rfl⟩)) fun _ _ hc₁ => .keep hc₁)
        fun _ => .ite (fun _ => .bind hc (closureRule_paired hg hc) fun _ _ hc₁ => .pure hc₁) fun _ => .fail
    simp only [Bool.and_eq_true, beq_iff_eq] at h
    exact .skip_two_bind hc (Token.not_bracket_of_kind (by simp [h.1.1]))
      (Token.not_bracket_of_kind (by simp [h.1.2])) fun hc₁ => .keep hc₁
  all_goals
    rename_i hk
    exact .skip_bind hc (Token.not_bracket_of_kind (by simp [hk])) fun hc₁ => .pure hc₁

theorem suffixes_paired (start : Token) (base : Expression) : Paired (g.suffixes start base) c := by
  refine .extend hc fun e c₁ hc₁ => .get_bind (.ite (fun h => ?_) fun _ => .ite (fun _ => ?_)
    fun _ => .ite (fun _ => ?_) fun _ => .ite (fun _ => ?_) fun _ => .ite (fun h => ?_) fun _ => .pure hc₁)
  · simp only [Bool.and_eq_true, Bool.or_eq_true, beq_iff_eq] at h
    refine .skip_two_bind hc₁ (Token.not_bracket_of_kind (by simp [h.1]))
      (Token.not_bracket_of_kind ?_) fun hc₂ => .keep hc₂
    rcases h.2 with h | h <;> simp [h]
  · exact .bind hc₁ (arguments_paired (o := '(') (e := ')') hg hc₁ (.inl ⟨rfl, rfl⟩)) fun _ _ hc₂ =>
      .bind hc₂ (trailingClosure_paired hg hc₂) fun _ _ hc₃ => .keep hc₃
  · exact .bind hc₁ (arguments_paired (o := '[') (e := ']') hg hc₁ (.inr ⟨rfl, rfl⟩)) fun _ _ hc₂ => .keep hc₂
  · exact .bind hc₁ (closureRule_paired hg hc₁) fun _ _ hc₂ => .keep hc₂
  · simp only [isMarks, Bool.and_eq_true, beq_iff_eq] at h
    obtain ⟨m, x, hx⟩ := List.exists_cons_of_ne_nil
      (hc₁.sound.placed_peek (by simp [h.1.1])).text_ne_nil
    have hm := List.all_eq_true.mp h.1.2 m (by simp [hx])
    refine .consumePart_bind (m := m) hc₁ h.1.1 (by simp [hx]) ?_ fun _ _ hc₂ => .keep hc₂
    simp only [Bool.or_eq_true, beq_iff_eq] at hm
    rcases hm with rfl | rfl <;> rfl

theorem operandRule_paired : Paired g.operandRule c := by
  unfold operandRule
  refine .get_bind ?_
  extract_lets start next inner
  have hinner : ∀ c₁ : Cursor, c₁.Reached → Paired (inner ()) c₁ := fun c₁ hc₁ =>
    .sliceFrom_bind (.bind hc₁ (hg.operand _ hc₁) fun _ _ hc₂ => .keep hc₂)
  refine .ite (fun h => ?_) fun _ => .ite (fun h => ?_) fun _ => .ite (fun h => ?_) fun _ => ?_
  · simp only [Bool.and_eq_true] at h
    refine .skip_bind hc (Token.not_bracket_of_identifier h.1) fun hc₁ => .ite (fun h => ?_)
      fun _ => hinner _ hc₁
    simp only [Bool.and_eq_true] at h
    obtain ⟨hk, m, hm, hmark⟩ := Token.mark_of_isMark (t := (c.advance 1).peek)
      (by rw [Cursor.peek_advance]; exact h.1.2)
    exact .consumePart_bind hc₁ hk hm hmark fun _ _ hc₂ => hinner _ hc₂
  · simp only [start, Bool.and_eq_true, beq_iff_eq] at h
    exact .skip_bind hc (Token.not_bracket_of_kind (by simp [h.1])) fun hc₁ => .pure hc₁
  · simp only [start, Bool.and_eq_true, beq_iff_eq] at h
    exact .skip_bind hc (Token.not_bracket_of_kind (by simp [h.1])) fun hc₁ =>
      .bind hc₁ (hg.operand _ hc₁) fun _ _ hc₂ => .keep hc₂
  · exact .bind hc (primary_paired hg hc) fun _ _ hc₁ => suffixes_paired hg hc₁ _ _

theorem sequenceTail_paired : Paired g.sequenceTail c := by
  unfold sequenceTail
  refine .get_bind ?_
  extract_lets t target operand
  have htarget : ∀ link (c₁ : Cursor), c₁.Reached → Paired (target link) c₁ := fun _ c₁ hc₁ =>
    .current_bind (.bind hc₁ (hg.type _ hc₁) fun _ _ hc₂ => .keep hc₂)
  have hoperand : ∀ link (c₁ : Cursor), c₁.Reached → Paired (operand link) c₁ := fun _ c₁ hc₁ =>
    .bind hc₁ (operandRule_paired hg hc₁) fun _ _ hc₂ => .pure hc₂
  refine .ite (fun h => ?_) fun _ => .ite (fun h => ?_) fun _ => .pure hc
  · simp only [Bool.and_eq_true] at h
    exact .skip_bind hc (Token.not_bracket_of_identifier h.1) fun hc₁ => .ite (fun _ =>
      .bind hc₁ (castModifier_paired hc₁) fun _ _ hc₂ => .sliceFrom_bind (htarget _ _ hc₂))
      fun _ => htarget _ _ hc₁
  · simp only [t, Bool.and_eq_true, beq_iff_eq] at h
    refine .skip_bind hc (Token.not_bracket_of_kind (by simp [h.1])) fun hc₁ => .ite (fun _ => ?_)
      fun _ => hoperand _ _ hc₁
    exact .bind hc₁ (hg.expression _ hc₁) fun _ _ hc₂ => .expect_bind hc₂ rfl (by decide)
      fun hc₃ => .sliceFrom_bind (hoperand _ _ hc₃)

theorem expressionRule_paired : Paired g.expressionRule c :=
  .current_bind (.bind hc (operandRule_paired hg hc) fun _ _ hc₁ => .bind hc₁
    (.collect hc₁ fun _ hc₂ => sequenceTail_paired hg hc₂) fun _ _ hc₂ =>
      .ite (fun _ => .pure hc₂) fun _ => .keep hc₂)

end Expressions

theorem upTo_pairs (n : Nat) : (upTo n).Pairs := by
  induction n with
  | zero =>
    exact ⟨upTo_reliable 0, fun _ _ _ _ h => (by cases h), fun _ _ _ _ h => (by cases h),
      fun _ _ _ _ h => (by cases h), fun _ _ _ _ h => (by cases h)⟩
  | succ n ih =>
    exact ⟨upTo_reliable (n + 1), fun _ hc => typeRule_paired ih hc,
      fun _ hc => constraintRule_paired ih hc, fun _ hc => expressionRule_paired ih hc,
      fun _ hc => operandRule_paired ih hc⟩

end Grammar

end SwiftMacros
