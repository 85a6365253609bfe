import Mathlib
import SwiftMacros.Proofs.Parser.Fenced
import SwiftMacros.Proofs.Grammar.Paired

/-! The grammar stays in brackets. Each rule leaves the brackets open that were open before, also where
it passes over tokens without reading them. `if`, `switch` and `do` pass over everything up to a brace,
and a modifier takes what stands for its detail, whatever it is: there it matters that words are settled.
The rest of a binding and the statements of a closure end at a brace only, so they are read where a brace
is to be closed. -/

namespace SwiftMacros

open SwiftMacros.Parser

/-- A reliable grammar whose rules stay in brackets. -/
structure Grammar.Fences (g : Grammar) : Prop where
  reliable : g.Reliable
  type : ∀ {e : Token} {es : List Token} {c : Cursor}, c.Fenced (e :: es) → Stays (e :: es) g.type c
  constraint : ∀ {e : Token} {es : List Token} {c : Cursor}, c.Fenced (e :: es) →
    Stays (e :: es) g.constraint c
  expression : ∀ {e : Token} {es : List Token} {c : Cursor}, c.Fenced (e :: es) →
    Stays (e :: es) g.expression c
  operand : ∀ {e : Token} {es : List Token} {c : Cursor}, c.Fenced (e :: es) →
    Stays (e :: es) g.operand c

namespace Grammar

variable {g : Grammar} {c c' : Cursor} {e x : Token} {es : List Token}

section Annotations

theorem effects_stays (hc : c.Fenced (e :: es)) : Stays (e :: es) effects c := by
  refine .bind (.collectWhile hc fun c₁ hc₁ hm => ?_) fun _ _ hc₁ => .pure hc₁
  refine .consume_bind hc₁ (Token.not_bracket_of_identifier hm) fun hc₂ => .get_bind (.ite
    (fun hp => ?_) fun _ => .sliceFrom hc₂)
  simp only [Bool.and_eq_true] at hp
  exact .bind (.skipBalanced hc₂ (opener_of_parenFollows hp.2).2) fun _ _ hc₃ => .sliceFrom hc₃

theorem elementLabel_stays (hc : c.Fenced (e :: es)) : Stays (e :: es) elementLabel c := by
  refine .get_bind (.ite (fun h => ?_) fun _ => .ite (fun h => ?_) fun _ => .pure hc)
  · simp only [Bool.and_eq_true, beq_iff_eq] at h
    exact .skip_two_bind hc (Token.not_bracket_of_kind (by simp [h.1]))
      (Token.not_bracket_of_symbol h.2 (by decide)) fun hc₁ => .pure hc₁
  · simp only [Bool.and_eq_true, beq_iff_eq] at h
    refine .skip_two_bind hc (Token.not_bracket_of_kind (by simp [h.1.1]))
      (Token.not_bracket_of_kind (by simp [h.1.2])) fun hc₁ => .sliceFrom_bind ?_
    exact .skip_bind hc₁ (by rw [Cursor.peek_advance]; exact Token.not_bracket_of_symbol h.2 (by decide))
      fun hc₂ => .pure hc₂

theorem skipEllipsis_stays (hc : c.Fenced (e :: es)) : Stays (e :: es) skipEllipsis c :=
  .current_bind (.ite (fun h => .skip hc (Token.not_bracket_of_has h (by decide))) fun _ => .pure hc)

variable (hg : g.Fences)
include hg

theorem argument_stays (hc : c.Fenced (e :: es)) : Stays (e :: es) (do
    let c ← get
    let start := c.peek
    let label ←
      if start.kind == .identifier && (c.peek 1).isSymbol ":" then do
        skip 2
        pure (some start.text)
      else pure none
    let expression ← g.expression
    return Argument.mk expression label (← sliceFrom start)) c := by
  refine .get_bind ?_
  extract_lets start finish
  have hfinish : ∀ label (c₁ : Cursor), c₁.Fenced (e :: es) → Stays (e :: es) (finish label) c₁ :=
    fun _ c₁ hc₁ => .bind (hg.expression hc₁) fun _ _ hc₂ => .keep hc₂
  refine .ite (fun h => ?_) fun _ => hfinish none c hc
  simp only [start, Bool.and_eq_true, beq_iff_eq] at h
  exact .skip_two_bind hc (Token.not_bracket_of_kind (by simp [h.1]))
    (Token.not_bracket_of_symbol h.2 (by decide)) fun hc₁ => hfinish _ _ hc₁

variable (hc : c.Fenced (e :: es))
include hc

theorem arguments_stays {o m : Char} (ho : o ∈ ['(', '[', '\x7b']) (hm : m ∈ [')', ']', '\x7d']) :
    Stays (e :: es) (g.arguments (String.singleton o) (String.singleton m)) c :=
  .bracketed ho hm hc fun _ _ hc₁ => argument_stays hg hc₁

theorem attributeRule_stays (hk : c.peek.kind = .atName) : Stays (e :: es) g.attributeRule c := by
  unfold attributeRule
  refine .consume_bind hc (Token.not_bracket_of_kind (by simp [hk])) fun hc₁ => ?_
  extract_lets finish rest
  have hfinish : ∀ arguments (c₂ : Cursor), c₂.Fenced (e :: es) → Stays (e :: es) (finish arguments) c₂ :=
    fun _ _ hc₂ => .sliceFrom_bind (.get_bind (.pure hc₂))
  refine .ite (fun h => absurd hk (by simpa using h)) fun _ => .get_bind (.ite (fun hp => ?_)
    fun _ => hfinish _ _ hc₁)
  have hopen := opener_of_parenFollows hp
  refine .attempt_bind hc₁ (arguments_spec hg.reliable hc₁.sound hopen.1)
    (arguments_stays (o := '(') (m := ')') hg hc₁ (by simp) (by simp)) (fun _ _ hc₂ => hfinish _ _ hc₂)
    fun c₂ hc₂ hpeek => ?_
  have hpeek := hpeek (by simp [Token.kind_of_isSymbol hopen.1])
  exact .bind (.skipBalanced hc₂ (hpeek ▸ hopen.2)) fun _ _ hc₃ => hfinish _ _ hc₃

theorem genericClause_stays : Stays (e :: es) g.genericClause c :=
  .consumeOperator_bind (m := '<') hc rfl fun _ _ hc₁ => .bind (.separated hc₁ fun _ => hg.type)
    fun _ _ hc₂ => .consumeOperator_bind (m := '>') hc₂ rfl fun _ _ hc₃ => .sliceFrom hc₃

theorem namedType_stays (hk : c.peek.kind = .identifier) : Stays (e :: es) g.namedType c := by
  unfold namedType
  refine .consume_bind hc (Token.not_bracket_of_kind (by simp [hk])) fun hc₁ => .get_bind ?_
  extract_lets members
  have hmembers : ∀ generics (c₂ : Cursor), c₂.Fenced (e :: es) → Stays (e :: es) (members generics) c₂ := by
    refine fun _ c₂ hc₂ => .sliceFrom_bind (.extend hc₂ fun node c₃ hc₃ => .get_bind (.ite
      (fun hm => ?_) fun _ => .pure hc₃))
    simp only [Bool.and_eq_true, beq_iff_eq] at hm
    refine .skip_two_bind hc₃ (Token.not_bracket_of_kind (by simp [hm.1.1]))
      (Token.not_bracket_of_kind (by simp [hm.1.2])) fun hc₄ => .get_bind (.ite (fun _ => ?_) fun _ => .keep hc₄)
    exact .bind (genericClause_stays hg hc₄) fun _ _ hc₅ => .keep hc₅
  exact .ite (fun _ => .bind (genericClause_stays hg hc₁) fun _ _ hc₂ => hmembers _ _ hc₂)
    fun _ => hmembers _ _ hc₁

theorem tupleOrFunctionType_stays : Stays (e :: es) g.tupleOrFunctionType c := by
  refine .current_bind (.bind (.bracketed (o := '(') (m := ')') (by simp) (by simp) hc fun x c₁ hc₁ => ?_)
    fun elements c₁ hc₁ => .bind (effects_stays hc₁) fun effects c₂ hc₂ => .current_bind (.ite
      (fun h => ?_) fun _ => .ite (fun _ => .fail) fun _ => .keep hc₂))
  · exact .current_bind (.bind (elementLabel_stays hc₁) fun _ c₂ hc₂ =>
      .bind (hg.type hc₂) fun _ _ hc₃ => .bind (skipEllipsis_stays hc₃) fun _ _ hc₄ => .keep hc₄)
  · exact .skip_bind hc₂ (Token.not_bracket_of_has h (by decide)) fun hc₃ =>
      .bind (hg.type hc₃) fun _ _ hc₄ => .keep hc₄

theorem collectionType_stays (hk : c.peek.isSymbol "[" = true) : Stays (e :: es) g.collectionType c := by
  refine .open_bind hc (Token.isOpener_of_isSymbol hk (.inr rfl)) fun x _ _ hc₁ => .bind (hg.type hc₁)
    fun element c₂ hc₂ => .current_bind (.ite (fun h => ?_) fun _ =>
      .expect_close_bind (m := ']') hc₂ (by simp) fun _ hc₃ => .keep hc₃)
  exact .skip_bind hc₂ (Token.not_bracket_of_symbol h (by decide)) fun hc₃ =>
    .bind (hg.type hc₃) fun value c₄ hc₄ => .expect_close_bind (m := ']') hc₄ (by simp) fun _ hc₅ => .keep hc₅

omit hg in
theorem typeSuffixes_stays (start : Token) (base : TypeTree) :
    Stays (e :: es) (typeSuffixes start base) c := by
  refine .extend hc fun node c₁ hc₁ => .get_bind (.ite (fun hm => ?_) fun _ => .ite (fun hm => ?_)
    fun _ => .pure hc₁)
  · simp only [Bool.and_eq_true] at hm
    obtain ⟨hk, m, hm, hmark⟩ := Token.mark_of_isMark hm.1
    exact .consumePart_bind hc₁ hk hm hmark fun _ _ hc₂ => .keep hc₂
  · simp only [Bool.and_eq_true, beq_iff_eq] at hm
    exact .skip_two_bind hc₁ (Token.not_bracket_of_kind (by simp [hm.1]))
      (Token.not_bracket_of_identifier hm.2) fun hc₂ => .keep hc₂

theorem simpleType_stays : Stays (e :: es) g.simpleType c :=
  .current_bind (.ite (fun _ => tupleOrFunctionType_stays hg hc) fun _ =>
    .ite (fun hk => collectionType_stays hg hc hk) fun _ =>
      .ite (fun hk => namedType_stays hg hc (by simpa using hk)) fun _ => .fail)

theorem constraintRule_stays : Stays (e :: es) g.constraintRule c := by
  refine .get_bind (.ite (fun _ => ?_) fun _ => .ite (fun hq => ?_) fun _ => ?_)
  · refine .bind (.collectWhile hc fun c₁ hc₁ hq => .current_bind (.ite (fun hk => ?_) fun hk => ?_))
      fun _ c₁ hc₁ => .bind (hg.type hc₁) fun _ _ hc₂ => .keep hc₂
    · exact .bind (attributeRule_stays hg hc₁ (by simpa using hk)) fun _ _ hc₂ => .pure hc₂
    · refine .consume_bind hc₁ ?_ fun hc₂ => .pure hc₂
      simp only [qualifiesType, Bool.or_eq_true] at hq
      exact Token.not_bracket_of_identifier (hq.resolve_left hk)
  · simp only [Bool.and_eq_true] at hq
    exact .skip_bind hc (Token.not_bracket_of_identifier hq.1) fun hc₁ =>
      .bind (hg.constraint hc₁) fun _ _ hc₂ => .keep hc₂
  · exact .bind (simpleType_stays hg hc) fun _ _ hc₁ => typeSuffixes_stays hc₁ _ _

theorem typeRule_stays : Stays (e :: es) g.typeRule c :=
  .current_bind (.bind (constraintRule_stays hg hc) fun _ c₁ hc₁ => .bind
    (.collectWhile hc₁ fun _ hc₂ hm => .skip_bind hc₂ (Token.not_bracket_of_has hm (by decide))
      fun hc₃ => constraintRule_stays hg hc₃)
    fun _ _ hc₂ => .ite (fun _ => .pure hc₂) fun _ => .keep hc₂)

theorem attributesRule_stays : Stays (e :: es) g.attributesRule c :=
  .collectWhile hc fun _ hc₁ hk => attributeRule_stays hg hc₁ (by simpa using hk)

end Annotations

section Closures

/-- What a signature is made of, up to the word `in`. -/
def signatureParts (g : Grammar) : Parser (Text → Signature) := do
  let attributes ← g.attributesRule
  let capture ←
    if (← current).isSymbol "[" then pure (some (← g.captureClause)) else pure none
  let parameters ← g.closureParameters
  let effects ← effects
  let result ← g.returnClause
  return fun text => ⟨capture, parameters, effects, result, attributes.map (·.text), text⟩

theorem closureSignature_eq (g : Grammar) : g.closureSignature = current >>= fun start =>
    g.signatureParts >>= fun parts => current >>= fun word =>
      if word.isIdentifierIn ["in"] then skip 1 >>= fun _ => sliceFrom start >>= fun text => pure (parts text)
      else fail .closureIn := by
  simp only [closureSignature, signatureParts, bind_assoc, pure_bind]
  congr 1
  funext start
  congr 1
  funext attributes
  congr 1
  funext bracket
  split <;> simp only [bind_assoc, pure_bind]

/-- What stands in the braces of a closure. -/
def closureInside (g : Grammar) : Parser (Option Signature × List Statement) := do
  let signature ← attempt g.closureSignature
  let ss ← statements
  return (signature, ss)

theorem closureRule_eq (g : Grammar) : g.closureRule = expect "\x7b".toList >>= fun start =>
    g.closureInside >>= fun p => expect "\x7d".toList >>= fun _ => sliceFrom start >>= fun text =>
      pure ⟨p.1, p.2, text, Text.spaces 4⟩ := by
  simp only [closureRule, closureInside, bind_assoc, pure_bind]

theorem captureSpecifier_stays (hc : c.Fenced (e :: es)) : Stays (e :: es) captureSpecifier c := by
  refine .get_bind (.ite (fun h => ?_) fun _ => .pure hc)
  have hplain : c.peek.isOpener = false ∧ c.peek.isCloser = false := by
    simp only [Bool.or_eq_true, Bool.and_eq_true] at h
    rcases h with h | h
    · exact Token.not_bracket_of_identifier h.1
    · simp only [beq_iff_eq] at h
      simp [Token.isOpener, Token.isCloser, Token.isSymbolIn, h.1]
  refine .skip_bind hc hplain fun hc₁ => .get_bind (.ite (fun hp => ?_) fun _ => .keep hc₁)
  exact .bind (.skipBalanced hc₁ (opener_of_parenFollows hp).2) fun _ _ hc₂ => .keep hc₂

theorem captureName_stays (hc : c.Fenced (e :: es)) : Stays (e :: es) captureName c := by
  refine .get_bind (.ite (fun h => ?_) fun _ => .pure hc)
  simp only [Bool.and_eq_true, beq_iff_eq] at h
  exact .skip_two_bind hc (Token.not_bracket_of_kind (by simp [h.1]))
    (Token.not_bracket_of_has h.2 (by decide)) fun hc₁ => .pure hc₁

/-- The statements of a body are read up to the brace that closes it. -/
theorem statements_stays (hc : c.Fenced (e :: es)) (he : e.isSymbol "\x7d" = true) :
    Stays (e :: es) statements c := by
  refine .get_bind ?_
  extract_lets stop start
  split
  next ss n hn =>
    intro _ c' h
    rw [skip_bind_eq_ok, pure_eq_ok] at h
    obtain ⟨-, rfl⟩ := h
    have hfenced : Token.Fenced ([] ++ e :: es) c.ahead := hc.ahead
    exact ⟨(hc.sound.advance n).sound, hfenced.drop_statementsFrom he rfl hn⟩
  next => exact fun _ _ h => by cases h

variable (hg : g.Fences) (hc : c.Fenced (e :: es))
include hg hc

theorem captureClause_stays : Stays (e :: es) g.captureClause c := by
  refine .current_bind (.bind (.bracketed (o := '[') (m := ']') (by simp) (by simp) hc fun x c₁ hc₁ => ?_)
    fun _ _ hc₁ => .keep hc₁)
  exact .current_bind (.bind (captureSpecifier_stays hc₁) fun _ _ hc₂ => .bind (captureName_stays hc₂)
    fun _ _ hc₃ => .bind (hg.expression hc₃) fun _ _ hc₄ => .keep hc₄)

theorem closureParameter_stays : Stays (e :: es) g.closureParameter c := by
  unfold closureParameter
  refine .current_bind ?_
  extract_lets type rest
  have htype : ∀ name (c₁ : Cursor), c₁.Fenced (e :: es) → Stays (e :: es) (type name) c₁ := by
    refine fun _ c₁ hc₁ => .current_bind (.ite (fun h => ?_) fun _ => .keep hc₁)
    exact .skip_bind hc₁ (Token.not_bracket_of_symbol h (by decide)) fun hc₂ => .bind (hg.type hc₂)
      fun _ _ hc₃ => .bind (skipEllipsis_stays hc₃) fun _ _ hc₄ => .keep hc₄
  refine .ite (fun _ => .fail_bind) fun hk => .consume_bind hc (Token.not_bracket_of_kind ?_) fun hc₁ =>
    .current_bind (.ite (fun hk => ?_) fun _ => htype _ _ hc₁)
  · simp only [bne_iff_ne, ne_eq, not_not] at hk
    simp [hk]
  · exact .consume_bind hc₁ (Token.not_bracket_of_kind (by simp [beq_iff_eq.mp hk])) fun hc₂ => htype _ _ hc₂

theorem closureParameters_stays : Stays (e :: es) g.closureParameters c := by
  refine .current_bind (.ite (fun _ => ?_) fun _ => .ite (fun _ => ?_) fun _ => .pure hc)
  · exact .bind (.bracketed (o := '(') (m := ')') (by simp) (by simp) hc fun _ _ hc₁ =>
      closureParameter_stays hg hc₁) fun _ _ hc₁ => .keep hc₁
  · refine .bind (.separated hc fun c₁ hc₁ => .current_bind (.ite (fun hk => ?_) fun _ => .fail))
      fun _ _ hc₁ => .keep hc₁
    exact .consume_bind hc₁ (Token.not_bracket_of_kind (by simp [beq_iff_eq.mp hk])) fun hc₂ => .pure hc₂

theorem returnClause_stays : Stays (e :: es) g.returnClause c :=
  .current_bind (.ite (fun h => .skip_bind hc (Token.not_bracket_of_has h (by decide)) fun hc₁ =>
    .bind (hg.type hc₁) fun _ _ hc₂ => .keep hc₂) fun _ => .pure hc)

theorem signatureParts_stays : Stays (e :: es) g.signatureParts c := by
  unfold signatureParts
  refine .bind (attributesRule_stays hg hc) fun as c₁ hc₁ => .current_bind ?_
  extract_lets rest
  have hrest : ∀ capture (c₂ : Cursor), c₂.Fenced (e :: es) → Stays (e :: es) (rest capture) c₂ :=
    fun _ _ hc₂ => .bind (closureParameters_stays hg hc₂) fun _ _ hc₃ => .bind (effects_stays hc₃)
      fun _ _ hc₄ => .bind (returnClause_stays hg hc₄) fun _ _ hc₅ => .pure hc₅
  exact .ite (fun _ => .bind (captureClause_stays hg hc₁) fun _ _ hc₂ => hrest _ _ hc₂)
    fun _ => hrest _ _ hc₁

theorem closureSignature_stays : Stays (e :: es) g.closureSignature c := by
  rw [closureSignature_eq]
  exact .current_bind (.bind (signatureParts_stays hg hc) fun _ _ hc₁ => .current_bind (.ite
    (fun h => .skip_bind hc₁ (Token.not_bracket_of_identifier h) fun hc₂ => .keep hc₂) fun _ => .fail))

omit hc in
/-- Behind its opening brace a closure is read up to the mark that is to come, if that is a brace. -/
theorem closureRule_behind (hs : c.Sound) (hc : (c.advance 1).Fenced (x :: es))
    (hx : x.isSymbol "\x7d" = true) {k : Closure} (h : g.closureRule c = .ok k c') :
    c'.Fenced es ∧ c'.previous = x ∧ k.text = Text.slice c.source c.peek.start x.stop := by
  have hl := ((closureRule_spec hg.reliable hs).ok h).1
  obtain ⟨-, h⟩ := expect_bind_eq_ok.mp h
  obtain ⟨sig, c₁, hsig, h⟩ := of_bind_ok h
  obtain ⟨ss, c₂, hss, h⟩ := of_bind_ok h
  have hc₁ := Stays.attempt hc (closureSignature_spec hg.reliable hc.sound) (closureSignature_stays hg hc) _ _ hsig
  have hc₂ := statements_stays hc₁ hx _ _ hss
  obtain ⟨hr, h⟩ := expect_bind_eq_ok.mp h
  rw [sliceFrom_bind_eq_ok, pure_eq_ok] at h
  obtain ⟨rfl, rfl⟩ := h
  obtain ⟨hpeek, hc₃⟩ := hc₂.advance_closer (hc₂.isCloser_of_reads (m := '\x7d') (by simp) hr)
  have hprevious := hpeek ▸ hc₂.previous_advance
  refine ⟨hc₃, hprevious, ?_⟩
  rw [Cursor.sliceFrom, hprevious, hl.source]

theorem closureRule_stays : Stays (e :: es) g.closureRule c := by
  intro k c' h
  obtain ⟨hr, -⟩ := expect_bind_eq_ok.mp h
  obtain ⟨ho, htext⟩ := hc.isOpener_of_reads (m := '\x7b') (by simp) hr
  obtain ⟨x, hx, hclosing, hc₁⟩ := hc.advance_opener ho
  refine (closureRule_behind hg hc.sound hc₁ ?_ h).1
  simp only [Token.isCloser, Token.isSymbolIn, Bool.and_eq_true, beq_iff_eq] at hx
  simp [Token.isSymbol, Token.has, hx.1, hclosing, Token.closing, htext]

theorem trailingClosure_stays : Stays (e :: es) g.trailingClosure c :=
  .get_bind (.ite (fun _ => .bind (closureRule_stays hg hc) fun _ _ hc₁ => .pure hc₁) fun _ => .pure hc)

theorem specializationClause_stays : Stays (e :: es) g.specializationClause c :=
  .bind (genericClause_stays hg hc) fun _ _ hc₁ => .current_bind (.ite (fun _ => .pure hc₁) fun _ => .fail)

theorem expansionRule_stays (hk : c.peek.kind = .poundName) : Stays (e :: es) g.expansionRule c := by
  unfold expansionRule
  refine .consume_bind hc (Token.not_bracket_of_kind (by simp [hk])) fun hc₁ => ?_
  extract_lets trailing arguments rest
  have htrailing : ∀ as (c₂ : Cursor), c₂.Fenced (e :: es) → Stays (e :: es) (trailing as) c₂ :=
    fun _ c₂ hc₂ => .bind (trailingClosure_stays hg hc₂) fun _ _ hc₃ => .sliceFrom_bind (.get_bind (.pure hc₃))
  have harguments : ∀ c₂ : Cursor, c₂.Fenced (e :: es) → Stays (e :: es) (arguments ()) c₂ := fun c₂ hc₂ =>
    .current_bind (.ite (fun _ => .bind (arguments_stays (o := '(') (m := ')') hg hc₂ (by simp) (by simp))
      fun _ _ hc₃ => htrailing _ _ hc₃) fun _ => htrailing _ _ hc₂)
  refine .ite (fun h => absurd hk (by simpa using h)) fun _ => .get_bind (.ite (fun _ => ?_)
    fun _ => harguments _ hc₁)
  exact .bind (.attempt hc₁ (specializationClause_spec hg.reliable hc₁.sound)
    (specializationClause_stays hg hc₁)) fun _ _ hc₂ => harguments _ hc₂

end Closures

section Expressions

/-- A word that asks for a block and has it is taken. -/
theorem opensBlock_advance (hc : c.Fenced (e :: es)) (hw : c.peek.awaitsBlock = true) :
    (c.advance 1).Fenced (e :: es) ∧ Token.opensBlock 0 (c.advance 1).ahead = true := by
  have hplain : c.peek.isOpener = false ∧ c.peek.isCloser = false := by
    simp only [Token.awaitsBlock, List.any_cons, List.any_nil, Bool.or_false, Bool.and_eq_true,
      Bool.or_eq_true, beq_iff_eq] at hw
    rcases hw.2 with h | h | h | h | h <;> simp [Token.isOpener, Token.isCloser, Token.isSymbolIn, h]
  obtain ⟨hsettles, hc₁⟩ := hc.advance_settled hplain
  simp only [Token.settles, hw, Bool.and_eq_true, Bool.or_eq_true, Bool.not_true] at hsettles
  exact ⟨hc₁, hsettles.1.resolve_left Bool.false_ne_true⟩

/-- A step on the way over the blocks of `if`, `switch` or `do`. -/
def controlStep (start : Token) : Parser (Option Unit) := do
  let c ← get
  if c.peek.isSymbol "\x7b" then do
    skipBalanced
    let t ← current
    if t.reads "else".toList || t.reads "catch".toList then do
      skip 1
      return some ()
    else return none
  else if c.isEof then fail (.controlBody start.text)
  else if c.peek.isOpener then do
    skipBalanced
    return some ()
  else do
    skip 1
    return some ()

theorem controlExpression_eq : controlExpression = consume >>= fun start =>
    extend (fun _ => controlStep start) () >>= fun _ => sliceFrom start >>= fun s => pure (.raw s) := rfl

/-- In front of the block that is looked for, no closing mark is passed. Behind the last block there is none
to look for. -/
theorem controlStep_stays {start : Token} {o : Option Unit} (hc : c.Fenced (e :: es))
    (hblock : Token.opensBlock 0 c.ahead = true) (ho : controlStep start c = .ok o c') :
    c'.Fenced (e :: es) ∧ (o ≠ none → Token.opensBlock 0 c'.ahead = true) := by
  obtain ⟨hbrace, ho⟩ | ⟨hbrace, ho⟩ := ite_eq_ok.mp (get_bind_eq_ok.mp ho)
  · obtain ⟨u, c₃, hu, ho⟩ := of_bind_ok ho
    have hc₃ := (hc.skipBalanced (Token.isOpener_of_brace hbrace) hu).1
    obtain ⟨hreads, ho⟩ | ⟨-, ho⟩ := ite_eq_ok.mp (current_bind_eq_ok.mp ho)
    · rw [skip_bind_eq_ok, pure_eq_ok] at ho
      obtain ⟨rfl, rfl⟩ := ho
      exact (opensBlock_advance hc₃ (hc₃.awaitsBlock_of_reads hreads)).imp_right fun h _ => h
    · obtain ⟨rfl, rfl⟩ := pure_eq_ok.mp ho
      exact ⟨hc₃, by simp⟩
  obtain ⟨-, ho⟩ | ⟨-, ho⟩ := ite_eq_ok.mp ho
  · cases ho
  obtain ⟨hopener, ho⟩ | ⟨hopener, ho⟩ := ite_eq_ok.mp ho
  · obtain ⟨u, c₃, hu, ho⟩ := of_bind_ok ho
    obtain ⟨rfl, rfl⟩ := pure_eq_ok.mp ho
    obtain ⟨hc₃, hkeeps⟩ := hc.skipBalanced hopener hu
    exact ⟨hc₃, fun _ => hkeeps (by simpa using hbrace) hblock⟩
  · rw [skip_bind_eq_ok, pure_eq_ok] at ho
    obtain ⟨rfl, rfl⟩ := ho
    -- no closing mark comes before the block that is looked for
    rw [hc.ahead_eq, Token.opensBlock, if_neg hopener] at hblock
    split_ifs at hblock with hcloser
    simp only [Bool.not_eq_true] at hopener hcloser
    exact ⟨hc.advance ⟨hopener, hcloser⟩, fun _ => hblock⟩

theorem awaitsBlock_of_control {t : Token} (hk : t.isIdentifierIn ["if", "switch", "do"] = true) :
    t.awaitsBlock = true := by
  simp only [Token.isIdentifierIn, List.any_cons, List.any_nil, Bool.or_false, Bool.and_eq_true,
    Bool.or_eq_true, beq_iff_eq] at hk
  simp only [Token.awaitsBlock, hk.1, List.any_cons, List.any_nil, Bool.or_false, Bool.and_eq_true,
    Bool.or_eq_true, beq_iff_eq]
  tauto

/-- In front of the block that it asks for, an expression with blocks is read up to the end of the last
of them. -/
theorem controlExpression_stays (hc : c.Fenced (e :: es))
    (hk : c.peek.isIdentifierIn ["if", "switch", "do"] = true) : Stays (e :: es) controlExpression c := by
  have hstart := opensBlock_advance hc (awaitsBlock_of_control hk)
  rw [controlExpression_eq]
  refine fun a c' h => Stays.bind (Stays.extend_of
    (I := fun c => c.Fenced (e :: es) ∧ Token.opensBlock 0 c.ahead = true) hstart ?_)
    (fun _ _ hc₂ => Stays.keep hc₂) a c' (consume_bind_eq_ok.mp h)
  rintro - c₁ ⟨hc₁, hblock⟩ o c₂ ho
  obtain ⟨hc₂, hnext⟩ := controlStep_stays hc₁ hblock ho
  exact ⟨fun _ => hc₂, fun hne => ⟨hc₂, hnext hne⟩⟩

theorem keyPath_stays (hc : c.Fenced (e :: es)) (hk : c.peek.kind = .backslash) :
    Stays (e :: es) keyPath c := by
  refine .consume_bind hc (Token.not_bracket_of_kind (by simp [hk])) fun hc₁ => .bind
    (.extend hc₁ fun _ c₂ hc₂ => .current_bind ?_) fun _ _ hc₂ => .keep hc₂
  refine .ite (fun _ => .pure hc₂) fun _ => .ite (fun h => ?_) fun _ => .ite (fun hm => ?_)
    fun _ => .ite (fun h => ?_) fun _ => .pure hc₂
  · refine .skip_bind hc₂ (Token.not_bracket_of_kind ?_) fun hc₃ => .pure hc₃
    simp only [Bool.or_eq_true, beq_iff_eq] at h
    rcases h with (h | h) | h <;> simp [h]
  · obtain ⟨hk, m, hm, hmark⟩ := Token.mark_of_isMark hm
    exact .consumePart_bind hc₂ hk hm hmark fun _ _ hc₃ => .pure hc₃
  · exact .bind (.skipBalanced hc₂ (Token.isOpener_of_isSymbol h (.inr rfl))) fun _ _ hc₃ => .pure hc₃

theorem otherItems_stays {α : Type} {item : Parser α} (hc : c.Fenced (e :: es))
    (h : ∀ c' : Cursor, c'.Fenced (e :: es) → Stays (e :: es) item c') :
    Stays (e :: es) (otherItems item) c := by
  refine .collect hc fun c₁ hc₁ => .current_bind (.ite (fun hm => ?_) fun _ => .pure hc₁)
  exact .skip_bind hc₁ (Token.not_bracket_of_symbol hm (by decide)) fun hc₂ =>
    .current_bind (.ite (fun _ => .pure hc₂) fun _ => .bind (h _ hc₂) fun _ _ hc₃ => .pure hc₃)

theorem castModifier_stays (hc : c.Fenced (e :: es)) : Stays (e :: es) castModifier c := by
  refine .current_bind (.ite (fun hm => ?_) fun _ => .pure hc)
  simp only [Bool.and_eq_true] at hm
  obtain ⟨hk, m, hm, hmark⟩ := Token.mark_of_isMark hm.1
  exact .consumePart_bind hc hk hm hmark fun _ _ hc₁ => .pure hc₁

variable (hg : g.Fences) (hc : c.Fenced (e :: es))
include hg hc

theorem collectionLiteral_stays (hk : c.peek.isSymbol "[" = true) :
    Stays (e :: es) g.collectionLiteral c := by
  refine .open_bind hc (Token.isOpener_of_isSymbol hk (.inr rfl)) fun x _ _ hc₁ => .get_bind (.ite
    (fun h => ?_) fun _ => .ite (fun h => .close_bind hc₁ (Token.isCloser_of_isSymbol h (by simp)) fun hc₂ =>
      .keep hc₂) fun _ => .bind (hg.expression hc₁) fun first c₂ hc₂ => .current_bind (.ite (fun h => ?_)
        fun _ => .bind (otherItems_stays hc₂ fun _ => hg.expression) fun _ _ hc₃ =>
          .expect_close_bind (m := ']') hc₃ (by simp) fun _ hc₄ => .keep hc₄))
  · simp only [Bool.and_eq_true] at h
    exact .skip_close_bind hc₁ (Token.not_bracket_of_symbol h.1 (by decide))
      (Token.isCloser_of_isSymbol h.2 (by simp)) fun hc₂ => .keep hc₂
  · refine .skip_bind hc₂ (Token.not_bracket_of_symbol h (by decide)) fun hc₃ => .bind
      (hg.expression hc₃) fun value c₄ hc₄ => .sliceFrom_bind (.bind (otherItems_stays hc₄
        fun c₅ hc₅ => ?_) fun _ _ hc₅ => .expect_close_bind (m := ']') hc₅ (by simp) fun _ hc₆ => .keep hc₆)
    exact .current_bind (.bind (hg.expression hc₅) fun _ c₆ hc₆ => .expect_bind hc₆ rfl (by decide)
      fun hc₇ => .bind (hg.expression hc₇) fun _ _ hc₈ => .keep hc₈)

theorem nameExpression_stays (hk : c.peek.kind = .identifier) : Stays (e :: es) g.nameExpression c := by
  refine .consume_bind hc (Token.not_bracket_of_kind (by simp [hk])) fun hc₁ => .get_bind (.ite
    (fun _ => .bind (.attempt hc₁ (specializationClause_spec hg.reliable hc₁.sound)
      (specializationClause_stays hg hc₁)) fun o c₂ hc₂ => ?_) fun _ => .pure hc₁)
  cases o with
  | none => exact .pure hc₂
  | some clause => exact .keep hc₂

theorem wordExpression_stays (hk : c.peek.kind = .identifier) : Stays (e :: es) g.wordExpression c := by
  have hplain := Token.not_bracket_of_kind (t := c.peek) (by simp [hk])
  exact .current_bind (.ite (fun _ => .skip_bind hc hplain fun hc₁ => .pure hc₁) fun _ =>
    .ite (fun _ => .skip_bind hc hplain fun hc₁ => .pure hc₁) fun _ =>
      .ite (fun h => controlExpression_stays hc h) fun _ => nameExpression_stays hg hc hk)

theorem primary_stays : Stays (e :: es) g.primary c := by
  refine .get_bind ?_
  dsimp only
  split
  case h_4 hk => exact wordExpression_stays hg hc hk
  case h_5 hk => exact .bind (expansionRule_stays hg hc hk) fun _ _ hc₁ => .pure hc₁
  case h_6 hk => exact keyPath_stays hc hk
  case h_7 =>
    refine .ite (fun h => ?_) fun _ => .ite (fun h => collectionLiteral_stays hg hc h) fun _ =>
      .ite (fun _ => .bind (arguments_stays (o := '(') (m := ')') hg hc (by simp) (by simp)) fun _ _ hc₁ =>
        .keep hc₁) fun _ => .ite (fun _ => .bind (closureRule_stays hg hc) fun _ _ hc₁ => .pure hc₁) fun _ => .fail
    simp only [Bool.and_eq_true, beq_iff_eq] at h
    exact .skip_two_bind hc (Token.not_bracket_of_kind (by simp [h.1.1]))
      (Token.not_bracket_of_kind (by simp [h.1.2])) fun hc₁ => .keep hc₁
  all_goals
    rename_i hk
    exact .skip_bind hc (Token.not_bracket_of_kind (by simp [hk])) fun hc₁ => .pure hc₁

theorem suffixes_stays (start : Token) (base : Expression) : Stays (e :: es) (g.suffixes start base) c := by
  refine .extend hc fun _ c₁ hc₁ => .get_bind (.ite (fun h => ?_) fun _ => .ite (fun _ => ?_)
    fun _ => .ite (fun _ => ?_) fun _ => .ite (fun _ => ?_) fun _ => .ite (fun h => ?_) fun _ => .pure hc₁)
  · simp only [Bool.and_eq_true, Bool.or_eq_true, beq_iff_eq] at h
    refine .skip_two_bind hc₁ (Token.not_bracket_of_kind (by simp [h.1]))
      (Token.not_bracket_of_kind ?_) fun hc₂ => .keep hc₂
    rcases h.2 with h | h <;> simp [h]
  · exact .bind (arguments_stays (o := '(') (m := ')') hg hc₁ (by simp) (by simp)) fun _ _ hc₂ =>
      .bind (trailingClosure_stays hg hc₂) fun _ _ hc₃ => .keep hc₃
  · exact .bind (arguments_stays (o := '[') (m := ']') hg hc₁ (by simp) (by simp)) fun _ _ hc₂ => .keep hc₂
  · exact .bind (closureRule_stays hg hc₁) fun _ _ hc₂ => .keep hc₂
  · simp only [isMarks, Bool.and_eq_true, beq_iff_eq] at h
    obtain ⟨m, x, hx⟩ := List.exists_cons_of_ne_nil
      (hc₁.sound.placed_peek (by simp [h.1.1])).text_ne_nil
    have hm := List.all_eq_true.mp h.1.2 m (by simp [hx])
    refine .consumePart_bind (m := m) hc₁ h.1.1 (by simp [hx]) ?_ fun _ _ hc₂ => .keep hc₂
    simp only [Bool.or_eq_true, beq_iff_eq] at hm
    rcases hm with rfl | rfl <;> rfl

theorem operandRule_stays : Stays (e :: es) g.operandRule c := by
  unfold operandRule
  refine .get_bind ?_
  extract_lets start next inner
  have hinner : ∀ c₁ : Cursor, c₁.Fenced (e :: es) → Stays (e :: es) (inner ()) c₁ := fun c₁ hc₁ =>
    .sliceFrom_bind (.bind (hg.operand hc₁) fun _ _ hc₂ => .keep hc₂)
  refine .ite (fun h => ?_) fun _ => .ite (fun h => ?_) fun _ => .ite (fun h => ?_) fun _ => ?_
  · simp only [Bool.and_eq_true] at h
    refine .skip_bind hc (Token.not_bracket_of_identifier h.1) fun hc₁ => .ite (fun h => ?_)
      fun _ => hinner _ hc₁
    simp only [Bool.and_eq_true] at h
    obtain ⟨hk, m, hm, hmark⟩ := Token.mark_of_isMark (t := (c.advance 1).peek)
      (by rw [Cursor.peek_advance]; exact h.1.2)
    exact .consumePart_bind hc₁ hk hm hmark fun _ _ hc₂ => hinner _ hc₂
  · simp only [start, Bool.and_eq_true, beq_iff_eq] at h
    exact .skip_bind hc (Token.not_bracket_of_kind (by simp [h.1])) fun hc₁ => .pure hc₁
  · simp only [start, Bool.and_eq_true, beq_iff_eq] at h
    exact .skip_bind hc (Token.not_bracket_of_kind (by simp [h.1])) fun hc₁ =>
      .bind (hg.operand hc₁) fun _ _ hc₂ => .keep hc₂
  · exact .bind (primary_stays hg hc) fun _ _ hc₁ => suffixes_stays hg hc₁ _ _

theorem sequenceTail_stays : Stays (e :: es) g.sequenceTail c := by
  unfold sequenceTail
  refine .get_bind ?_
  extract_lets t target operand
  have htarget : ∀ link (c₁ : Cursor), c₁.Fenced (e :: es) → Stays (e :: es) (target link) c₁ :=
    fun _ c₁ hc₁ => .current_bind (.bind (hg.type hc₁) fun _ _ hc₂ => .keep hc₂)
  have hoperand : ∀ link (c₁ : Cursor), c₁.Fenced (e :: es) → Stays (e :: es) (operand link) c₁ :=
    fun _ c₁ hc₁ => .bind (operandRule_stays hg hc₁) fun _ _ hc₂ => .pure hc₂
  refine .ite (fun h => ?_) fun _ => .ite (fun h => ?_) fun _ => .pure hc
  · simp only [Bool.and_eq_true] at h
    exact .skip_bind hc (Token.not_bracket_of_identifier h.1) fun hc₁ => .ite (fun _ =>
      .bind (castModifier_stays hc₁) fun _ _ hc₂ => .sliceFrom_bind (htarget _ _ hc₂))
      fun _ => htarget _ _ hc₁
  · simp only [t, Bool.and_eq_true, beq_iff_eq] at h
    refine .skip_bind hc (Token.not_bracket_of_kind (by simp [h.1])) fun hc₁ => .ite (fun _ => ?_)
      fun _ => hoperand _ _ hc₁
    exact .bind (hg.expression hc₁) fun _ _ hc₂ => .expect_bind hc₂ rfl (by decide)
      fun hc₃ => .sliceFrom_bind (hoperand _ _ hc₃)

theorem expressionRule_stays : Stays (e :: es) g.expressionRule c :=
  .current_bind (.bind (operandRule_stays hg hc) fun _ _ hc₁ => .bind
    (.collect hc₁ fun _ hc₂ => sequenceTail_stays hg hc₂) fun _ _ hc₂ =>
      .ite (fun _ => .pure hc₂) fun _ => .keep hc₂)

end Expressions

theorem upTo_fences (n : Nat) : (upTo n).Fences := by
  induction n with
  | zero =>
    exact ⟨upTo_reliable 0, fun _ _ _ h => (by cases h), fun _ _ _ h => (by cases h),
      fun _ _ _ h => (by cases h), fun _ _ _ h => (by cases h)⟩
  | succ n ih =>
    exact ⟨upTo_reliable (n + 1), fun hc => typeRule_stays ih hc, fun hc => constraintRule_stays ih hc,
      fun hc => expressionRule_stays ih hc, fun hc => operandRule_stays ih hc⟩

end Grammar

end SwiftMacros
