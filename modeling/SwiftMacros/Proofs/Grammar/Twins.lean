import Mathlib
import SwiftMacros.Proofs.Parser.Twins
import SwiftMacros.Proofs.Token.Seam
import SwiftMacros.Proofs.Grammar.Fenced
import SwiftMacros.Proofs.Grammar.Forward

/-! The grammar reads two sources alike where no parser tells their tokens apart: each rule takes the same
tokens in both. Only types and what a signature is made of are read where the last token in common can be
passed; expressions stand in brackets or in front of the closing brace. -/

namespace SwiftMacros

open Token (Setting Twin)
open Cursor (Beside Past)
open SwiftMacros.Parser

theorem Token.not_closer_of_opener {t : Token} (h : t.isOpener = true) : t.isCloser = false := by
  by_contra hc
  simp [isOpener_of_isCloser (by simpa using hc)] at h

/-- Two grammars that read alike, the first where there is room for less than `n` tokens and the second
where there is room for less than `n'`. -/
structure Grammar.Agree (g : Grammar) (S : Setting) (n n' : Nat) (g' : Grammar) : Prop where
  forward : g.Forward
  type : ∀ {l : Prop} {L : Stage} {c c' : Cursor}, (L.Loose S → l) → L.Fits n n' → Beside S l L c c' →
    Keeps S l L L.next g.type g'.type c c'
  constraint : ∀ {l : Prop} {L : Stage} {c c' : Cursor}, (L.Loose S → l) → L.Fits n n' → Beside S l L c c' →
    Keeps S l L L.next g.constraint g'.constraint c c'
  expression : ∀ {l : Prop} {L : Stage} {c c' : Cursor}, ¬ L.Loose S → L.Fits n n' → Beside S l L c c' →
    Keeps S l L L.next g.expression g'.expression c c'
  operand : ∀ {l : Prop} {L : Stage} {c c' : Cursor}, ¬ L.Loose S → L.Fits n n' → Beside S l L c c' →
    Keeps S l L L.next g.operand g'.operand c c'

namespace Grammar

variable {S : Setting} {l : Prop} {L : Stage} {n n' : Nat} {g g' : Grammar} {c c' : Cursor}

section Looks

variable (h : c.Twins S L c')
include h

theorem parenFollows_twin (hL : L.strict = true) : parenFollows c' = parenFollows c := by
  unfold parenFollows
  rw [h.peek.isSymbol]
  cases hp : c.peek.isSymbol "(" with
  | false => rfl
  | true => rw [h.space hL (Token.not_closer_of_opener (Token.isOpener_of_isSymbol hp (.inl rfl)))]

theorem genericsFollow_twin (hL : L.strict = true) : genericsFollow c' = genericsFollow c := by
  unfold genericsFollow
  rw [h.peek.isOperatorWith]
  cases hp : c.peek.isOperatorWith "<" with
  | false => rfl
  | true =>
    simp only [Token.isOperatorWith, Bool.and_eq_true, beq_iff_eq] at hp
    rw [h.space hL (Token.not_bracket_of_kind (by simp [hp.1])).2]

theorem paren_newline_twin (hL : L.strict = true) :
    (c'.peek.isSymbol "(" && !c'.peek.newlineBefore) = (c.peek.isSymbol "(" && !c.peek.newlineBefore) := by
  rw [h.peek.isSymbol]
  cases hp : c.peek.isSymbol "(" with
  | false => rfl
  | true => rw [h.newline hL (Token.not_closer_of_opener (Token.isOpener_of_isSymbol hp (.inl rfl)))]

theorem isMark_space_twin (hL : L.strict = true) :
    (c'.peek.isMark && !c'.peek.spaceBefore) = (c.peek.isMark && !c.peek.spaceBefore) := by
  rw [h.peek.isMark]
  cases hp : c.peek.isMark with
  | false => rfl
  | true => rw [h.space hL (Token.not_bracket_of_kind (by simp [(Token.mark_of_isMark hp).1])).2]

/-- What is asked of the token behind one that is no closing mark. -/
theorem second_twin {a a' : Bool} {q : Token → Bool} (ha : a' = a)
    (hplain : a = true → c.peek.isCloser = false ∧ (L.Loose S → c.peek.isSeam = false))
    (hq : ∀ t t', Twin S t t' → S.front ≤ t.start → q t' = q t) : (a' && q (c'.peek 1)) = (a && q (c.peek 1)) := by
  rw [ha]
  cases h' : a with
  | false => rfl
  | true =>
    obtain ⟨htwin, hfront⟩ := h.second (hplain h').1 (hplain h').2
    rw [hq _ _ htwin hfront]

end Looks

/-- A closing mark is among any symbols that hold all of them. -/
theorem isSymbolIn_of_isCloser {t : Token} {ms : List String} (h : t.isCloser = true)
    (hms : [")", "]", "\x7d"] ⊆ ms) : t.isSymbolIn ms = true := by
  simp only [Token.isCloser, Token.isSymbolIn, Bool.and_eq_true, List.any_eq_true] at h ⊢
  obtain ⟨hk, m, hm, htext⟩ := h
  exact ⟨hk, m, hms hm, htext⟩

/-- Whether what is in front of a token shows that generic arguments have ended. -/
theorem specialized_twin {t t' : Token} (h : Twin S t t') (hs : S.front ≤ t.start) :
    (t'.kind == .eof || t'.newlineBefore || t'.kind == .dot ||
      t'.isSymbolIn ["(", ")", "]", ",", ":", ";", "\x7d"]) = (t.kind == .eof || t.newlineBefore ||
        t.kind == .dot || t.isSymbolIn ["(", ")", "]", ",", ":", ";", "\x7d"]) := by
  rw [h.kind, h.isSymbolIn]
  cases hc : t.isCloser with
  | false => rw [h.newline hs hc]
  | true => rw [isSymbolIn_of_isCloser hc (by decide), Bool.or_true, Bool.or_true]

theorem operandFollows_twin {t t' : Token} (h : Twin S t t') (hs : S.front ≤ t.start) :
    operandFollows t' = operandFollows t := by
  rw [operandFollows, operandFollows, h.kind, h.isCloser, h.isSymbolIn]
  cases hc : t.isCloser with
  | false => rw [h.newline hs hc]
  | true => simp

section Annotations

/-- What is no symbol and no word is no closing mark, and nothing can end there. -/
theorem apart_of_kind {t : Token} {k : Token.Kind} (hs : k ≠ .symbol) (hi : k ≠ .identifier) (hk : (t.kind == k) = true) :
    t.isCloser = false ∧ (L.Loose S → t.isSeam = false) := by
  rw [beq_iff_eq] at hk
  refine ⟨(Token.not_bracket_of_kind (hk ▸ hs)).2, fun _ => Bool.eq_false_iff.mpr fun h => ?_⟩
  exact (Token.kind_of_isSeam h).elim (fun h => hi (hk ▸ h)) fun h => hs (hk ▸ h)

theorem apart_of_dot {t : Token} : (t.kind == .dot) = true →
    t.isCloser = false ∧ (L.Loose S → t.isSeam = false) := apart_of_kind (by decide) (by decide)

theorem apart_of_operator {t : Token} : (t.kind == .operator) = true →
    t.isCloser = false ∧ (L.Loose S → t.isSeam = false) := apart_of_kind (by decide) (by decide)

/-- A word is not the word `in` if it is one of others. -/
theorem apart_of_words {t : Token} {ws : List String} (hw : t.isIdentifierIn ws = true)
    (hin : "in".toList ∉ ws.map String.toList) :
    t.isCloser = false ∧ (L.Loose S → t.isSeam = false) := by
  refine ⟨(Token.not_bracket_of_identifier hw).2, fun _ => ?_⟩
  rw [Token.isSeam, (Token.not_bracket_of_identifier hw).1, Bool.or_false]
  simp only [Token.isIdentifierIn, Bool.and_eq_true, List.any_eq_true, beq_iff_eq] at hw
  obtain ⟨-, w, hw, htext⟩ := hw
  have hne : t.text ≠ "in".toList := fun heq => hin (heq ▸ htext ▸ List.mem_map_of_mem hw)
  simp only [Token.isIdentifierIn, List.any_cons, List.any_nil, Bool.or_false, Bool.and_eq_false_imp]
  exact fun _ => by simpa using hne

theorem isMetatypeName_twin {t t' : Token} (h : Twin S t t') : isMetatypeName t' = isMetatypeName t :=
  h.isIdentifierIn _

theorem qualifiesType_twin {t t' : Token} (h : Twin S t t') : qualifiesType t' = qualifiesType t := by
  rw [qualifiesType, qualifiesType, h.kind, h.isIdentifierIn]

theorem typeFollows_twin {t t' : Token} (h : Twin S t t') (hs : S.front ≤ t.start) : typeFollows t' = typeFollows t := by
  rw [typeFollows, typeFollows, h.kind, h.isSymbolIn]
  cases hc : t.isCloser with
  | false => rw [h.newline hs hc]
  | true =>
    have hk := Token.kind_of_isCloser hc
    have hopen : t.isSymbolIn ["(", "["] = false := by
      simp only [Token.isCloser, Token.isSymbolIn, Bool.and_eq_true, List.any_cons, List.any_nil, Bool.or_false,
        Bool.or_eq_true, beq_iff_eq] at hc
      rcases hc.2 with h | h | h <;> simp [Token.isSymbolIn, h]
    rw [hk, hopen, show (Token.Kind.symbol == Token.Kind.identifier) = false from rfl, Bool.or_false, Bool.and_false,
      Bool.and_false]

theorem effects_of_not (h : isEffect c.peek = false) : effects c = .ok [] c :=
  (bind_of_ok (collect_eq_ok.mpr ⟨.stop (get_bind_eq_ok.mpr (ite_eq_ok.mpr (.inr ⟨by simp [h], rfl⟩))),
    Nat.zero_le _⟩)).trans rfl

/-- A word of effects is kept. -/
theorem effects_ne_nil (hs : c.Sound) (he : isEffect c.peek = true) {x : Text} {c₁ : Cursor}
    (h : effects c = .ok x c₁) : x ≠ [] := by
  have htaken : Spec effects c fun _ c₁ => c.peek.start < c₁.edge := by
    refine .bind (.collectWhile (I := fun as c₁ => as = [] ∧ c₁ = c ∨ c.peek.start < c₁.edge)
      (fun as c₁ hl hi hm => ?_) hs (.inl ⟨rfl, rfl⟩)) fun as c₁ hl hi => .pure hl.sound ?_
    · have hs₁ := hl.sound
      have hk := Token.kind_of_isIdentifierIn hm
      refine .consume_bind hs₁ (.get_bind (.optional (Q := fun _ _ => True) (hs₁.advance 1).sound
        (fun _ => (Spec.skipBalanced (hs₁.advance 1).sound).lead) (fun _ => trivial) fun c₂ hl₂ _ => ?_))
      refine .sliceFrom hl₂.sound (.inr ?_)
      exact (hl.peek_le hs).trans_lt (hs₁.peek_lt (by simp [hk]) hl₂)
    · obtain ⟨⟨rfl, rfl⟩ | hlt, hm⟩ := hi
      · simp [he] at hm
      · exact hlt
  rintro rfl
  have hbehind := ((effects_spec hs).ok h).2.1 rfl
  have hlt := (htaken.ok h).2
  have := hs.edge_le_peek
  rw [Cursor.edge, hbehind, ← Cursor.edge] at hlt
  omega

theorem effects_tracks (h : Beside S l L c c') (hl : L.Loose S → l) :
    Tracks S l L.stack (fun _ => L) List.isEmpty effects effects c c' := by
  have hkeeps : Keeps S l L L effects effects c c' := by
    refine .bind (.collectWhile h (fun _ _ _ _ h₁ => h₁.peek.isIdentifierIn _) fun L₁ c₁ c₁' hL₁ hm h₁ => ?_)
      fun _ _ _ _ _ h₁ => .pure h₁
    refine .consume_bind h₁ (fun hloose => hl (hL₁.loose hloose)) (Token.not_bracket_of_identifier hm) fun h₂ =>
      .get_bind (.ite h₂ (fun h₃ => ?_) (fun hp => ?_) fun _ => .sliceFrom h₂)
    · rw [parenFollows_twin h₃ rfl, (h₁.of_advance h₃).peek.text (by simp [Token.kind_of_isIdentifierIn hm])]
    · simp only [Bool.and_eq_true] at hp
      exact .bind (.skipBalanced h₂ (fun hloose => hl (hL₁.loose hloose)) fun _ => (opener_of_parenFollows hp.2).2) fun _ _ _ _ _ h₃ => .sliceFrom h₃.prior
  rcases h with h | hpast
  · cases he : isEffect c.peek with
    | false =>
      have he' : isEffect c'.peek = false := (h.peek.isIdentifierIn _).trans he
      exact .stay (M := fun _ => L) _ _ (.inl h) rfl (effects_of_not he) (effects_of_not he')
    | true =>
      refine ⟨fun x c₁ hx => (hkeeps.ok x c₁ hx).imp_left ?_, hkeeps.error⟩
      rintro ⟨x', c₁', hx', -, htogether, h₁⟩
      have hne := effects_ne_nil h.fenced.sound he hx
      have hne' := effects_ne_nil h.sound' ((h.peek.isIdentifierIn _).trans he) hx'
      exact ⟨x', c₁', hx', by rw [List.isEmpty_eq_false_iff.mpr hne, List.isEmpty_eq_false_iff.mpr hne'], htogether, h₁⟩
  · exact .of_forward effects_forward hpast

theorem elementLabel_keeps (h : Beside S l L c c') (hl : ¬ L.Loose S) :
    Keeps S l L L elementLabel elementLabel c c' := by
  have hplain : (c.peek.kind == .identifier) = true → c.peek.isOpener = false ∧ c.peek.isCloser = false := fun hk =>
    Token.not_bracket_of_kind (by simp [beq_iff_eq.mp hk])
  have hloose : L.Loose S → l := fun hL => absurd hL hl
  refine .get_bind (.ite h (fun h => ?_) (fun hb => ?_) fun _ => .ite h (fun h => ?_) (fun hb => ?_)
    fun _ => .pure h)
  · exact second_twin h (h.peek.kind_beq _) (fun hk => ⟨(hplain hk).2, fun hL => absurd hL hl⟩)
      fun _ _ ht _ => ht.isSymbol _
  · simp only [Bool.and_eq_true] at hb
    exact .skip_two_bind h hloose (hplain hb.1) (Token.not_bracket_of_symbol hb.2 (by decide))
      fun h₁ => .pure h₁.prior
  · rw [h.peek.kind_beq]
    cases hk : c.peek.kind == .identifier with
    | false => rfl
    | true =>
      have h₁ := (h.advance_plain (hplain hk)).resolve_right fun hL => hl hL.1
      have htwin := second_twin (q := (·.isSymbol ":")) h₁ (h₁.peek.kind_beq .identifier) (fun hk =>
        ⟨(Token.not_bracket_of_kind (by simp [beq_iff_eq.mp hk])).2, fun hL => absurd hL hl⟩)
        fun _ _ ht _ => ht.isSymbol _
      simpa only [Cursor.peek_advance, Bool.true_and] using htwin
  · simp only [Bool.and_eq_true] at hb
    refine .skip_two_bind h hloose (hplain hb.1.1) (Token.not_bracket_of_kind (by simp [beq_iff_eq.mp hb.1.2]))
      fun h₁ => .sliceFrom_bind (.skip_bind h₁ hloose ?_ fun h₂ => .pure h₂.prior.prior)
    rw [Cursor.peek_advance]
    exact Token.not_bracket_of_symbol hb.2 (by decide)

theorem skipEllipsis_keeps (h : Beside S l L c c') (hl : L.Loose S → l) :
    Keeps S l L L skipEllipsis skipEllipsis c c' :=
  .current_bind (.ite h (fun h => h.peek.has (by decide) _) (fun hb =>
    (Tracks.skip h hl (Token.not_bracket_of_has hb (by decide))).ease L.next_within)
    fun _ => .pure h)

variable (hg : g.Agree S n n' g')
include hg

theorem arguments_keeps (h : Beside S l L c c') (hl : L.Loose S → c.peek = S.last → l) (hL : L.next.Fits n n') {o m : Char} (ho : o ∈ ['(', '[', '\x7b'])
    (hm : m ∈ [')', ']', '\x7d']) : Keeps S l L L.next (g.arguments (String.singleton o) (String.singleton m))
      (g'.arguments (String.singleton o) (String.singleton m)) c c' := by
  refine .bracketed ho hm h hl fun x L₁ c₁ c₁' hL₁ h₁ => ?_
  have hloose : ¬ L₁.Loose S := hL₁.inner
  refine .get_bind ?_
  extract_lets start finish start' finish'
  have hfinish : ∀ label label' (c₂ c₂' : Cursor), Beside S l L₁ c₂ c₂' →
      Keeps S l L₁ L₁.next (finish label) (finish' label') c₂ c₂' := fun _ _ _ _ h₂ =>
    .bind (hg.expression hloose (hL₁.inner_fits hL) h₂) fun _ _ _ _ _ h₃ => .keep h₃
  refine .ite h₁ (fun h => ?_) (fun hb => ?_) fun _ => hfinish none none _ _ h₁
  · exact second_twin h (h.peek.kind_beq _) (fun hk => ⟨(Token.not_bracket_of_kind
      (by simp [beq_iff_eq.mp hk])).2, fun hL => absurd hL hloose⟩) fun _ _ ht _ => ht.isSymbol _
  · simp only [start, Bool.and_eq_true, beq_iff_eq] at hb
    exact .skip_two_bind h₁ (fun hL => absurd hL hloose) (Token.not_bracket_of_kind (by simp [hb.1]))
      (Token.not_bracket_of_symbol hb.2 (by decide)) fun h₂ => hfinish _ _ _ _ h₂.prior

theorem attributeRule_keeps (h : Beside S l L c c') (hl : L.Loose S → l) (hL : L.next.Fits n n')
    (hk : c.peek.kind = .atName) : Keeps S l L L.next g.attributeRule g'.attributeRule c c' := by
  unfold attributeRule
  refine .consume_bind h hl (Token.not_bracket_of_kind (by simp [hk])) fun h₁ => ?_
  extract_lets finish rest finish' rest'
  have hfinish : ∀ arguments arguments' (c₂ c₂' : Cursor), Beside S l L.next c₂ c₂' →
      Keeps S l L.next L.next (finish arguments) (finish' arguments') c₂ c₂' :=
    fun _ _ _ _ h₂ => .sliceFrom_bind (.get_bind (.pure h₂))
  refine .ite h₁ (fun h₂ => ?_) (fun hb => absurd hk (by simpa using hb)) fun _ => .get_bind (.ite h₁
    (fun h₂ => parenFollows_twin h₂ rfl) (fun hp => ?_) fun _ => hfinish _ _ _ _ h₁)
  · rw [(h.of_advance h₂).peek.kind]
  · have hopen := opener_of_parenFollows hp
    by_cases hlast : (c.advance 1).Twins S L.next (c'.advance 1) ∧ L.Loose S ∧ (c.advance 1).peek = S.last
    · obtain ⟨h₂, hloose, hpeek⟩ := hlast
      have hpast : ∀ arguments (c₂ : Cursor), Past S c₂ → l ∧ Past S (after (finish arguments) c₂) :=
        fun _ c₂ hc₂ => (hfinish _ none c₂ c₂ (.inr ⟨hl hloose, hc₂⟩)).past ⟨hl hloose, hc₂⟩
      refine .attempt_last_bind h₂ hpeek hopen.2 (arguments_forward hg.forward _ _) (fun as c₂ has => ?_)
        fun c₂ hahead ho hc₂ => ?_
      · obtain ⟨ts, hts, -⟩ := (arguments_onward hg.forward has).taken
        exact hpast (some as) c₂ ((h₂.past_of_last hpeek).of_suffix ⟨ts.reverse, hts.symm⟩)
      · exact Tracks.past_bind ⟨hl hloose, Tracks.past_skipBalanced hahead ho hc₂⟩ fun _ c₃ hc₃ => hpast _ c₃ hc₃.2
    refine .attempt_bind h₁ (arguments_forward hg.forward _ _) (fun h₂ => arguments_keeps (o := '(') (m := ')') hg (.inl h₂)
      (fun hloose hpeek => hlast ⟨h₂, hloose, hpeek⟩) hL.next (by simp) (by simp))
      (fun _ _ _ _ _ h₂ => hfinish _ _ _ _ h₂.prior) fun c₂ c₂' h₂ hpeek => ?_
    refine .bind (.skipBalanced h₂ hl fun h₃ => ?_) fun _ _ _ _ _ h₃ => hfinish _ _ _ _ h₃.prior
    rw [hpeek h₃ (by simp [Token.kind_of_isSymbol hopen.1])]
    exact hopen.2

theorem genericClause_keeps (h : Beside S l L c c') (hl : L.Loose S → l) (hL : L.next.Fits n n') :
    Keeps S l L L.next g.genericClause g'.genericClause c c' :=
  .consumeOperator_bind (m := '<') h hl rfl fun _ _ _ _ h₁ => .bind (.separated h₁ hl fun _ _ _ hL₁ h₂ =>
    hg.type (fun hloose => hl (hL₁.loose hloose)) (hL.of_within hL₁) h₂) fun _ _ _ _ _ h₂ =>
      .consumeOperator_bind (m := '>') h₂.prior hl rfl fun _ _ _ _ h₃ => .sliceFrom h₃.prior

theorem namedType_keeps (h : Beside S l L c c') (hl : L.Loose S → l) (hL : L.next.Fits n n')
    (hk : c.peek.kind = .identifier) : Keeps S l L L.next g.namedType g'.namedType c c' := by
  unfold namedType
  refine .consume_bind h hl (Token.not_bracket_of_kind (by simp [hk])) fun h₁ => .get_bind ?_
  extract_lets members members'
  have hmembers : ∀ generics generics' (c₂ c₂' : Cursor), Beside S l L.next c₂ c₂' →
      Keeps S l L.next L.next (members generics) (members' generics') c₂ c₂' := by
    refine fun _ _ c₂ c₂' h₂ => .sliceFrom_bind (.extend h₂ fun _ _ L₁ c₃ c₃' hL₁ h₃ => .get_bind (.ite h₃
      (fun h₄ => ?_) (fun hm => ?_) fun _ => .pure_none h₃))
    · rw [Bool.and_assoc, Bool.and_assoc]
      exact second_twin (q := fun t => t.kind == .identifier && !isMetatypeName t) h₄ (h₄.peek.kind_beq _)
        apart_of_dot fun _ _ ht _ => by rw [ht.kind, isMetatypeName_twin ht]
    · simp only [Bool.and_eq_true, beq_iff_eq] at hm
      have hl₁ : L₁.Loose S → l := fun hloose => hl (hL₁.loose hloose)
      refine .skip_two_bind h₃ hl₁ (Token.not_bracket_of_kind (by simp [hm.1.1]))
        (Token.not_bracket_of_kind (by simp [hm.1.2])) fun h₄ => .get_bind (.ite h₄
          (fun h₅ => genericsFollow_twin h₅ rfl) (fun _ => ?_) fun _ => .keep_some h₄)
      exact .bind (genericClause_keeps hg h₄ hl₁ (hL.of_within (L₁.next.next_within.trans (L₁.next_within.trans hL₁))))
        fun _ _ _ _ _ h₅ => .keep_some h₅.prior
  exact .ite h₁ (fun h₂ => genericsFollow_twin h₂ rfl) (fun _ => .bind (genericClause_keeps hg h₁ hl hL.next)
    fun _ _ _ _ _ h₂ => hmembers _ _ _ _ h₂.prior) fun _ => hmembers _ _ _ _ h₁

theorem tupleOrFunctionType_keeps (h : Beside S l L c c') (hl : L.Loose S → l) (hL : L.next.Fits n n') :
    Keeps S l L L.next g.tupleOrFunctionType g'.tupleOrFunctionType c c' := by
  refine .current_bind (.bind (.bracketed (o := '(') (m := ')') (by simp) (by simp) h (fun hloose _ => hl hloose) fun x L₁ c₁ c₁' hL₁ h₁ => ?_)
    fun _ _ c₁ c₁' _ h₁ => .bind (effects_tracks h₁ hl) fun x x' c₂ c₂' hx h₂ => .current_bind (.ite h₂
      (fun h₃ => h₃.peek.has (by decide) _) (fun harrow => ?_) fun _ => .ite h₂ (fun _ => by rw [hx])
        (fun _ => .fail h₂) fun _ => .keep h₂))
  · exact .current_bind (.bind (elementLabel_keeps h₁ hL₁.inner) fun _ _ _ _ _ h₂ =>
      .bind (hg.type (fun hloose => absurd hloose hL₁.inner) (hL₁.inner_fits hL) h₂) fun _ _ _ _ _ h₃ =>
        .bind (skipEllipsis_keeps h₃ fun hloose => absurd hloose hL₁.inner) fun _ _ _ _ _ h₄ => .keep h₄)
  · exact .skip_bind h₂ hl (Token.not_bracket_of_has harrow (by decide)) fun h₃ =>
      .bind (hg.type hl hL.next h₃) fun _ _ _ _ _ h₄ => .keep h₄.prior.prior

theorem collectionType_keeps (h : Beside S l L c c') (hl : L.Loose S → l) (hL : L.next.Fits n n')
    (hk : c.peek.isSymbol "[" = true) : Keeps S l L L.next g.collectionType g'.collectionType c c' := by
  refine .open_bind h (fun hloose _ => hl hloose) (Token.isOpener_of_isSymbol hk (.inr rfl)) fun x _ _ h₁ => ?_
  have hloose : (L.push x).Loose S → l := fun hloose => absurd hloose Stage.push_not_loose
  have hfits : (L.push x).Fits n n' := (Stage.Within.refl _).inner_fits hL
  refine .bind (hg.type hloose hfits h₁) fun _ _ c₂ c₂' _ h₂ => .current_bind (.ite h₂ (fun h₃ => h₃.peek.isSymbol _)
    (fun hcolon => ?_) fun _ => .expect_close_bind (m := ']') h₂.prior (by simp) fun h₃ => .keep h₃)
  exact .skip_bind h₂ hloose (Token.not_bracket_of_symbol hcolon (by decide)) fun h₃ =>
    .bind (hg.type hloose hfits.next.next h₃) fun _ _ _ _ _ h₄ =>
      .expect_close_bind (m := ']') h₄.prior.prior.prior (by simp) fun h₅ => .keep h₅

omit hg in
theorem typeSuffixes_keeps (h : Beside S l L c c') (hl : L.Loose S → l) (hs : L.strict = true) (start start' : Token)
    (base base' : TypeTree) : Keeps S l L L (typeSuffixes start base) (typeSuffixes start' base') c c' := by
  refine .extend h fun _ _ L₁ c₁ c₁' hL₁ h₁ => .get_bind (.ite h₁ (fun h₂ => isMark_space_twin h₂ (hL₁.strict hs))
    (fun hm => ?_) fun _ => .ite h₁ (fun h₂ => ?_) (fun hm => ?_) fun _ => .pure_none h₁)
  · simp only [Bool.and_eq_true] at hm
    obtain ⟨hk, hmark⟩ := Token.mark_of_isMark hm.1
    exact .consumePart_bind h₁ (fun hloose => hl (hL₁.loose hloose)) hk (fun _ => hmark) fun _ _ _ _ h₂ => .keep_some h₂
  · exact second_twin h₂ (h₂.peek.kind_beq _) apart_of_dot fun _ _ ht _ => isMetatypeName_twin ht
  · simp only [Bool.and_eq_true, beq_iff_eq] at hm
    exact .skip_two_bind h₁ (fun hloose => hl (hL₁.loose hloose)) (Token.not_bracket_of_kind (by simp [hm.1]))
      (Token.not_bracket_of_identifier hm.2) fun h₂ => .keep_some h₂

theorem simpleType_keeps (h : Beside S l L c c') (hl : L.Loose S → l) (hL : L.next.Fits n n') :
    Keeps S l L L.next g.simpleType g'.simpleType c c' :=
  .current_bind (.ite h (fun h => h.peek.isSymbol _) (fun _ => tupleOrFunctionType_keeps hg h hl hL) fun _ =>
    .ite h (fun h => h.peek.isSymbol _) (fun hk => collectionType_keeps hg h hl hL hk) fun _ =>
      .ite h (fun h => h.peek.kind_beq _) (fun hk => namedType_keeps hg h hl hL (by simpa using hk)) fun _ => .fail h)

theorem constraintRule_keeps (h : Beside S l L c c') (hl : L.Loose S → l) (hL : L.next.Fits n n') :
    Keeps S l L L.next g.constraintRule g'.constraintRule c c' := by
  refine .get_bind (.ite h (fun h => qualifiesType_twin h.peek) (fun hq => ?_) fun _ => .ite h (fun h => ?_)
    (fun hq => ?_) fun _ => ?_)
  · refine .bind (.collectWhile_next h hq (fun _ _ _ _ h₁ => qualifiesType_twin h₁.peek) fun L₁ c₁ c₁' hL₁ hq₁ h₁ =>
      .current_bind (.ite h₁ (fun h₂ => h₂.peek.kind_beq _) (fun hk => ?_) fun hk => ?_))
      fun _ _ _ _ _ h₁ => .bind (hg.type hl hL h₁) fun _ _ _ _ _ h₂ => .keep h₂.prior
    · exact .bind (attributeRule_keeps hg h₁ (fun hloose => hl (hL₁.loose hloose)) (hL.of_within hL₁.next)
        (by simpa using hk)) fun _ _ _ _ _ h₂ => .pure h₂
    · refine .consume_bind h₁ (fun hloose => hl (hL₁.loose hloose)) ?_ fun h₂ => .pure h₂
      simp only [qualifiesType, hk, Bool.false_or] at hq₁
      exact Token.not_bracket_of_identifier hq₁
  · exact second_twin h (h.peek.isIdentifierIn _) (fun hw => apart_of_words hw (by decide)) fun _ _ => typeFollows_twin
  · simp only [Bool.and_eq_true] at hq
    exact .skip_bind h hl (Token.not_bracket_of_identifier hq.1) fun h₁ =>
      .bind (hg.constraint hl hL h₁) fun _ _ _ _ _ h₂ => .keep h₂.prior
  · exact .bind (simpleType_keeps hg h hl hL) fun _ _ _ _ _ h₁ => typeSuffixes_keeps h₁ hl rfl _ _ _ _

theorem typeRule_keeps (h : Beside S l L c c') (hl : L.Loose S → l) (hL : L.next.Fits n n') :
    Keeps S l L L.next g.typeRule g'.typeRule c c' := by
  refine .current_bind (.bind (constraintRule_keeps hg h hl hL) fun _ _ c₁ c₁' _ h₁ => .bind
    (.collectWhile h₁ (fun _ _ _ _ h₂ => h₂.peek.has (by decide) _) fun L₁ c₂ c₂' hL₁ hm h₂ => ?_)
    fun _ _ c₂ c₂' _ h₂ => ?_)
  · have hl₁ : L₁.Loose S → l := fun hloose => hl (hL₁.loose hloose)
    exact .skip_bind h₂ hl₁ (Token.not_bracket_of_has hm (by decide)) fun h₃ =>
      (constraintRule_keeps hg h₃ hl₁ (hL.of_within (L₁.next.next_within.trans
        (L₁.next_within.trans hL₁)))).ease L₁.next.next_within
  · refine .answer h₂ ?_ ?_
    all_goals
      split
      · exact ⟨_, rfl⟩
      · exact ⟨_, rfl⟩

theorem attributesRule_keeps (h : Beside S l L c c') (hl : L.Loose S → l) (hL : L.next.Fits n n') :
    Keeps S l L L g.attributesRule g'.attributesRule c c' :=
  .collectWhile h (fun _ _ _ _ h₁ => h₁.peek.kind_beq _) fun _ _ _ hL₁ hk h₁ =>
    attributeRule_keeps hg h₁ (fun hloose => hl (hL₁.loose hloose)) (hL.of_within hL₁.next) (by simpa using hk)

end Annotations

section Closures

/-- No string literal reads as a word. -/
theorem unowned_twin (h : c.Twins S L c') :
    (c'.peek.text == "unowned".toList) = (c.peek.text == "unowned".toList) := by
  have hne : ∀ {d : Cursor}, d.Sound → d.peek.kind = .string → (d.peek.text == "unowned".toList) = false := by
    intro d hd hk
    rw [beq_eq_false_iff_ne]
    intro htext
    have hl := (hd.placed_peek (by simp [hk])).lexeme_text (by simp [hk])
    rw [hk] at hl
    have := Token.literal_last hl 'd' (by simp [htext])
    simp at this
  rcases h.peek.cases with ⟨hk, hk'⟩ | ⟨-, ht⟩
  · rw [hne h.fenced.sound hk, hne h.sound' hk']
  · rw [ht]

theorem captureSpecifier_keeps (h : Beside S l L c c') (hl : ¬ L.Loose S) :
    Keeps S l L L captureSpecifier captureSpecifier c c' := by
  have hunowned : (c.peek.text == "unowned".toList) = true → c.peek.isOpener = false ∧ c.peek.isCloser = false :=
    fun h => by simp [Token.isOpener, Token.isCloser, Token.isSymbolIn, beq_iff_eq.mp h]
  refine .get_bind (.ite h (fun h => congrArg₂ _ ?_ ?_) (fun hb => ?_) fun _ => .pure h)
  · exact second_twin h (h.peek.isIdentifierIn _) (fun hw => apart_of_words hw (by decide)) fun _ _ ht _ => ht.kind_beq _
  · exact second_twin h (unowned_twin h) (fun ht => ⟨(hunowned ht).2, fun hL => absurd hL hl⟩)
      fun _ _ ht _ => ht.isSymbol _
  · have hplain : c.peek.isOpener = false ∧ c.peek.isCloser = false := by
      simp only [Bool.or_eq_true, Bool.and_eq_true] at hb
      rcases hb with hb | hb
      · exact Token.not_bracket_of_identifier hb.1
      · exact hunowned hb.1
    refine .skip_bind h (fun hL => absurd hL hl) hplain fun h₁ => .get_bind (.ite h₁
      (fun h₂ => parenFollows_twin h₂ rfl) (fun hp => ?_) fun _ => .keep h₁.prior)
    exact .bind (.skipBalanced h₁ (fun hL => absurd hL hl) fun _ => (opener_of_parenFollows hp).2) fun _ _ _ _ _ h₂ => .keep h₂.prior.prior

theorem captureName_keeps (h : Beside S l L c c') (hl : ¬ L.Loose S) :
    Keeps S l L L captureName captureName c c' := by
  refine .get_bind (.ite h (fun h => ?_) (fun hb => ?_) fun _ => .pure h)
  · exact second_twin h (h.peek.kind_beq _) (fun hk => ⟨(Token.not_bracket_of_kind (by simp [beq_iff_eq.mp hk])).2,
      fun hL => absurd hL hl⟩) fun _ _ ht _ => ht.has (by decide) _
  · simp only [Bool.and_eq_true, beq_iff_eq] at hb
    exact .skip_two_bind h (fun hL => absurd hL hl) (Token.not_bracket_of_kind (by simp [hb.1]))
      (Token.not_bracket_of_has hb.2 (by decide)) fun h₁ => .pure h₁.prior

/-- The statements of a body are read up to the brace that closes it. -/
theorem statements_keeps (h : Beside S l L c c') (hb : L.mark.isSymbol "\x7d" = true)
    (hlast : L.outer = [] → S.last.isSymbol "\x7d" = true) : Keeps S l L L statements statements c c' := by
  rcases h with h | hpast
  · have hes : L.stack.head? = some ['\x7d'] ∨ L.stack = [] ∧ S.last.isSymbol "\x7d" = true := by
      cases ho : L.outer with
      | nil => exact .inr ⟨by simp [Stage.stack, Stage.marks, ho], hlast ho⟩
      | cons m ms =>
        simp only [Token.isSymbol, Token.has, Bool.and_eq_true, beq_iff_eq] at hb
        exact .inl (by simp [Stage.stack, Stage.marks, ho, hb.2])
    obtain ⟨m, hm, hm', hpass, hle, hle', hkeeps⟩ :=
      Token.Twins.body (show Token.Twins S (([] : List Text) ++ L.stack) _ _ from h.ahead) hes
    have hrun : ∀ {d : Cursor}, Token.bodyLength? (([] : List Text).length : Int) d.ahead = some m →
        ∃ ss, statements d = .ok ss (d.advance m) := by
      intro d hd
      let start := d.previous.stop + ((d.source.drop d.previous.stop).takeWhile Text.isBlank).length
      have hlength := (Token.statementsFrom_length d.source d.eof { start } d.ahead).trans hd
      obtain ⟨⟨ss, k⟩, hss, rfl⟩ := Option.map_eq_some_iff.mp hlength
      refine ⟨ss, ?_⟩
      rw [statements, run_get_bind, hss]
      rfl
    obtain ⟨ss, hss⟩ := hrun hm
    obtain ⟨ss', hss'⟩ := hrun hm'
    have hfenced := statements_stays h.fenced hb ss _ hss
    have htogether : Cursor.Together S L.stack L.stack c c' (c.advance m) (c'.advance m) :=
      ⟨h.fenced.sound.advance m, h.sound'.advance m, _, _, rfl, rfl, hkeeps⟩
    exact .step (.inl htogether) hss hss' (.pure (a := ss) (.inl (h.advance hfenced hpass)))
  · exact .of_forward statements_forward hpast

/-- Behind an opening brace, the same words come first. -/
theorem accessorsFollow_twin (h : c.Twins S L c') (hl : ¬ L.Loose S) (ho : c.peek.isOpener = true) :
    accessorsFollow c' = accessorsFollow c := by
  obtain ⟨x, -, -, h₁, -⟩ := (h.advance_opener ho).resolve_right fun hlast => hl hlast.1
  have htwins := h₁.ahead.dropWhile_atName (by simp [Stage.stack_push])
  obtain ⟨t, us, t', us', hus, hus', ht⟩ := htwins.cons
  have hinner : ∀ {d : Cursor}, d.ahead.drop 1 = (d.advance 1).ahead := rfl
  simp only [accessorsFollow, hinner, hus, hus', List.head?_cons, Option.getD_some, List.drop_succ_cons,
    List.drop_zero]
  rw [ht.isIdentifierIn]
  cases hw : t.isIdentifierIn ["get", "set", "didSet", "willSet", "_modify", "_read", "unsafeAddress"] with
  | false => rfl
  | true =>
    rw [hus, hus'] at htwins
    obtain ⟨u, vs, u', vs', hvs, hvs', hu⟩ := htwins.next (Token.not_bracket_of_identifier hw).2
      (.inl (by simp [Stage.stack_push]))
    simp only [hvs, hvs', List.head?_cons, Option.getD_some, hu.isSymbolIn]

theorem closureFollows_twin (h : c.Twins S L c') (hl : ¬ L.Loose S) (hL : L.strict = true) :
    closureFollows c' = closureFollows c := by
  unfold closureFollows
  rw [h.peek.isSymbol]
  cases hb : c.peek.isSymbol "\x7b" with
  | false => rfl
  | true =>
    have ho := Token.isOpener_of_brace hb
    rw [h.newline hL (Token.not_closer_of_opener ho), accessorsFollow_twin h hl ho]

variable (hg : g.Agree S n n' g') (h : Beside S l L c c') (hL : L.next.Fits n n')
include hg h hL

theorem captureClause_keeps (hl : L.Loose S → l) : Keeps S l L L.next g.captureClause g'.captureClause c c' := by
  refine .current_bind (.bind (.bracketed (o := '[') (m := ']') (by simp) (by simp) h (fun hloose _ => hl hloose) fun x L₁ c₁ c₁' hL₁ h₁ => ?_)
    fun _ _ _ _ _ h₁ => .keep h₁)
  exact .current_bind (.bind (captureSpecifier_keeps h₁ hL₁.inner) fun _ _ _ _ _ h₂ => .bind
    (captureName_keeps h₂ hL₁.inner) fun _ _ _ _ _ h₃ => .bind (hg.expression hL₁.inner (hL₁.inner_fits hL) h₃)
      fun _ _ _ _ _ h₄ => .keep h₄)

theorem closureParameter_keeps (hl : L.Loose S → l) :
    Keeps S l L L.next g.closureParameter g'.closureParameter c c' := by
  unfold closureParameter
  refine .current_bind ?_
  extract_lets type rest type' rest'
  have htype : ∀ name name' (c₁ c₁' : Cursor), Beside S l L.next c₁ c₁' →
      Keeps S l L.next L.next (type name) (type' name') c₁ c₁' := by
    refine fun _ _ c₁ c₁' h₁ => .current_bind (.ite h₁ (fun h₂ => h₂.peek.isSymbol _) (fun hb => ?_) fun _ => .keep h₁)
    exact .skip_bind h₁ hl (Token.not_bracket_of_symbol hb (by decide)) fun h₂ => .bind (hg.type hl hL.next h₂)
      fun _ _ _ _ _ h₃ => .bind (skipEllipsis_keeps h₃ hl) fun _ _ _ _ _ h₄ => .bind (.pure h₄)
        fun _ _ _ _ _ h₅ => .keep h₅.prior.prior
  refine .ite h (fun h₁ => by rw [h₁.peek.kind]) (fun _ => .fail_bind h) fun hk => .consume_bind h hl
    (Token.not_bracket_of_kind ?_) fun h₁ => .current_bind (.ite h₁ (fun h₂ => h₂.peek.kind_beq _) (fun hk => ?_)
      fun _ => htype _ _ _ _ h₁)
  · simp only [bne_eq_false_iff_eq] at hk
    simp [hk]
  · exact .consume_bind h₁ hl (Token.not_bracket_of_kind (by simp [beq_iff_eq.mp hk])) fun h₂ => htype _ _ _ _ h₂.prior

theorem closureParameters_keeps (hl : L.Loose S → l) :
    Keeps S l L L g.closureParameters g'.closureParameters c c' := by
  refine .current_bind (.ite h (fun h => h.peek.isSymbol _) (fun _ => ?_) fun _ => .ite h (fun h => ?_) (fun _ => ?_)
    fun _ => .pure h)
  · exact .bind (.bracketed (o := '(') (m := ')') (by simp) (by simp) h (fun hloose _ => hl hloose) fun _ L₁ _ _ hL₁ h₁ =>
      closureParameter_keeps hg h₁ ((hL₁.inner_fits hL).next) fun hloose => absurd hloose hL₁.inner)
      fun _ _ _ _ _ h₁ => .keep h₁.prior
  · rw [isEffect, isEffect, h.peek.isIdentifierIn]
    rcases h.peek.cases with ⟨hk, hk'⟩ | ⟨hk, ht⟩
    · simp [hk, hk', show (Token.Kind.string == Token.Kind.identifier) = false from rfl]
    · rw [hk, ht]
  · refine .bind (.separated h hl fun L₁ c₁ c₁' hL₁ h₁ => .current_bind (.ite h₁ (fun h₂ => h₂.peek.kind_beq _)
      (fun hk => ?_) fun _ => .fail h₁)) fun _ _ _ _ _ h₁ => .keep h₁.prior
    exact .consume_bind h₁ (fun hloose => hl (hL₁.loose hloose)) (Token.not_bracket_of_kind
      (by simp [beq_iff_eq.mp hk])) fun h₂ => .pure h₂

theorem returnClause_keeps (hl : L.Loose S → l) : Keeps S l L L g.returnClause g'.returnClause c c' :=
  .current_bind (.ite h (fun h => h.peek.has (by decide) _) (fun hb => .skip_bind h hl
    (Token.not_bracket_of_has hb (by decide)) fun h₁ => .bind (hg.type hl hL h₁) fun _ _ _ _ _ h₂ => .keep h₂.prior.prior)
    fun _ => .pure h)

theorem signatureParts_keeps (hl : L.Loose S → l) : Keeps S l L L g.signatureParts g'.signatureParts c c' := by
  unfold signatureParts
  refine .bind (attributesRule_keeps hg h hl hL) fun _ _ c₁ c₁' _ h₁ => .current_bind ?_
  extract_lets rest rest'
  have hrest : ∀ capture capture' (c₂ c₂' : Cursor), Beside S l L c₂ c₂' →
      Keeps S l L L (rest capture) (rest' capture') c₂ c₂' := fun _ _ _ _ h₂ =>
    .bind (closureParameters_keeps hg h₂ hL hl) fun _ _ _ _ _ h₃ => .bind (effects_tracks h₃ hl) fun _ _ _ _ _ h₄ =>
      .bind (returnClause_keeps hg h₄ hL hl) fun _ _ _ _ _ h₅ => .pure h₅
  exact .ite h₁ (fun h₂ => h₂.peek.isSymbol _) (fun _ => .bind (captureClause_keeps hg h₁ hL hl) fun _ _ _ _ _ h₂ =>
    hrest _ _ _ _ h₂.prior) fun _ => hrest _ _ _ _ h₁

theorem closureSignature_keeps (hl : L.Loose S → l) :
    Keeps S l L L.next g.closureSignature g'.closureSignature c c' := by
  rw [closureSignature_eq, closureSignature_eq]
  exact .current_bind (.bind (signatureParts_keeps hg h hL hl) fun _ _ _ _ _ h₁ => .current_bind (.ite h₁
    (fun h₂ => h₂.peek.isIdentifierIn _) (fun hb => .skip_bind h₁ hl (Token.not_bracket_of_identifier hb)
      fun h₂ => .keep h₂) fun _ => .fail h₁))

omit hL in
/-- What stands in the braces of a closure. -/
theorem closureInside_keeps (hl : ¬ L.Loose S) (hL : L.Fits n n') (hb : L.mark.isSymbol "\x7d" = true)
    (hlast : L.outer = [] → S.last.isSymbol "\x7d" = true) :
    Keeps S l L L g.closureInside g'.closureInside c c' := by
  have hrest : ∀ (s s' : Option Signature) (c₂ c₂' : Cursor), Beside S l L c₂ c₂' →
      Keeps S l L L (statements >>= fun ss => pure (s, ss)) (statements >>= fun ss => pure (s', ss)) c₂ c₂' :=
    fun _ _ _ _ h₂ => .bind (statements_keeps h₂ hb hlast) fun _ _ _ _ _ h₃ => .pure h₃
  exact .attempt_bind h (closureSignature_forward hg.forward) (fun h₂ => closureSignature_keeps hg (.inl h₂) hL.next hl)
    (fun _ _ _ _ _ h₂ => hrest _ _ _ _ h₂.prior) fun _ _ h₂ _ => hrest _ _ _ _ h₂

theorem closureRule_keeps (hl : L.Loose S → c.peek = S.last → l) :
    Keeps S l L L.next g.closureRule g'.closureRule c c' := by
  rw [closureRule_eq, closureRule_eq]
  refine .expect_open_bind h hl (m := '\x7b') (by simp) fun x hx ho htext h₁ => ?_
  have hbrace : x.isSymbol "\x7d" = true := by
    simp [Token.isSymbol, Token.has, Token.kind_of_isCloser hx, htext, Token.closing, ho]
  exact .bind (closureInside_keeps hg h₁ Stage.push_not_loose ((Stage.Within.refl _).inner_fits hL) hbrace (by simp [Stage.push, Stage.marks]))
    fun _ _ _ _ _ h₂ => .expect_close_bind (m := '\x7d') h₂ (by simp) fun h₃ => .keep h₃

theorem trailingClosure_keeps (hl : ¬ L.Loose S) (hs : L.strict = true) :
    Keeps S l L L g.trailingClosure g'.trailingClosure c c' :=
  .get_bind (.ite h (fun h => closureFollows_twin h hl hs) (fun _ => .bind (closureRule_keeps hg h hL fun hL => absurd hL hl)
    fun _ _ _ _ _ h₁ => .pure h₁.prior) fun _ => .pure h)

theorem specializationClause_keeps (hl : L.Loose S → l) :
    Keeps S l L L.next g.specializationClause g'.specializationClause c c' := by
  refine .bind (genericClause_keeps hg h hl hL) fun _ _ _ _ _ h₁ => .current_bind (.ite h₁ (fun h₂ => ?_)
    (fun _ => .pure h₁) fun _ => .fail h₁)
  exact specialized_twin h₂.peek (h₂.front_le rfl)

omit h in
theorem expansionRule_keeps (h : Beside S l L c c') (hl : ¬ L.Loose S) (hk : c.peek.kind = .poundName) :
    Keeps S l L L.next g.expansionRule g'.expansionRule c c' := by
  have hloose : L.Loose S → l := fun hL => absurd hL hl
  unfold expansionRule
  refine .consume_bind h hloose (Token.not_bracket_of_kind (by simp [hk])) fun h₁ => ?_
  extract_lets trailing arguments rest trailing' arguments' rest'
  have htrailing : ∀ as as' (c₂ c₂' : Cursor), Beside S l L.next c₂ c₂' →
      Keeps S l L.next L.next (trailing as) (trailing' as') c₂ c₂' := fun _ _ _ _ h₂ =>
    .bind (trailingClosure_keeps hg h₂ hL.next hl rfl) fun _ _ _ _ _ h₃ => .sliceFrom_bind (.get_bind (.pure h₃))
  have harguments : ∀ c₂ c₂' : Cursor, Beside S l L.next c₂ c₂' →
      Keeps S l L.next L.next (arguments ()) (arguments' ()) c₂ c₂' := by
    refine fun c₂ c₂' h₂ => .current_bind (.ite h₂ (fun h₃ => ?_) (fun _ => .bind (arguments_keeps (o := '(') (m := ')')
      hg h₂ (fun hL => absurd hL hl) hL.next (by simp) (by simp)) fun _ _ _ _ _ h₃ => htrailing _ _ _ _ h₃.prior) fun _ => htrailing _ _ _ _ h₂)
    exact paren_newline_twin h₃ rfl
  refine .ite h₁ (fun h₂ => by rw [(h.of_advance h₂).peek.kind]) (fun hb => absurd hk (by simpa using hb)) fun _ =>
    .get_bind (.ite h₁ (fun h₂ => genericsFollow_twin h₂ rfl) (fun _ => ?_) fun _ => harguments _ _ h₁)
  exact .attempt_bind h₁ (specializationClause_forward hg.forward) (fun h₂ => specializationClause_keeps hg (.inl h₂)
    hL.next fun hL => absurd hL hl) (fun _ _ _ _ _ h₂ => harguments _ _ h₂.prior) fun _ _ h₂ _ => harguments _ _ h₂

end Closures

section Expressions

theorem isBinary_twin (h : c.Twins S L c') (hs : L.strict = true) (hk : (c.peek.kind == .operator) = true) :
    isBinary c' = isBinary c := by
  obtain ⟨hcloser, hin⟩ := apart_of_operator (S := S) (L := L) hk
  obtain ⟨htwin, hfront⟩ := h.second hcloser hin
  simp only [isBinary, htwin.kind, htwin.isCloser, htwin.isSymbolIn, h.space hs hcloser]
  cases hc : (c.peek 1).isCloser with
  | false => rw [htwin.space hfront hc]
  | true => simp

theorem controlStep_forward (start : Token) : Parser.Forward (controlStep start) := by
  refine .bind .get fun c => .ite (.bind .skipBalanced fun _ => .bind .current fun _ => ?_) (.ite (.fail _) ?_)
  · exact .ite (.bind (.skip _) fun _ => .pure _) (.pure _)
  · exact .ite (.bind .skipBalanced fun _ => .pure _) (.bind (.skip _) fun _ => .pure _)

/-- The blocks that are looked for are in the same places. -/
theorem controlStep_tracks {start start' : Token} (h : c.Twins S L c') (hl : L.Loose S → l)
    (hblock : Token.opensBlock 0 c.ahead = true) :
    Tracks S l L.stack L.after Option.isSome (controlStep start) (controlStep start') c c' := by
  refine .get_bind (.ite (.inl h) (fun h => h.peek.isSymbol _) (fun hb => .bind (.skipBalanced (.inl h) hl fun _ =>
    Token.isOpener_of_brace hb) fun _ _ c₁ c₁' _ h₁ => .current_bind (.ite h₁ (fun h₂ => ?_) (fun hreads => ?_)
      fun _ => .pure_none h₁.prior)) fun _ => .ite (.inl h) (fun h => h.isEof.2.trans h.isEof.1.symm)
        (fun _ => .fail (.inl h)) fun _ => .ite (.inl h) (fun h => h.peek.isOpener) (fun ho => ?_) fun ho => ?_)
  · rw [h₂.peek.reads, h₂.peek.reads]
  · refine .skip_bind h₁ hl ?_ fun h₂ => .pure_some h₂.prior
    simp only [Token.reads, Bool.or_eq_true, Bool.and_eq_true, beq_iff_eq] at hreads
    rcases hreads with hreads | hreads <;> simp [Token.isOpener, Token.isCloser, Token.isSymbolIn, hreads.1.1]
  · exact .bind (.skipBalanced (.inl h) hl fun _ => ho) fun _ _ _ _ _ h₁ => .pure_some h₁
  · refine .skip_bind (.inl h) hl ⟨ho, ?_⟩ fun h₁ => .pure_some h₁
    -- no closing mark comes before the block that is looked for
    rw [h.ahead_eq.1, Token.opensBlock, if_neg (by simp [ho])] at hblock
    split_ifs at hblock with hcloser
    simpa using hcloser

/-- An expression with blocks is read up to the end of the last of them. -/
theorem controlExpression_keeps (h : Beside S l L c c') (hl : L.Loose S → l)
    (hk : c.peek.isIdentifierIn ["if", "switch", "do"] = true) :
    Keeps S l L L.next controlExpression controlExpression c c' := by
  rcases h with h | hpast
  · rw [controlExpression_eq]
    have hblock := (opensBlock_advance h.fenced (awaitsBlock_of_control hk)).2
    refine .consume_bind (.inl h) hl (Token.not_bracket_of_identifier hk) fun h₁ =>
      .bind (M := fun _ => L.next) (v := fun _ => ()) ?_ fun _ _ _ _ _ h₂ => .keep h₂
    rcases h₁ with h₁ | hpast
    · refine .get_bind (.extendWithin (I := fun c => Token.opensBlock 0 c.ahead = true) h₁.tight_within
        (fun _ _ L₁ c c' hL hblock h => ?_) (fun _ c _ c₁ hc hblock ho => ?_) le_rfl le_rfl hblock h₁.tight)
      · rcases h with h | hpast
        · exact controlStep_tracks h (fun hloose => hl (hL.loose hloose)) (hblock h)
        · exact .of_forward (controlStep_forward _) hpast
      · exact (controlStep_stays hc hblock ho).2 (by simp)
    · exact .of_forward (.extend (fun _ => controlStep_forward _) ()) hpast
  · exact .of_forward controlExpression_forward hpast

/-- What is in front of a token counts in a key path, unless it ends there anyway. -/
theorem keyPath_keeps (h : Beside S l L c c') (hl : L.Loose S → l) (hk : c.peek.kind = .backslash) :
    Keeps S l L L.next keyPath keyPath c c' := by
  refine .consume_bind h hl (Token.not_bracket_of_kind (by simp [hk])) fun h₁ => .bind
    (.extend h₁ fun _ _ L₁ c₂ c₂' hL₁ h₂ => ?_) fun _ _ _ _ _ h₂ => .keep h₂
  have hl₁ : L₁.Loose S → l := fun hloose => hl (hL₁.loose hloose)
  cases hc : c₂.peek.isCloser with
  | true =>
    have hnone : ∀ {d : Cursor}, d.peek.isCloser = true → d.peek.kind = .symbol ∧ d.peek.isSymbol "[" = false :=
      fun hd => ⟨Token.kind_of_isCloser hd, by
        by_contra hb
        simp [Token.not_closer_of_opener (Token.isOpener_of_isSymbol (by simpa using hb) (.inr rfl))] at hd⟩
    refine .leave h₂ ?_ fun h₃ => ?_
    · obtain ⟨hk, hb⟩ := hnone hc
      simp [current_bind_eq_ok, pure_eq_ok, hk, hb, Token.isMark]
    · obtain ⟨hk, hb⟩ := hnone (h₃.peek.isCloser.trans hc)
      simp [current_bind_eq_ok, pure_eq_ok, hk, hb, Token.isMark]
  | false =>
    refine .current_bind (.ite h₂ (fun h₃ => h₃.space (hL₁.strict rfl) hc) (fun _ => .pure_none h₂) fun _ => .ite h₂
      (fun h₃ => by rw [h₃.peek.kind]) (fun hk => ?_) fun _ => .ite h₂ (fun h₃ => h₃.peek.isMark) (fun hm => ?_)
        fun _ => .ite h₂ (fun h₃ => h₃.peek.isSymbol _) (fun hb => ?_) fun _ => .pure_none h₂)
    · refine .skip_bind h₂ hl₁ (Token.not_bracket_of_kind ?_) fun h₃ => .pure_some h₃
      simp only [Bool.or_eq_true, beq_iff_eq] at hk
      rcases hk with (hk | hk) | hk <;> simp [hk]
    · obtain ⟨hk, hmark⟩ := Token.mark_of_isMark hm
      exact .consumePart_bind h₂ hl₁ hk (fun _ => hmark) fun _ _ _ _ h₃ => .pure_some h₃
    · exact .bind (.skipBalanced h₂ hl₁ fun _ => Token.isOpener_of_isSymbol hb (.inr rfl)) fun _ _ _ _ _ h₃ => .pure_some h₃

theorem otherItems_keeps {α : Type} {item item' : Parser α} (h : Beside S l L c c') (hl : ¬ L.Loose S)
    (hi : ∀ (L₁ : Stage) (c c' : Cursor), L₁.Within L → Beside S l L₁ c c' → Keeps S l L₁ L₁.next item item' c c') :
    Keeps S l L L (otherItems item) (otherItems item') c c' := by
  refine .collect h fun L₁ c₁ c₁' hL₁ h₁ => .current_bind (.ite h₁ (fun h₂ => h₂.peek.isSymbol _) (fun hb => ?_)
    fun _ => .pure_none h₁)
  refine .skip_bind h₁ (fun hloose => absurd (hL₁.loose hloose) hl) (Token.not_bracket_of_symbol hb (by decide))
    fun h₂ => .current_bind (.ite h₂ (fun h₃ => h₃.peek.isSymbol _) (fun _ => .pure_none h₂.prior) fun _ => ?_)
  exact .bind (hi _ _ _ (L₁.next_within.trans hL₁) h₂) fun _ _ _ _ _ h₃ => .pure_some h₃.prior

theorem castModifier_keeps (h : Beside S l L c c') (hl : L.Loose S → l) (hs : L.strict = true) :
    Keeps S l L L castModifier castModifier c c' := by
  refine .current_bind (.ite h (fun h₁ => isMark_space_twin h₁ hs) (fun hm => ?_) fun _ => .pure h)
  simp only [Bool.and_eq_true] at hm
  obtain ⟨hk, hmark⟩ := Token.mark_of_isMark hm.1
  exact .consumePart_bind h hl hk (fun _ => hmark) fun _ _ _ _ h₁ => .pure h₁.prior

variable (hg : g.Agree S n n' g') (h : Beside S l L c c') (hl : ¬ L.Loose S) (hL : L.next.Fits n n')
include hg h hl hL

theorem collectionLiteral_keeps (hk : c.peek.isSymbol "[" = true) :
    Keeps S l L L.next g.collectionLiteral g'.collectionLiteral c c' := by
  refine .open_bind h (fun hL => absurd hL hl) (Token.isOpener_of_isSymbol hk (.inr rfl)) fun x _ _ h₁ => ?_
  have hinner : ¬ (L.push x).Loose S := Stage.push_not_loose
  have hloose : (L.push x).Loose S → l := fun hloose => absurd hloose hinner
  have hfits : (L.push x).Fits n n' := (Stage.Within.refl _).inner_fits hL
  have hexpression : ∀ (L₁ : Stage) (c c' : Cursor), L₁.Within (L.push x) → Beside S l L₁ c c' →
      Keeps S l L₁ L₁.next g.expression g'.expression c c' := fun _ _ _ hL₁ h =>
    hg.expression hL₁.inner (hfits.of_within hL₁) h
  refine .get_bind (.ite h₁ (fun h₂ => ?_) (fun hb => ?_) fun _ => .ite h₁ (fun h₂ => h₂.peek.isSymbol _) (fun hb =>
    .close_bind h₁ (Token.isCloser_of_isSymbol hb (by simp)) fun h₂ => .keep h₂) fun _ =>
      .bind (hexpression _ _ _ (.refl _) h₁) fun _ _ c₂ c₂' _ h₂ => .current_bind (.ite h₂ (fun h₃ => h₃.peek.isSymbol _)
        (fun hb => ?_) fun _ => .bind (otherItems_keeps (L := L.push x) h₂.prior hinner hexpression) fun _ _ _ _ _ h₃ =>
          .expect_close_bind (m := ']') h₃ (by simp) fun h₄ => .keep h₄))
  · exact second_twin h₂ (h₂.peek.isSymbol _) (fun hb => ⟨(Token.not_bracket_of_symbol hb (by decide)).2,
      fun hL => absurd hL hinner⟩) fun _ _ ht _ => ht.isSymbol _
  · simp only [Bool.and_eq_true] at hb
    exact .skip_close_bind h₁ (Token.not_bracket_of_symbol hb.1 (by decide)) (Token.isCloser_of_isSymbol hb.2 (by simp))
      fun h₂ => .keep h₂
  · refine .skip_bind h₂.prior hloose (Token.not_bracket_of_symbol hb (by decide)) fun h₃ => .bind
      (hexpression _ _ _ (L.push x).next_within h₃) fun _ _ c₄ c₄' _ h₄ => .sliceFrom_bind (.bind
        (otherItems_keeps (L := L.push x) h₄.prior.prior hinner
        fun L₁ c₅ c₅' hL₁ h₅ => ?_) fun _ _ _ _ _ h₅ => .expect_close_bind (m := ']') h₅ (by simp) fun h₆ => .keep h₆)
    refine .current_bind (.bind (hexpression _ _ _ hL₁ h₅) fun _ _ _ _ _ h₆ => .expect_plain_bind h₆
      (fun hloose => absurd hloose hL₁.inner) rfl (by decide) fun h₇ => .bind (hexpression _ _ _
        (L₁.next.next_within.trans (L₁.next_within.trans hL₁)) h₇) fun _ _ _ _ _ h₈ => .keep h₈.prior.prior)

theorem nameExpression_keeps (hk : c.peek.kind = .identifier) :
    Keeps S l L L.next g.nameExpression g'.nameExpression c c' := by
  refine .consume_bind h (fun hL => absurd hL hl) (Token.not_bracket_of_kind (by simp [hk])) fun h₁ => .get_bind (.ite h₁
    (fun h₂ => genericsFollow_twin h₂ rfl) (fun _ => ?_) fun _ => .pure h₁)
  exact .attempt_bind h₁ (specializationClause_forward hg.forward) (fun h₂ => specializationClause_keeps hg (.inl h₂)
    hL.next fun hL => absurd hL hl) (fun _ _ _ _ _ h₂ => .keep h₂.prior) fun _ _ h₂ _ => .pure h₂

theorem wordExpression_keeps (hk : c.peek.kind = .identifier) :
    Keeps S l L L.next g.wordExpression g'.wordExpression c c' := by
  have hplain := Token.not_bracket_of_kind (t := c.peek) (by simp [hk])
  have hloose : L.Loose S → l := fun hL => absurd hL hl
  exact .current_bind (.ite h (fun h => h.peek.isIdentifierIn _) (fun _ => .skip_bind h hloose hplain fun h₁ => .pure h₁)
    fun _ => .ite h (fun h => h.peek.isIdentifierIn _) (fun _ => .skip_bind h hloose hplain fun h₁ => .pure h₁)
      fun _ => .ite h (fun h => h.peek.isIdentifierIn _) (fun hw => controlExpression_keeps h hloose hw)
        fun _ => nameExpression_keeps hg h hl hL hk)

theorem primary_keeps : Keeps S l L L.next g.primary g'.primary c c' := by
  have hloose : L.Loose S → l := fun hL => absurd hL hl
  rcases h with h | hpast
  · refine .get_bind ?_
    dsimp only
    rw [h.peek.kind]
    split
    case h_4 hk => exact wordExpression_keeps hg (.inl h) hl hL hk
    case h_5 hk => exact .bind (expansionRule_keeps hg hL (.inl h) hl hk) fun _ _ _ _ _ h₁ => .pure h₁
    case h_6 hk => exact keyPath_keeps (.inl h) hloose hk
    case h_7 =>
      refine .ite (.inl h) (fun h => ?_) (fun hb => ?_) fun _ => .ite (.inl h) (fun h => h.peek.isSymbol _)
        (fun hb => collectionLiteral_keeps hg (.inl h) hl hL hb) fun _ => .ite (.inl h) (fun h => h.peek.isSymbol _)
          (fun _ => .bind (arguments_keeps (o := '(') (m := ')') hg (.inl h) (fun hL => absurd hL hl) hL (by simp) (by simp)) fun _ _ _ _ _ h₁ =>
            .keep h₁) fun _ => .ite (.inl h) (fun h => h.peek.isSymbol _) (fun _ => .bind (closureRule_keeps hg (.inl h) hL fun hL => absurd hL hl)
              fun _ _ _ _ _ h₁ => .pure h₁) fun _ => .fail (.inl h)
      · rw [Bool.and_assoc, Bool.and_assoc]
        refine second_twin (q := fun t => t.kind == .identifier && !t.spaceBefore) h rfl apart_of_dot fun t t' ht hs => ?_
        rw [ht.kind]
        cases hk : t.kind == .identifier with
        | false => rfl
        | true => rw [ht.space hs (Token.not_bracket_of_kind (by simp [beq_iff_eq.mp hk])).2]
      · simp only [Bool.and_eq_true, beq_iff_eq] at hb
        exact .skip_two_bind (.inl h) hloose (Token.not_bracket_of_kind (by simp [hb.1.1]))
          (Token.not_bracket_of_kind (by simp [hb.1.2])) fun h₁ => .keep h₁
    all_goals
      rename_i hk
      exact .skip_bind (.inl h) hloose (Token.not_bracket_of_kind (by simp [hk])) fun h₁ => .pure h₁
  · exact .of_forward (primary_forward hg.forward) hpast

theorem suffixes_keeps (hs : L.strict = true) (start start' : Token) (base base' : Expression) :
    Keeps S l L L (g.suffixes start base) (g'.suffixes start' base') c c' := by
  refine .extend h fun _ _ L₁ c₁ c₁' hL₁ h₁ => ?_
  have hl₁ : ¬ L₁.Loose S := fun hloose => hl (hL₁.loose hloose)
  have hloose : L₁.Loose S → l := fun hloose => absurd hloose hl₁
  have hfits : L₁.next.Fits n n' := hL.of_within hL₁.next
  have hs₁ := hL₁.strict hs
  refine .get_bind (.ite h₁ (fun h₂ => ?_) (fun hb => ?_) fun _ => .ite h₁ (fun h₂ => paren_newline_twin h₂ hs₁)
    (fun _ => ?_) fun _ => .ite h₁ (fun h₂ => ?_) (fun _ => ?_) fun _ => .ite h₁ (fun h₂ => closureFollows_twin h₂ hl₁ hs₁)
      (fun _ => ?_) fun _ => .ite h₁ (fun h₂ => ?_) (fun hb => ?_) fun _ => .pure_none h₁)
  · exact second_twin (q := fun t => t.kind == .identifier || t.kind == .integer) h₂ (h₂.peek.kind_beq _) apart_of_dot
      fun _ _ ht _ => by rw [ht.kind]
  · simp only [Bool.and_eq_true, Bool.or_eq_true, beq_iff_eq] at hb
    refine .skip_two_bind h₁ hloose (Token.not_bracket_of_kind (by simp [hb.1])) (Token.not_bracket_of_kind ?_)
      fun h₂ => .keep_some h₂
    rcases hb.2 with hb | hb <;> simp [hb]
  · exact .bind (arguments_keeps (o := '(') (m := ')') hg h₁ (fun hL => absurd hL hl₁) hfits (by simp) (by simp)) fun _ _ _ _ _ h₂ =>
      .bind (trailingClosure_keeps hg h₂ hfits.next hl₁ rfl) fun _ _ _ _ _ h₃ => .keep_some h₃
  · rw [h₂.peek.isSymbol]
    cases hb : c₁.peek.isSymbol "[" with
    | false => rfl
    | true =>
      have hc := Token.not_closer_of_opener (Token.isOpener_of_isSymbol hb (.inr rfl))
      rw [h₂.newline hs₁ hc, h₂.space hs₁ hc]
  · exact .bind (arguments_keeps (o := '[') (m := ']') hg h₁ (fun hL => absurd hL hl₁) hfits (by simp) (by simp)) fun _ _ _ _ _ h₂ => .keep_some h₂
  · exact .bind (closureRule_keeps hg h₁ hfits fun hL => absurd hL hl₁) fun _ _ _ _ _ h₂ => .keep_some h₂
  · rw [h₂.peek.isMarks]
    cases hb : isMarks c₁.peek with
    | false => rfl
    | true =>
      simp only [isMarks, Bool.and_eq_true, beq_iff_eq] at hb
      rw [h₂.space hs₁ (Token.not_bracket_of_kind (by simp [hb.1])).2]
  · simp only [isMarks, Bool.and_eq_true, beq_iff_eq] at hb
    refine .consumePart_bind h₁ hloose hb.1.1 (fun hsound => ?_) fun _ _ _ _ h₂ => .keep_some h₂
    obtain ⟨m, x, hx⟩ := List.exists_cons_of_ne_nil (hsound.placed_peek (by simp [hb.1.1])).text_ne_nil
    refine ⟨m, by simp [hx], ?_⟩
    have hm := List.all_eq_true.mp hb.1.2 m (by simp [hx])
    simp only [Bool.or_eq_true, beq_iff_eq] at hm
    rcases hm with rfl | rfl <;> rfl

theorem operandRule_keeps : Keeps S l L L.next g.operandRule g'.operandRule c c' := by
  have hloose : L.Loose S → l := fun hL => absurd hL hl
  unfold operandRule
  refine .get_bind ?_
  extract_lets start next inner start' next' inner'
  have hinner : ∀ c₁ c₁' : Cursor, Beside S l L.next c₁ c₁' → Keeps S l L.next L.next (inner ()) (inner' ()) c₁ c₁' :=
    fun _ _ h₁ => .sliceFrom_bind (.bind (hg.operand hl hL h₁) fun _ _ _ _ _ h₂ => .keep h₂.prior)
  refine .ite h (fun h => ?_) (fun hb => ?_) fun _ => .ite h (fun h => ?_) (fun hb => ?_) fun hnot =>
    .ite h (fun h => ?_) (fun hb => ?_) fun _ => ?_
  · exact second_twin h (h.peek.isIdentifierIn _) (fun hw => apart_of_words hw (by decide)) fun _ _ => operandFollows_twin
  · simp only [Bool.and_eq_true] at hb
    refine .skip_bind h hloose (Token.not_bracket_of_identifier hb.1) fun h₁ => .ite h₁ (fun h₂ => ?_) (fun hm => ?_)
      fun _ => hinner _ _ h₁
    · have hk : c.peek.kind = .identifier := Token.kind_of_isIdentifierIn hb.1
      have hmark := isMark_space_twin h₂ rfl
      simp only [Cursor.peek_advance] at hmark
      rw [Bool.and_assoc, Bool.and_assoc, (h.of_advance h₂).peek.text (by simp [hk])]
      exact congrArg _ hmark
    · simp only [Bool.and_eq_true] at hm
      obtain ⟨hk, hmark⟩ := Token.mark_of_isMark (t := (c.advance 1).peek)
        (by rw [Cursor.peek_advance]; exact hm.1.2)
      exact .consumePart_bind h₁ hloose hk (fun _ => hmark) fun _ _ _ _ h₂ => hinner _ _ h₂.prior
  · exact second_twin (q := fun t => t.kind == .eof || t.isCloser || t.isSymbol ",") h (h.peek.kind_beq _)
      apart_of_operator fun _ _ ht _ => by rw [ht.kind, ht.isCloser, ht.isSymbol]
  · simp only [start, Bool.and_eq_true, beq_iff_eq] at hb
    exact .skip_bind h hloose (Token.not_bracket_of_kind (by simp [hb.1])) fun h₁ => .pure h₁
  · rw [show (start'.kind == .operator) = (start.kind == .operator) from h.peek.kind_beq _]
    cases hk : start.kind == .operator with
    | false => rfl
    | true =>
      obtain ⟨hcloser, hin⟩ := apart_of_operator (S := S) (L := L) hk
      obtain ⟨htwin, hfront⟩ := h.second hcloser hin
      rw [hk, Bool.true_and, Bool.or_eq_false_iff, Bool.or_eq_false_iff] at hnot
      rw [htwin.space hfront hnot.1.2]
  · simp only [start, Bool.and_eq_true, beq_iff_eq] at hb
    exact .skip_bind h hloose (Token.not_bracket_of_kind (by simp [hb.1])) fun h₁ =>
      .bind (hg.operand hl hL h₁) fun _ _ _ _ _ h₂ => .keep h₂.prior
  · exact .bind (primary_keeps hg h hl hL) fun _ _ _ _ _ h₁ => suffixes_keeps hg h₁ hl hL.next rfl _ _ _ _

theorem sequenceTail_tracks (hs : L.strict = true) :
    Tracks S l L.stack L.after Option.isSome g.sequenceTail g'.sequenceTail c c' := by
  have hloose : L.Loose S → l := fun hL => absurd hL hl
  unfold sequenceTail
  refine .get_bind ?_
  extract_lets t target operand t' target' operand'
  have htarget : ∀ link link' (c₁ c₁' : Cursor), Beside S l L.next c₁ c₁' →
      Tracks S l L.next.stack L.after Option.isSome (target link) (target' link') c₁ c₁' := fun _ _ c₁ c₁' h₁ =>
    .current_bind (.bind (hg.type hloose hL h₁) fun _ _ _ _ _ h₂ => .keep_some h₂.prior)
  have hoperand : ∀ link link' (c₁ c₁' : Cursor), Beside S l L.next c₁ c₁' →
      Tracks S l L.next.stack L.after Option.isSome (operand link) (operand' link') c₁ c₁' := fun _ _ c₁ c₁' h₁ =>
    .bind (operandRule_keeps hg h₁ hl hL.next) fun _ _ _ _ _ h₂ => .pure_some h₂.prior
  refine .ite h (fun h => ?_) (fun hb => ?_) fun _ => .ite h (fun h => ?_) (fun hb => ?_) fun _ => .pure_none h
  · rw [h.peek.isIdentifierIn]
    cases hw : c.peek.isIdentifierIn ["as", "is"] with
    | false => rfl
    | true => rw [h.newline hs (Token.not_bracket_of_identifier hw).2]
  · simp only [Bool.and_eq_true] at hb
    refine .skip_bind h hloose (Token.not_bracket_of_identifier hb.1) fun h₁ => .ite h₁ (fun h₂ => ?_) (fun _ =>
      .bind (castModifier_keeps h₁ hloose rfl) fun _ _ _ _ _ h₂ => .sliceFrom_bind (.bind (.pure h₂) fun _ _ _ _ _ h₃ =>
        htarget _ _ _ _ h₃)) fun _ => htarget _ _ _ _ h₁
    have hk : c.peek.kind = .identifier := Token.kind_of_isIdentifierIn hb.1
    rw [(h.of_advance h₂).peek.text (by simp [hk])]
  · rw [h.peek.kind]
    cases hk : c.peek.kind == .operator with
    | false => rfl
    | true => rw [isBinary_twin h hs hk]
  · simp only [t, Bool.and_eq_true, beq_iff_eq] at hb
    refine .skip_bind h hloose (Token.not_bracket_of_kind (by simp [hb.1])) fun h₁ => .ite h₁ (fun h₂ => ?_)
      (fun _ => ?_) fun _ => hoperand _ _ _ _ h₁
    · rw [(h.of_advance h₂).peek.text (by simp [hb.1])]
    · exact .bind (hg.expression hl hL h₁) fun _ _ _ _ _ h₂ => .expect_plain_bind h₂ hloose rfl (by decide)
        fun h₃ => .sliceFrom_bind (.bind (.pure h₃) fun _ _ _ _ _ h₄ => hoperand _ _ _ _ h₄.prior.prior)

theorem expressionRule_keeps : Keeps S l L L.next g.expressionRule g'.expressionRule c c' := by
  refine .current_bind (.bind (operandRule_keeps hg h hl hL) fun _ _ _ _ _ h₁ => .bind (.collect h₁
    fun L₁ _ _ hL₁ h₂ => sequenceTail_tracks hg h₂ (fun hloose => hl (hL₁.loose hloose)) (hL.of_within
      (hL₁.next.trans L.next.next_within)) (hL₁.strict rfl)) fun _ _ _ _ _ h₂ => .answer h₂ ?_ ?_)
  all_goals
    split
    · exact ⟨_, rfl⟩
    · exact ⟨_, rfl⟩

end Expressions

theorem upTo_agree (S : Setting) (n n' : Nat) : (upTo n).Agree S n n' (upTo n') := by
  have hzero : ∀ {α : Type} {n n' : Nat} {p p' : Parser α} {l : Prop} {L : Stage} {c c' : Cursor}, n = 0 ∨ n' = 0 →
      Parser.Forward p → L.Fits n n' → Beside S l L c c' → Keeps S l L L.next p p' c c' := by
    intro α n n' p p' l L c c' hn hp hL h
    rcases h with h | hpast
    · have := h.room.trans_le hL.fuel
      have := h.room'.trans_le hL.fuel'
      omega
    · exact .of_forward hp hpast
  induction n generalizing n' with
  | zero =>
    have hf := upTo_forward 0
    exact ⟨hf, fun _ => hzero (.inl rfl) hf.type, fun _ => hzero (.inl rfl) hf.constraint,
      fun _ => hzero (.inl rfl) hf.expression, fun _ => hzero (.inl rfl) hf.operand⟩
  | succ n ih =>
    have hf := upTo_forward (n + 1)
    cases n' with
    | zero =>
      exact ⟨hf, fun _ => hzero (.inr rfl) hf.type, fun _ => hzero (.inr rfl) hf.constraint,
        fun _ => hzero (.inr rfl) hf.expression, fun _ => hzero (.inr rfl) hf.operand⟩
    | succ n' =>
      have hnext : ∀ {L : Stage}, L.Fits (n + 1) (n' + 1) → L.next.Fits n n' := fun hL =>
        ⟨Nat.sub_le_of_le_add hL.fuel, Nat.sub_le_of_le_add hL.fuel'⟩
      exact ⟨hf, fun hl hL h => typeRule_keeps (ih n') h hl (hnext hL),
        fun hl hL h => constraintRule_keeps (ih n') h hl (hnext hL),
        fun hl hL h => expressionRule_keeps (ih n') h hl (hnext hL),
        fun hl hL h => operandRule_keeps (ih n') h hl (hnext hL)⟩

end Grammar

end SwiftMacros
