import Mathlib
import SwiftMacros.Proofs.Cursor.Level
import SwiftMacros.Proofs.Grammar.Reading

/-! Parsers that read brackets in pairs. If it opens no brace, what such a parser answers with is level:
the closing brackets in it close brackets in it. Parsers that are made of such ones read in pairs as
well. -/

namespace SwiftMacros

open Token (isSymbolChar isMarkChar)
open SwiftMacros.Parser

namespace Token

variable {t : Token}

theorem not_bracket_of_kind (hk : t.kind ≠ .symbol) : t.isOpener = false ∧ t.isCloser = false := by
  simp [isOpener, isCloser, isSymbolIn, hk]

/-- A symbol that is no bracket. -/
theorem not_bracket_of_symbol {text : String} (h : t.isSymbol text = true)
    (hm : text.toList ∉ [['('], [')'], ['['], [']'], ['\x7b'], ['\x7d']]) :
    t.isOpener = false ∧ t.isCloser = false := by
  have htext := word_of_isSymbol h
  simp only [word, Prod.mk.injEq] at htext
  simp only [List.mem_cons, List.not_mem_nil, or_false, not_or] at hm
  simp [isOpener, isCloser, isSymbolIn, htext.2, hm]

end Token

/-- A bracket is a grain. -/
theorem Cursor.Reached.grains_bracket {c : Cursor} (h : c.Reached) {m : Char}
    (hm : isSymbolChar m = true) (hr : c.peek.reads [m] = true) :
    ∃ gap, c.grains = ⟨gap, .symbol, [m]⟩ :: (c.advance 1).grains := by
  have hk := h.sound.kind_of_reads hm hr
  simp only [Token.reads, Bool.and_eq_true, beq_iff_eq] at hr
  refine ⟨Text.slice c.source c.edge c.peek.start, ?_⟩
  rw [h.grains_advance (by simp [hk]) (by simp [Token.view, hk]), hk, hr.1.1]

namespace Parser

variable {α β σ : Type}

/-- From `c`, what the parser answers with has its brackets in pairs, if it opens no brace. -/
def Paired (p : Parser α) (c : Cursor) : Prop := ∀ a c', p c = .ok a c' → c.Passes c'

namespace Paired

variable {c c' : Cursor} {p q : Parser α} {f : α → Parser β}

theorem pure (hc : c.Reached) {a : α} : Paired (Pure.pure a) c := fun a' c' h => by
  obtain ⟨-, rfl⟩ := pure_eq_ok.mp h
  exact hc.passes_refl

theorem fail {w : Wanted} : Paired (fail w : Parser α) c := fun _ _ h => by cases h

theorem bind (hc : c.Reached) (h : Paired p c)
    (hf : ∀ a (c' : Cursor), c'.Reached → Paired (f a) c') : Paired (p >>= f) c := by
  intro b c₂ hb
  obtain ⟨a, c₁, ha, hb⟩ := of_bind_ok hb
  have hpass := h a c₁ ha
  exact hpass.trans (hf a c₁ (hc.lead hpass.leads) b c₂ hb)

theorem get_bind {f : Cursor → Parser β} (h : Paired (f c) c) : Paired (get >>= f) c := h

theorem current_bind {f : Token → Parser β} (h : Paired (f c.peek) c) : Paired (current >>= f) c := h

theorem sliceFrom (hc : c.Reached) {t : Token} : Paired (Parser.sliceFrom t) c := get_bind (pure hc)

/-- A part of the source is kept in the answer. -/
theorem keep (hc : c.Reached) {t : Token} {g : Text → α} :
    Paired (Parser.sliceFrom t >>= fun x => Pure.pure (g x)) c := get_bind (pure hc)

theorem sliceFrom_bind {t : Token} {f : Text → Parser β} (h : Paired (f (c.sliceFrom t)) c) :
    Paired (Parser.sliceFrom t >>= f) c := h

theorem ite {b : Prop} [Decidable b] (hp : b → Paired p c) (hq : ¬ b → Paired q c) :
    Paired (if b then p else q) c := by
  split
  · exact hp ‹_›
  · exact hq ‹_›

/-- A parser that fails is one that reads in pairs. -/
theorem fail_bind {w : Wanted} : Paired (Parser.fail w >>= f) c := fun _ _ h => by cases h

theorem consume_bind (hc : c.Reached) (hp : c.peek.isOpener = false ∧ c.peek.isCloser = false)
    {f : Token → Parser β} (h : (c.advance 1).Reached → Paired (f c.peek) (c.advance 1)) :
    Paired (consume >>= f) c := by
  intro b c' hb
  have hpass := hc.passes_advance hp.1 hp.2
  exact hpass.trans (h (hc.lead hpass.leads) b c' hb)

theorem skip_bind (hc : c.Reached) (hp : c.peek.isOpener = false ∧ c.peek.isCloser = false)
    {f : Unit → Parser β} (h : (c.advance 1).Reached → Paired (f ()) (c.advance 1)) :
    Paired (skip 1 >>= f) c := consume_bind (f := fun _ => f ()) hc hp h

theorem skip (hc : c.Reached) (hp : c.peek.isOpener = false ∧ c.peek.isCloser = false) :
    Paired (Parser.skip 1) c := by
  intro u c' h
  obtain rfl := skip_eq_ok.mp h
  exact hc.passes_advance hp.1 hp.2

/-- A symbol that is no bracket. -/
theorem expect_bind (hc : c.Reached) {m : Char} (hm : isSymbolChar m = true)
    (hb : [m] ∉ [['('], [')'], ['['], [']'], ['\x7b'], ['\x7d']]) {f : Token → Parser β}
    (h : (c.advance 1).Reached → Paired (f c.peek) (c.advance 1)) : Paired (expect [m] >>= f) c := by
  intro b c' hb'
  obtain ⟨hr, hb'⟩ := expect_bind_eq_ok.mp hb'
  have hk := hc.sound.kind_of_reads hm hr
  simp only [Token.reads, Bool.and_eq_true, beq_iff_eq] at hr
  have hp : c.peek.isSymbol (String.singleton m) = true := by
    simp [Token.isSymbol, Token.has, hk, hr.1.1]
  have hplain := Token.not_bracket_of_symbol hp (by simpa using hb)
  exact consume_bind hc hplain h b c' hb'

/-- Two tokens, none of them a bracket. -/
theorem skip_two_bind (hc : c.Reached) (hp : c.peek.isOpener = false ∧ c.peek.isCloser = false)
    (hp' : (c.peek 1).isOpener = false ∧ (c.peek 1).isCloser = false) {f : Unit → Parser β}
    (h : (c.advance 2).Reached → Paired (f ()) (c.advance 2)) : Paired (Parser.skip 2 >>= f) c := by
  intro b c' hb
  have hpass := hc.passes_advance hp.1 hp.2
  have hc₁ := hc.lead hpass.leads
  have hpass' := hc₁.passes_advance (by rw [Cursor.peek_advance]; exact hp'.1)
    (by rw [Cursor.peek_advance]; exact hp'.2)
  rw [← Cursor.advance_add] at hpass'
  exact (hpass.trans hpass').trans (h (hc₁.lead hpass'.leads) b c' hb)

/-- A mark is split off an operator and taken. -/
theorem consumePart_bind (hc : c.Reached) (hk : c.peek.kind = .operator) {m : Char}
    (hm : c.peek.text.head? = some m) (hmark : isMarkChar m = true) {f : Token → Parser β}
    (h : ∀ t (c' : Cursor), c'.Reached → Paired (f t) c') : Paired (consumePart 1 >>= f) c := by
  intro b c' hb
  obtain ⟨hl, hgrains⟩ := hc.grains_split hm hmark
  have hkind := (hc.sound.peek_splitOperator hk hm).2.1
  have hplain := Token.not_bracket_of_kind (t := (c.splitOperator 1).peek) (by simp [hkind])
  have hpass := (hc.lead hl).passes_advance hplain.1 hplain.2
  obtain ⟨W, hW, hlevel⟩ := hpass.level
  have hpass' : c.Passes ((c.splitOperator 1).advance 1) :=
    ⟨hl.trans hpass.leads, W, hgrains ▸ hW, hlevel⟩
  exact hpass'.trans (h _ _ (hc.lead hpass'.leads) b c' (consumePart_bind_eq_ok.mp hb))

/-- Taking a mark from the front of an operator. -/
theorem consumeOperator_bind (hc : c.Reached) {m : Char} (hmark : isMarkChar m = true)
    {f : Token → Parser β} (h : ∀ t (c' : Cursor), c'.Reached → Paired (f t) c') :
    Paired (consumeOperator (String.singleton m) >>= f) c := by
  intro b c' hb
  obtain ⟨hop, hb⟩ := consumeOperator_bind_eq_ok.mp hb
  simp only [Token.isOperatorWith, Bool.and_eq_true, beq_iff_eq] at hop
  have hm : c.peek.text.head? = some m := by
    have hp := hop.2
    rw [String.toList_singleton, List.isPrefixOf_iff_prefix] at hp
    obtain ⟨x, hx⟩ := hp
    rw [← hx]
    rfl
  rw [String.length_singleton] at hb
  exact consumePart_bind hc hop.1 hm hmark h b c' (consumePart_bind_eq_ok.mpr hb)

/-- An attempt that fails takes nothing. -/
theorem attempt (hc : c.Reached) {Q : α → Cursor → Prop} (hs : Spec p c Q) (h : Paired p c) :
    Paired (attempt p) c := by
  intro o c' ho
  cases o with
  | some a => exact h a c' (attempt_eq_some.mp ho)
  | none =>
    obtain ⟨e, c₁, he, rfl⟩ := attempt_eq_none.mp ho
    have hl := hs.error he
    exact ⟨hl.rewind.1, [], (hc.grains_rewind hl).symm, fun _ => .nil⟩

/-- A group of brackets is passed over. -/
theorem skipBalanced (hc : c.Reached) (ho : c.peek.isOpener = true) : Paired skipBalanced c :=
  fun _ _ hu =>
    have ⟨W, hW, hlevel⟩ := hc.level_behind ho (Cursor.grains_skipBalanced hu)
    ⟨((Spec.skipBalanced hc.sound).lead.ok hu).1, W, hW, fun _ => hlevel⟩

section Loops

theorem collect {item : Parser (Option α)} (hc : c.Reached)
    (h : ∀ c' : Cursor, c'.Reached → Paired item c') : Paired (collect item) c := by
  intro as c' has
  have hrounds := (collect_eq_ok.mp has).1
  have hpass : ∀ {c₁ : Cursor} {as : List α} {c₂ : Cursor}, Rounds item c₁ as c₂ → c.Passes c₁ →
      c.Passes c₂ := by
    intro c₁ as c₂ hr
    induction hr with
    | stop ho => exact fun hp => hp.trans (h _ (hc.lead hp.leads) _ _ ho)
    | round ho _ ih => exact fun hp => ih (hp.trans (h _ (hc.lead hp.leads) _ _ ho))
  exact hpass hrounds hc.passes_refl

theorem collectWhile {more : Cursor → Bool} {item : Parser α} (hc : c.Reached)
    (h : ∀ c' : Cursor, c'.Reached → more c' = true → Paired item c') :
    Paired (collectWhile more item) c :=
  collect hc fun c' hc' => get_bind (ite
    (fun hm => bind hc' (h c' hc' hm) fun _ _ hc₁ => pure hc₁) fun _ => pure hc')

theorem extend {step : σ → Parser (Option σ)} {s : σ} (hc : c.Reached)
    (h : ∀ s (c' : Cursor), c'.Reached → Paired (step s) c') : Paired (extend step s) c := by
  intro s' c' hs
  obtain ⟨n, -, hsteps⟩ := extend_eq_ok.mp hs
  have hpass : ∀ {n : Nat} {s : σ} {c₁ : Cursor} {s' : σ} {c₂ : Cursor}, Steps step n s c₁ s' c₂ →
      c₁.Reached → c₁.Passes c₂ := by
    intro n s c₁ s' c₂ hr
    induction hr with
    | stop ho => exact fun hc => h _ _ hc _ _ ho
    | step ho _ ih => exact fun hc => (h _ _ hc _ _ ho).trans (ih (hc.lead (h _ _ hc _ _ ho).leads))
  exact hpass hsteps hc

/-- Items between two brackets. -/
theorem of_bracketed {o e : Char} (ho : o = '(' ∧ e = ')' ∨ o = '[' ∧ e = ']') {separator : Wanted}
    {item : Parser α} {as : List α} (hc : c.Reached)
    (h : ∀ c' : Cursor, c'.Reached → Paired item c')
    (has : bracketed (String.singleton o) (String.singleton e) separator item c = .ok as c') :
    c.Leads c' ∧ ∃ gap gap' W, c.grains =
      (⟨gap, .symbol, [o]⟩ :: W) ++ ⟨gap', .symbol, [e]⟩ :: c'.grains ∧
        (Grain.Unbraced W → Grain.Level W) := by
  rw [Parser.bracketed] at has
  obtain ⟨hfirst, has⟩ := expect_bind_eq_ok.mp has
  obtain ⟨items, c₁, hitems, has⟩ := of_bind_ok has
  obtain ⟨hlast, has⟩ := expect_bind_eq_ok.mp has
  obtain ⟨-, rfl⟩ := pure_eq_ok.mp has
  rw [String.toList_singleton] at hfirst hlast
  have hsymbols : isSymbolChar o = true ∧ isSymbolChar e = true := by
    rcases ho with ⟨rfl, rfl⟩ | ⟨rfl, rfl⟩ <;> exact ⟨rfl, rfl⟩
  have hl := hc.sound.advance 1
  have hc₁ := hc.lead hl
  have hpass : (c.advance 1).Passes c₁ := by
    refine collectWhile hc₁ (fun c₂ hc₂ _ => bind hc₂ (h c₂ hc₂) fun a c₃ hc₃ => ?_) _ _ hitems
    refine current_bind (ite (fun hcomma => ?_) fun _ => ite (fun _ => fail_bind) fun _ => pure hc₃)
    exact skip_bind hc₃ (Token.not_bracket_of_symbol hcomma (by decide)) fun hc₄ => pure hc₄
  have hc₂ := hc₁.lead hpass.leads
  obtain ⟨gap, hopen⟩ := hc.grains_bracket hsymbols.1 hfirst
  obtain ⟨gap', hclose⟩ := hc₂.grains_bracket hsymbols.2 hlast
  obtain ⟨W, hW, hlevel⟩ := hpass.level
  exact ⟨(hl.trans hpass.leads).trans (hc₂.sound.advance 1), gap, gap', W,
    by rw [hopen, hW, hclose, List.cons_append], hlevel⟩

theorem bracketed {o e : Char} (ho : o = '(' ∧ e = ')' ∨ o = '[' ∧ e = ']') {separator : Wanted}
    {item : Parser α} (hc : c.Reached) (h : ∀ c' : Cursor, c'.Reached → Paired item c') :
    Paired (bracketed (String.singleton o) (String.singleton e) separator item) c := by
  intro as c' has
  obtain ⟨hl, gap, gap', W, hW, hlevel⟩ := of_bracketed ho hc h has
  refine ⟨hl, _, hW.trans (List.append_cons _ _ _), ?_⟩
  intro hnone
  rcases ho with ⟨rfl, rfl⟩ | ⟨rfl, rfl⟩ <;> exact (hlevel hnone.left.tail).enclose rfl rfl rfl

theorem separated {item : Parser α} (hc : c.Reached)
    (h : ∀ c' : Cursor, c'.Reached → Paired item c') : Paired (separated item) c := by
  refine bind hc (h c hc) fun a c₁ hc₁ => ?_
  refine bind hc₁ (collectWhile hc₁ fun c₂ hc₂ hm => ?_) fun as c₂ hc₂ => pure hc₂
  exact skip_bind hc₂ (Token.not_bracket_of_symbol hm (by decide)) fun hc₃ => h _ hc₃

end Loops

end Paired

/-- From `c`, what the parser answers with has its brackets in pairs, up to a closing one at its end. -/
def Closing (p : Parser α) (c : Cursor) : Prop := ∀ a c', p c = .ok a c' → c.Leads c' ∧
  ∃ W gap, c.grains = W ++ ⟨gap, .symbol, [']']⟩ :: c'.grains ∧ (Grain.Unbraced W → Grain.Level W)

namespace Closing

variable {c : Cursor} {p q : Parser α} {f : α → Parser β}

theorem bind (hc : c.Reached) (h : Paired p c)
    (hf : ∀ a (c' : Cursor), c'.Reached → Closing (f a) c') : Closing (p >>= f) c := by
  intro b c₂ hb
  obtain ⟨a, c₁, ha, hb⟩ := of_bind_ok hb
  obtain ⟨hl, W, hW, hlevel⟩ := h a c₁ ha
  obtain ⟨hl', V, gap, hV, hlevel'⟩ := hf a c₁ (hc.lead hl) b c₂ hb
  exact ⟨hl.trans hl', W ++ V, gap, by rw [hW, hV, List.append_assoc],
    fun hnone => (hlevel hnone.left).append (hlevel' hnone.right)⟩

theorem current_bind {f : Token → Parser β} (h : Closing (f c.peek) c) :
    Closing (current >>= f) c := h

theorem get_bind {f : Cursor → Parser β} (h : Closing (f c) c) : Closing (get >>= f) c := h

theorem ite {b : Prop} [Decidable b] (hp : b → Closing p c) (hq : ¬ b → Closing q c) :
    Closing (if b then p else q) c := by
  split
  · exact hp ‹_›
  · exact hq ‹_›

theorem skip_bind (hc : c.Reached) (hp : c.peek.isOpener = false ∧ c.peek.isCloser = false)
    {f : Unit → Parser β} (h : (c.advance 1).Reached → Closing (f ()) (c.advance 1)) :
    Closing (skip 1 >>= f) c := by
  intro b c' hb
  obtain ⟨hl, W, hW, hlevel⟩ := hc.passes_advance hp.1 hp.2
  obtain ⟨hl', V, gap, hV, hlevel'⟩ := h (hc.lead hl) b c' hb
  exact ⟨hl.trans hl', W ++ V, gap, by rw [hW, hV, List.append_assoc],
    fun hnone => (hlevel hnone.left).append (hlevel' hnone.right)⟩

/-- The closing bracket is taken, and nothing behind it. -/
theorem expect (hc : c.Reached) {t : Token} {g : Text → α} : Closing (expect [']'] >>= fun _ =>
    sliceFrom t >>= fun x => pure (g x)) c := by
  intro a c' ha
  obtain ⟨hr, ha⟩ := expect_bind_eq_ok.mp ha
  obtain ⟨-, rfl⟩ := pure_eq_ok.mp ha
  obtain ⟨gap, hgrains⟩ := hc.grains_bracket rfl hr
  exact ⟨hc.sound.advance 1, [], gap, hgrains, fun _ => .nil⟩

theorem skip (hc : c.Reached) (h : c.peek.isSymbol "]" = true) {t : Token} {g : Text → α} :
    Closing (skip 1 >>= fun _ => sliceFrom t >>= fun x => pure (g x)) c := by
  have hword := Token.word_of_isSymbol h
  simp only [Token.word, Prod.mk.injEq] at hword
  intro a c' ha
  refine expect hc (t := t) (g := g) a c' (expect_bind_eq_ok.mpr ⟨?_, skip_bind_eq_ok.mp ha⟩)
  simp [Token.reads, hword]

/-- A token that is no bracket, and the closing bracket. -/
theorem skip_two (hc : c.Reached) (hp : c.peek.isOpener = false ∧ c.peek.isCloser = false)
    (h : (c.peek 1).isSymbol "]" = true) {t : Token} {g : Text → α} :
    Closing (Parser.skip 2 >>= fun _ => sliceFrom t >>= fun x => pure (g x)) c := by
  have h₁ : (c.advance 1).peek.isSymbol "]" = true := by
    rw [Cursor.peek_advance]
    exact h
  intro a c' ha
  refine skip_bind (f := fun _ => Parser.skip 1 >>= fun _ => sliceFrom t >>= fun x => pure (g x)) hc hp
    (fun hc₁ => skip hc₁ h₁) a c' ?_
  rw [skip_bind_eq_ok, Cursor.advance_add c 1 1] at ha
  exact ha

end Closing

/-- An opening bracket is taken, and what follows up to the closing one. -/
theorem Paired.open_bind {c : Cursor} (hc : c.Reached) (h : c.peek.isSymbol "[" = true)
    {f : Token → Parser β} (hf : (c.advance 1).Reached → Closing (f c.peek) (c.advance 1)) :
    Paired (consume >>= f) c := by
  intro b c' hb
  have hword := Token.word_of_isSymbol h
  simp only [Token.word, Prod.mk.injEq] at hword
  have hl := hc.sound.advance 1
  obtain ⟨gap, hopen⟩ := hc.grains_bracket (m := '[') rfl (by simp [Token.reads, hword])
  obtain ⟨hl', W, gap', hW, hlevel⟩ := hf (hc.lead hl) b c' hb
  refine ⟨hl.trans hl', _, by rw [hopen, hW, List.append_cons, ← List.cons_append], ?_⟩
  exact fun hnone => (hlevel hnone.left.tail).enclose rfl rfl rfl

end Parser

end SwiftMacros
