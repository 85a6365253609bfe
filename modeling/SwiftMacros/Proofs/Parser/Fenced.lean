import Mathlib
import SwiftMacros.Proofs.Token.Fenced
import SwiftMacros.Proofs.Cursor.Room

/-! Parsers that stay in the brackets they are called in. Tokens are taken with a stack of the closing
marks still to come. A parser that answers has left the stack as it was, or as a parser behind it needs
it: what is opened is closed by its own mark, and what was open before stays open. -/

namespace SwiftMacros

open Token (isSymbolChar isMarkChar)
open SwiftMacros.Parser

namespace Cursor

/-- The tokens ahead stand in brackets that the marks `es` close. -/
structure Fenced (es : List Token) (c : Cursor) : Prop where
  sound : c.Sound
  ahead : Token.Fenced es c.ahead

namespace Fenced

variable {c c' : Cursor} {e : Token} {es : List Token}

theorem ahead_eq (h : c.Fenced (e :: es)) : c.ahead = c.peek :: (c.advance 1).ahead := by
  obtain ⟨t, ts, ht⟩ := List.exists_cons_of_ne_nil h.ahead.ne_nil
  simp [peek, advance, ht]

/-- A word has what it asks for, and is taken. -/
theorem advance_settled (h : c.Fenced (e :: es)) (hp : c.peek.isOpener = false ∧ c.peek.isCloser = false) :
    c.peek.settles (c.advance 1).ahead = true ∧ (c.advance 1).Fenced (e :: es) := by
  obtain ⟨hsettles, hfenced⟩ := (h.ahead_eq ▸ h.ahead).of_plain hp.1 hp.2
  exact ⟨hsettles, (h.sound.advance 1).sound, hfenced⟩

theorem advance (h : c.Fenced (e :: es)) (hp : c.peek.isOpener = false ∧ c.peek.isCloser = false) :
    (c.advance 1).Fenced (e :: es) := (h.advance_settled hp).2

/-- Behind an opening mark, the one that closes it is still to come. -/
theorem advance_opener (h : c.Fenced (e :: es)) (ho : c.peek.isOpener = true) :
    ∃ f, f.isCloser = true ∧ f.text = c.peek.closing ∧ (c.advance 1).Fenced (f :: e :: es) := by
  obtain ⟨f, hf, htext, hfenced⟩ := (h.ahead_eq ▸ h.ahead).of_opener ho
  exact ⟨f, hf, htext, (h.sound.advance 1).sound, hfenced⟩

/-- A closing mark is the one that is to come. -/
theorem advance_closer (h : c.Fenced (e :: es)) (hc : c.peek.isCloser = true) :
    c.peek = e ∧ (c.advance 1).Fenced es := by
  obtain ⟨he, hfenced⟩ := (h.ahead_eq ▸ h.ahead).of_closer hc
  exact ⟨he, (h.sound.advance 1).sound, hfenced⟩

theorem previous_advance (h : c.Fenced (e :: es)) : (c.advance 1).previous = c.peek := by
  rw [previous, Cursor.advance, h.ahead_eq]
  simp

/-- What reads as an opening mark is one. -/
theorem isOpener_of_reads (h : c.Fenced es) {m : Char} (hm : m ∈ ['(', '[', '\x7b'])
    (hr : c.peek.reads [m] = true) : c.peek.isOpener = true ∧ c.peek.text = [m] := by
  have hk := h.sound.kind_of_reads (by fin_cases hm <;> rfl) hr
  simp only [Token.reads, Bool.and_eq_true, beq_iff_eq] at hr
  refine ⟨?_, hr.1.1⟩
  simp only [Token.isOpener, Token.isSymbolIn, hk, hr.1.1]
  fin_cases hm <;> rfl

/-- What reads as a closing mark is one. -/
theorem isCloser_of_reads (h : c.Fenced es) {m : Char} (hm : m ∈ [')', ']', '\x7d'])
    (hr : c.peek.reads [m] = true) : c.peek.isCloser = true := by
  have hk := h.sound.kind_of_reads (by fin_cases hm <;> rfl) hr
  simp only [Token.reads, Bool.and_eq_true, beq_iff_eq] at hr
  simp only [Token.isCloser, Token.isSymbolIn, hk, hr.1.1]
  fin_cases hm <;> rfl

/-- `else` and `catch` are read as words. -/
theorem awaitsBlock_of_reads (h : c.Fenced es)
    (hr : (c.peek.reads "else".toList || c.peek.reads "catch".toList) = true) :
    c.peek.awaitsBlock = true := by
  simp only [Token.reads, Bool.or_eq_true, Bool.and_eq_true, beq_iff_eq, bne_iff_ne] at hr
  have hplaced := h.sound.placed_peek (hr.elim (·.2) (·.2))
  have hk : c.peek.kind ≠ .operator := by
    intro hk
    have hsharp := hplaced.sharp hk
    rcases hr with hr | hr
    · exact absurd (hsharp 'e' (by simp [hr.1.1])) (by decide)
    · exact absurd (hsharp 'c' (by simp [hr.1.1])) (by decide)
  rcases hr with hr | hr <;> simp [Token.awaitsBlock, hk, hr.1.1]

/-- Splitting operators opens no bracket and closes none. -/
theorem lead (h : c.Fenced es) (hl : c.Leads c') (hb : c'.behind = c.behind) : c'.Fenced es := by
  have hrefines := hl.refines
  rw [inner, inner, hb] at hrefines
  exact ⟨hl.sound, h.ahead.refines (hrefines.of_append _)⟩

/-- Behind a bracket that is passed over. A brace that is looked for is not passed over with it. -/
theorem skipBalanced {u : Unit} (h : c.Fenced (e :: es)) (ho : c.peek.isOpener = true)
    (hu : skipBalanced c = .ok u c') : c'.Fenced (e :: es) ∧
      (c.peek.isSymbol "\x7b" = false → Token.opensBlock 0 c.ahead = true → Token.opensBlock 0 c'.ahead = true) := by
  obtain ⟨f, -, -, hfenced⟩ := h.advance_opener ho
  obtain ⟨n, hn, hrest, hblock⟩ := Token.Fenced.balanced
    (show Token.Fenced ([f] ++ e :: es) (c.advance 1).ahead from hfenced.ahead)
  have hlength : balancedLength? 0 c.ahead = some (n + 1) := by
    rw [List.length_nil, Nat.cast_zero, zero_add] at hn
    rw [h.ahead_eq, balancedLength?, if_pos ho, zero_add, hn, Option.map_some]
  rw [Parser.skipBalanced, get_bind_eq_ok, hlength] at hu
  obtain rfl := skip_eq_ok.mp hu
  have hahead : (c.advance (n + 1)).ahead = (c.advance 1).ahead.drop n := by
    rw [Nat.add_comm, advance_add]
    rfl
  refine ⟨⟨(h.sound.advance _).sound, hahead ▸ hrest⟩, fun hbrace hopens => hahead ▸ hblock 0 ?_⟩
  rw [h.ahead_eq] at hopens
  simpa [Token.opensBlock, ho, hbrace] using hopens

end Fenced

end Cursor

namespace Parser

variable {α β σ : Type}

/-- From `c`, the parser answers at a cursor in brackets that `es` close. -/
def Stays (es : List Token) (p : Parser α) (c : Cursor) : Prop :=
  ∀ a c', p c = .ok a c' → c'.Fenced es

namespace Stays

variable {c : Cursor} {p q : Parser α} {f : α → Parser β} {e : Token} {es ds : List Token}

theorem pure (hc : c.Fenced es) {a : α} : Stays es (Pure.pure a) c := fun _ _ h => by
  obtain ⟨-, rfl⟩ := pure_eq_ok.mp h
  exact hc

theorem fail {w : Wanted} : Stays es (fail w : Parser α) c := fun _ _ h => by cases h

theorem fail_bind {w : Wanted} : Stays es (Parser.fail w >>= f) c := fun _ _ h => by cases h

theorem bind (h : Stays es p c) (hf : ∀ a (c' : Cursor), c'.Fenced es → Stays ds (f a) c') :
    Stays ds (p >>= f) c := fun b c₂ hb => by
  obtain ⟨a, c₁, ha, hb⟩ := of_bind_ok hb
  exact hf a c₁ (h a c₁ ha) b c₂ hb

theorem get_bind {f : Cursor → Parser β} (h : Stays es (f c) c) : Stays es (get >>= f) c := h

theorem current_bind {f : Token → Parser β} (h : Stays es (f c.peek) c) : Stays es (current >>= f) c := h

theorem sliceFrom_bind {t : Token} {f : Text → Parser β} (h : Stays es (f (c.sliceFrom t)) c) :
    Stays es (Parser.sliceFrom t >>= f) c := h

theorem sliceFrom (hc : c.Fenced es) {t : Token} : Stays es (Parser.sliceFrom t) c := get_bind (pure hc)

/-- A part of the source is kept in the answer. -/
theorem keep (hc : c.Fenced es) {t : Token} {g : Text → α} :
    Stays es (Parser.sliceFrom t >>= fun x => Pure.pure (g x)) c := get_bind (pure hc)

theorem ite {b : Prop} [Decidable b] (hp : b → Stays es p c) (hq : ¬ b → Stays es q c) :
    Stays es (if b then p else q) c := by
  split
  · exact hp ‹_›
  · exact hq ‹_›

section Tokens

theorem consume_bind (hc : c.Fenced (e :: es)) (hp : c.peek.isOpener = false ∧ c.peek.isCloser = false)
    {f : Token → Parser β} (h : (c.advance 1).Fenced (e :: es) → Stays ds (f c.peek) (c.advance 1)) :
    Stays ds (consume >>= f) c := h (hc.advance hp)

theorem skip_bind (hc : c.Fenced (e :: es)) (hp : c.peek.isOpener = false ∧ c.peek.isCloser = false)
    {f : Unit → Parser β} (h : (c.advance 1).Fenced (e :: es) → Stays ds (f ()) (c.advance 1)) :
    Stays ds (skip 1 >>= f) c := h (hc.advance hp)

theorem skip (hc : c.Fenced (e :: es)) (hp : c.peek.isOpener = false ∧ c.peek.isCloser = false) :
    Stays (e :: es) (Parser.skip 1) c := fun _ _ h => skip_eq_ok.mp h ▸ hc.advance hp

/-- Tokens are passed over. -/
theorem advance_bind {n : Nat} {f : Unit → Parser β} (h : Stays es (f ()) (c.advance n)) :
    Stays es (Parser.skip n >>= f) c := h

/-- Two tokens, none of them a bracket. -/
theorem skip_two_bind (hc : c.Fenced (e :: es)) (hp : c.peek.isOpener = false ∧ c.peek.isCloser = false)
    (hp' : (c.peek 1).isOpener = false ∧ (c.peek 1).isCloser = false) {f : Unit → Parser β}
    (h : (c.advance 2).Fenced (e :: es) → Stays ds (f ()) (c.advance 2)) :
    Stays ds (Parser.skip 2 >>= f) c := by
  have hc₂ := (hc.advance hp).advance (by rwa [Cursor.peek_advance])
  rw [← Cursor.advance_add] at hc₂
  exact h hc₂

/-- An opening mark is taken. -/
theorem open_bind (hc : c.Fenced (e :: es)) (ho : c.peek.isOpener = true) {f : Token → Parser β}
    (h : ∀ x : Token, x.isCloser = true → x.text = c.peek.closing → (c.advance 1).Fenced (x :: e :: es) →
      Stays ds (f c.peek) (c.advance 1)) : Stays ds (consume >>= f) c := by
  obtain ⟨x, hx, htext, hc₁⟩ := hc.advance_opener ho
  exact h x hx htext hc₁

/-- The closing mark that is to come is taken. -/
theorem close_bind (hc : c.Fenced (e :: es)) (he : c.peek.isCloser = true) {f : Unit → Parser β}
    (h : (c.advance 1).Fenced es → Stays ds (f ()) (c.advance 1)) : Stays ds (Parser.skip 1 >>= f) c :=
  h (hc.advance_closer he).2

/-- A token that is no bracket is taken, and the closing mark that is to come. -/
theorem skip_close_bind (hc : c.Fenced (e :: es)) (hp : c.peek.isOpener = false ∧ c.peek.isCloser = false)
    (he : (c.peek 1).isCloser = true) {f : Unit → Parser β}
    (h : (c.advance 2).Fenced es → Stays ds (f ()) (c.advance 2)) : Stays ds (Parser.skip 2 >>= f) c := by
  have hc₂ := ((hc.advance hp).advance_closer (by rwa [Cursor.peek_advance])).2
  rw [← Cursor.advance_add] at hc₂
  exact h hc₂

/-- A symbol is asked for that is no bracket. -/
theorem expect_bind (hc : c.Fenced (e :: es)) {m : Char} (hm : isSymbolChar m = true)
    (hb : m ∉ ['(', ')', '[', ']', '\x7b', '\x7d']) {f : Token → Parser β}
    (h : (c.advance 1).Fenced (e :: es) → Stays ds (f c.peek) (c.advance 1)) :
    Stays ds (expect [m] >>= f) c := by
  intro b c' hb'
  obtain ⟨hr, hb'⟩ := expect_bind_eq_ok.mp hb'
  have hk := hc.sound.kind_of_reads hm hr
  simp only [Token.reads, Bool.and_eq_true, beq_iff_eq] at hr
  refine h (hc.advance ?_) b c' hb'
  simp only [List.mem_cons, List.not_mem_nil, or_false, not_or] at hb
  simp [Token.isOpener, Token.isCloser, Token.isSymbolIn, hk, hr.1.1, hb]

/-- An opening mark is asked for. -/
theorem expect_open_bind (hc : c.Fenced (e :: es)) {m : Char} (hm : m ∈ ['(', '[', '\x7b'])
    {f : Token → Parser β} (h : ∀ x : Token, x.isCloser = true → x.text = c.peek.closing →
      (c.advance 1).Fenced (x :: e :: es) → Stays ds (f c.peek) (c.advance 1)) :
    Stays ds (expect [m] >>= f) c := by
  intro b c' hb
  obtain ⟨hr, hb⟩ := expect_bind_eq_ok.mp hb
  exact open_bind hc (hc.isOpener_of_reads hm hr).1 h b c' hb

/-- The closing mark that is to come is asked for. -/
theorem expect_close_bind (hc : c.Fenced (e :: es)) {m : Char} (hm : m ∈ [')', ']', '\x7d'])
    {f : Token → Parser β} (h : c.peek = e → (c.advance 1).Fenced es → Stays ds (f c.peek) (c.advance 1)) :
    Stays ds (expect [m] >>= f) c := by
  intro b c' hb
  obtain ⟨hr, hb⟩ := expect_bind_eq_ok.mp hb
  obtain ⟨hpeek, hc₁⟩ := hc.advance_closer (hc.isCloser_of_reads hm hr)
  exact h hpeek hc₁ b c' hb

/-- A mark is split off an operator and taken. -/
theorem consumePart_bind (hc : c.Fenced (e :: es)) (hk : c.peek.kind = .operator) {m : Char}
    (hm : c.peek.text.head? = some m) (hmark : isMarkChar m = true) {f : Token → Parser β}
    (h : ∀ t (c' : Cursor), c'.Fenced (e :: es) → Stays ds (f t) c') : Stays ds (consumePart 1 >>= f) c := by
  have hl := hc.sound.splitOperator fun d hd => by
    obtain rfl : m = d := by simpa [hm] using hd
    exact hmark
  have hc₁ := hc.lead hl (c.behind_splitOperator 1)
  have hkind := (hc.sound.peek_splitOperator hk hm).2.1
  exact h _ _ (hc₁.advance (Token.not_bracket_of_kind (by simp [hkind])))

/-- Taking a mark from the front of an operator. -/
theorem consumeOperator_bind (hc : c.Fenced (e :: es)) {m : Char} (hmark : isMarkChar m = true)
    {f : Token → Parser β} (h : ∀ t (c' : Cursor), c'.Fenced (e :: es) → Stays ds (f t) c') :
    Stays ds (consumeOperator (String.singleton m) >>= f) c := by
  intro b c' hb
  obtain ⟨hop, hb⟩ := consumeOperator_bind_eq_ok.mp hb
  simp only [Token.isOperatorWith, Bool.and_eq_true, beq_iff_eq] at hop
  have hm : c.peek.text.head? = some m := by
    have hp := hop.2
    rw [String.toList_singleton, List.isPrefixOf_iff_prefix] at hp
    obtain ⟨x, hx⟩ := hp
    rw [← hx]
    rfl
  rw [String.length_singleton] at hb
  exact consumePart_bind hc hop.1 hm hmark h b c' (consumePart_bind_eq_ok.mpr hb)

/-- A group of brackets is passed over. -/
theorem skipBalanced (hc : c.Fenced (e :: es)) (ho : c.peek.isOpener = true) :
    Stays (e :: es) skipBalanced c := fun _ _ hu => (hc.skipBalanced ho hu).1

end Tokens

/-- An attempt that fails takes nothing, and the token at the cursor stays unless it is an operator. -/
theorem attempt_bind (hc : c.Fenced es) {Q : α → Cursor → Prop} (hs : Spec p c Q) (h : Stays es p c)
    {f : Option α → Parser β} (hsome : ∀ a (c' : Cursor), c'.Fenced es → Stays ds (f (some a)) c')
    (hnone : ∀ c' : Cursor, c'.Fenced es → (c.peek.kind ≠ .operator → c'.peek = c.peek) →
      Stays ds (f none) c') : Stays ds (attempt p >>= f) c := by
  intro b c₂ hb
  obtain ⟨o, c₁, ho, hb⟩ := of_bind_ok hb
  cases o with
  | some a => exact hsome a c₁ (h a c₁ (attempt_eq_some.mp ho)) b c₂ hb
  | none =>
    obtain ⟨x, c₃, he, rfl⟩ := attempt_eq_none.mp ho
    obtain ⟨hl, hbehind⟩ := (hs.error he).rewind
    exact hnone _ (hc.lead hl hbehind) (fun hk => hl.peek_eq hbehind (.inl hk)) b c₂ hb

theorem attempt (hc : c.Fenced es) {Q : α → Cursor → Prop} (hs : Spec p c Q) (h : Stays es p c) :
    Stays es (attempt p) c := by
  have := attempt_bind (f := Pure.pure) hc hs h (fun _ _ hc' => pure hc') fun _ hc' _ => pure hc'
  rwa [bind_pure] at this

section Loops

theorem collect {item : Parser (Option α)} (hc : c.Fenced es)
    (h : ∀ c' : Cursor, c'.Fenced es → Stays es item c') : Stays es (collect item) c := by
  intro as c' has
  have hrounds := (collect_eq_ok.mp has).1
  clear has
  induction hrounds with
  | stop ho => exact h _ hc _ _ ho
  | round ho _ ih => exact ih (h _ hc _ _ ho)

theorem collectWhile {more : Cursor → Bool} {item : Parser α} (hc : c.Fenced es)
    (h : ∀ c' : Cursor, c'.Fenced es → more c' = true → Stays es item c') :
    Stays es (collectWhile more item) c :=
  collect hc fun c' hc' => get_bind (ite (fun hm => bind (h c' hc' hm) fun _ _ hc₁ => pure hc₁)
    fun _ => pure hc')

/-- A loop keeps what holds of the cursors it goes through. -/
theorem extend_of {step : σ → Parser (Option σ)} {s : σ} {I : Cursor → Prop} (hc : I c)
    (h : ∀ s (c' : Cursor), I c' → ∀ o c'', step s c' = .ok o c'' →
      (o = none → c''.Fenced es) ∧ (o ≠ none → I c'')) : Stays es (extend step s) c := by
  intro s' c' hs
  obtain ⟨n, -, hsteps⟩ := extend_eq_ok.mp hs
  clear hs
  induction hsteps with
  | stop ho => exact (h _ _ hc _ _ ho).1 rfl
  | step ho _ ih => exact ih ((h _ _ hc _ _ ho).2 (by simp))

theorem extend {step : σ → Parser (Option σ)} {s : σ} (hc : c.Fenced es)
    (h : ∀ s (c' : Cursor), c'.Fenced es → Stays es (step s) c') : Stays es (extend step s) c :=
  extend_of hc fun s c' hc' o c'' ho => ⟨fun _ => h s c' hc' o c'' ho, fun _ => h s c' hc' o c'' ho⟩

/-- Items between two brackets. -/
theorem bracketed {o m : Char} (ho : o ∈ ['(', '[', '\x7b']) (hm : m ∈ [')', ']', '\x7d'])
    {separator : Wanted} {item : Parser α} (hc : c.Fenced (e :: es))
    (h : ∀ (x : Token) (c' : Cursor), c'.Fenced (x :: e :: es) → Stays (x :: e :: es) item c') :
    Stays (e :: es) (bracketed (String.singleton o) (String.singleton m) separator item) c := by
  rw [Parser.bracketed, String.toList_singleton, String.toList_singleton]
  refine expect_open_bind hc ho fun x _ _ hc₁ => bind (collectWhile hc₁ fun c₂ hc₂ _ =>
    bind (h x c₂ hc₂) fun a c₃ hc₃ => ?_) fun as c₂ hc₂ => expect_close_bind hc₂ hm fun _ hc₃ => pure hc₃
  refine current_bind (ite (fun hcomma => ?_) fun _ => ite (fun _ => fail_bind) fun _ => pure hc₃)
  exact skip_bind hc₃ (Token.not_bracket_of_symbol hcomma (by decide)) fun hc₄ => pure hc₄

theorem separated {item : Parser α} (hc : c.Fenced (e :: es))
    (h : ∀ c' : Cursor, c'.Fenced (e :: es) → Stays (e :: es) item c') :
    Stays (e :: es) (separated item) c := by
  refine bind (h c hc) fun a c₁ hc₁ => bind (collectWhile hc₁ fun c₂ hc₂ hm => ?_) fun as c₂ hc₂ => pure hc₂
  exact skip_bind hc₂ (Token.not_bracket_of_symbol hm (by decide)) fun hc₃ => h _ hc₃

end Loops

end Stays

end Parser

end SwiftMacros
