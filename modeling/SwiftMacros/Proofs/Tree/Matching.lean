import Mathlib
import SwiftMacros.Proofs.Grammar.Fenced
import SwiftMacros.Proofs.Tree.Members

/-! Where member blocks and closures end. Up to the brace that matches the one at the cursor, brackets of
all kinds are in pairs and words are settled: then the block or closure ends at that brace. -/

namespace SwiftMacros

open SwiftMacros.Parser

namespace Grammar

variable {g : Grammar} {c c' : Cursor} {e x : Token} {es : List Token}

/-- The detail of a modifier is no bracket where words are settled and a brace is to be closed. -/
theorem modifierRule_stays (hg : g.Fences) (hc : c.Fenced (e :: es)) (he : e.isSymbol "\x7d" = true)
    (hk : modifierFollows c = true) : Stays (e :: es) g.modifierRule c := by
  simp only [modifierFollows, Bool.and_eq_true] at hk
  obtain ⟨hsettles, hc₁⟩ := hc.advance_settled (Token.not_bracket_of_identifier hk.1)
  unfold modifierRule
  refine .consume_bind hc (Token.not_bracket_of_identifier hk.1) fun _ => .get_bind ?_
  extract_lets finish
  have hfinish : ∀ detail (c₂ : Cursor), c₂.Fenced (e :: es) → Stays (e :: es) (finish detail) c₂ :=
    fun _ _ hc₂ => .sliceFrom_bind (.bind (attributesRule_stays hg hc₂) fun _ _ hc₃ => .pure hc₃)
  refine .ite (fun hd => ?_) fun _ => hfinish none _ hc₁
  simp only [Bool.and_eq_true] at hd
  have hparen := opener_of_parenFollows hd.2
  obtain ⟨y, -, -, hc₂⟩ := hc₁.advance_opener hparen.2
  have hno : (c.advance 1 |>.advance 1).peek.isOpener = false := by
    simp only [Token.settles, hd.1, hc₁.ahead_eq, hc₂.ahead_eq, Bool.and_eq_true] at hsettles
    simpa [hparen.1] using hsettles.2
  refine .advance_bind ?_
  by_cases hcloser : ((c.advance 1).advance 1).peek.isCloser = true
  · -- the parenthesis is closed at once, and the one asked for cannot be to come
    obtain ⟨-, hc₃⟩ := hc₂.advance_closer hcloser
    intro m c' h
    obtain ⟨hr, -⟩ := expect_bind_eq_ok.mp (consume_bind_eq_ok.mp h)
    obtain ⟨hpeek, -⟩ := hc₃.advance_closer (hc₃.isCloser_of_reads (m := ')') (by simp) hr)
    simp only [Token.isSymbol, Token.has, Bool.and_eq_true, beq_iff_eq] at he
    simp [Token.reads, hpeek, he.2] at hr
  · exact .consume_bind hc₂ ⟨hno, by simpa using hcloser⟩ fun hc₃ =>
      .expect_close_bind (m := ')') hc₃ (by simp) fun _ hc₄ => hfinish _ _ hc₄

variable (hg : g.Fences) (hc : c.Fenced (e :: es)) (he : e.isSymbol "\x7d" = true)
include hg hc he

theorem modifiersRule_stays : Stays (e :: es) g.modifiersRule c :=
  .collectWhile hc fun _ hc₁ hk => modifierRule_stays hg hc₁ he hk

omit hg in
/-- What cannot be read is passed over up to the end of the binding. -/
theorem orRest_stays {α : Type} {p : Parser α} {raw : Text → α} {Q : α → Cursor → Prop} (hs : Spec p c Q)
    (hp : Stays (e :: es) p c) : Stays (e :: es) (orRest p raw) c := by
  refine .current_bind (.bind (.attempt hc hs hp) fun o c₁ hc₁ => ?_)
  cases o with
  | some a => exact .pure hc₁
  | none =>
    have hfenced : Token.Fenced ([] ++ e :: es) c₁.ahead := hc₁.ahead
    have hc₂ : (c₁.advance (bindingLength 0 c₁.ahead)).Fenced (e :: es) :=
      ⟨(hc₁.sound.advance _).sound, hfenced.drop_bindingLength he⟩
    exact .get_bind (.advance_bind (.keep hc₂))

theorem bindingRule_stays : Stays (e :: es) g.bindingRule c := by
  unfold bindingRule
  refine .current_bind ?_
  extract_lets typed
  have htyped : ∀ name (c₁ : Cursor), c₁.Fenced (e :: es) →
      Stays (e :: es) (typed name) c₁ := by
    refine fun _ c₁ hc₁ => .sliceFrom_bind (.current_bind ?_)
    extract_lets initializer
    have hinitializer : ∀ type (c₂ : Cursor), c₂.Fenced (e :: es) →
        Stays (e :: es) (initializer type) c₂ := by
      refine fun _ c₂ hc₂ => .current_bind ?_
      extract_lets accessors
      have haccessors : ∀ value (c₃ : Cursor), c₃.Fenced (e :: es) →
          Stays (e :: es) (accessors value) c₃ := by
        refine fun _ c₃ hc₃ => .current_bind (.ite (fun h => ?_) fun _ => .keep hc₃)
        simp only [Bool.and_eq_true] at h
        exact .bind (.skipBalanced hc₃ (Token.isOpener_of_brace h.1)) fun _ _ hc₄ => .sliceFrom_bind (.keep hc₄)
      refine .ite (fun h => ?_) fun _ => haccessors _ _ hc₂
      exact .skip_bind hc₂ (Token.not_bracket_of_has h (by decide)) fun hc₃ => .bind
        (orRest_stays hc₃ he (hg.reliable.expression _ hc₃.sound) (hg.expression hc₃)) fun _ _ hc₄ =>
          haccessors _ _ hc₄
    refine .ite (fun h => ?_) fun _ => hinitializer _ _ hc₁
    exact .skip_bind hc₁ (Token.not_bracket_of_symbol h (by decide)) fun hc₂ => .bind
      (orRest_stays hc₂ he (hg.reliable.type _ hc₂.sound) (hg.type hc₂)) fun _ _ hc₃ => hinitializer _ _ hc₃
  refine .ite (fun hk => ?_) fun _ => .ite (fun h => ?_) fun _ => .fail_bind
  · exact .consume_bind hc (Token.not_bracket_of_kind (by simp [beq_iff_eq.mp hk])) fun hc₁ =>
      htyped _ _ hc₁
  · exact .bind (.skipBalanced hc (Token.isOpener_of_isSymbol h (.inl rfl))) fun _ _ hc₁ => htyped _ _ hc₁

theorem memberBody_stays (start : Token) (as : List Attribute) (ms : List Modifier) :
    Stays (e :: es) (g.memberBody start as ms) c := by
  refine .current_bind (.ite (fun hk => ?_) fun _ => .get_bind (.advance_bind (.get_bind (.pure ?_))))
  · exact .skip_bind hc (Token.not_bracket_of_identifier hk) fun hc₁ => .bind
      (.separated hc₁ fun _ hc₂ => bindingRule_stays hg hc₂ he) fun _ _ hc₂ => .keep hc₂
  · have hfenced : Token.Fenced ([] ++ e :: es) c.ahead := hc.ahead
    exact ⟨(hc.sound.advance _).sound, hfenced.drop_memberLength false⟩

theorem memberRule_stays : Stays (e :: es) g.memberRule c :=
  .current_bind (.bind (attributesRule_stays hg hc) fun _ _ hc₁ => .bind (modifiersRule_stays hg hc₁ he)
    fun _ _ hc₂ => memberBody_stays hg hc₂ he _ _ _)

/-- A member that took no token would stand in front of a closing mark, and the block ends there. -/
theorem blockItem_stays (hv : g.Verbatim) : Stays (e :: es) g.blockItem c := by
  refine .get_bind (.ite (fun _ => .pure hc) fun hbrace => .ite (fun _ _ _ h => by cases h) fun heof => .ite
    (fun h => .skip_bind hc (Token.not_bracket_of_symbol h (by decide)) fun hc₁ => .pure hc₁) fun _ => ?_)
  intro o c' h
  obtain ⟨m, c₁, hm, h⟩ := of_bind_ok h
  have hc₁ := memberRule_stays hg hc he m c₁ hm
  obtain ⟨hl, htaken⟩ := (memberRule_taken hv hc.sound).ok hm
  refine Stays.get_bind (Stays.ite (fun hpos => ?_) fun _ => Stays.pure hc₁) o c' h
  have hb : c₁.behind = c.behind := (hl.behind.eq_of_length (by simpa [Cursor.position] using hpos.symm)).symm
  have hcloser := (htaken hb).resolve_left hc₁.ahead.ne_nil
  have hk := Token.kind_of_isCloser hcloser
  rw [← hl.peek_eq hb (.inr (by simp [hk])), (hc₁.advance_closer hcloser).1] at hbrace
  exact absurd he hbrace

omit hc in
/-- Behind its opening brace a block is read up to the brace that is to come. -/
theorem memberBlockRule_behind (hv : g.Verbatim) (hc : (c.advance 1).Fenced (e :: es))
    {b : MemberBlock} (h : g.memberBlockRule c = .ok b c') :
    c'.Fenced es ∧ c'.previous = e ∧ b.start = c.peek.start ∧ b.stop = e.stop := by
  obtain ⟨-, h⟩ := expect_bind_eq_ok.mp h
  obtain ⟨mss, c₁, hmss, h⟩ := of_bind_ok h
  have hc₁ := Stays.collect hc (fun _ hc₂ => blockItem_stays hg hc₂ he hv) _ _ hmss
  obtain ⟨hr, h⟩ := expect_bind_eq_ok.mp h
  rw [sliceFrom_bind_eq_ok, pure_eq_ok] at h
  obtain ⟨rfl, rfl⟩ := h
  obtain ⟨hpeek, hc₂⟩ := hc₁.advance_closer (hc₁.isCloser_of_reads (m := '\x7d') (by simp) hr)
  exact ⟨hc₂, hpeek ▸ hc₁.previous_advance, rfl, congrArg Token.stop hpeek⟩

end Grammar

/-- A member block and a closure end at the brace that matches the one they begin with: the brackets
between the two are in pairs, each closed by its own kind. This holds where words are settled, that is,
`if`, `switch`, `do`, `else` and `catch` have a brace opened behind them before an outer bracket is
closed, and no access modifier has a bracket for its detail. Members are inserted in front of that
brace. -/
theorem Parser.braces_match {c : Cursor} {o e : Token} {W Y : List Token} (hs : c.Sound)
    (hc : c.ahead = o :: W ++ e :: Y) (he : e.isSymbol "\x7d" = true) (hW : Token.nested [] W = true)
    (hsettled : Token.settled W = true) :
    (∀ b c', memberBlock c = .ok b c' → c'.previous = e ∧ b.start = o.start ∧ b.stop = e.stop ∧
      ∀ ms outer inner, (Edit.insertion c.source b ms outer inner).stop = e.start) ∧
    ∀ k c', closure c = .ok k c' → c'.previous = e ∧ k.text = Text.slice c.source o.start e.stop := by
  have hcloser := Token.isCloser_of_isSymbol he (by simp)
  obtain ⟨ds, hds, -, hfenced⟩ := Token.Fenced.of_nested hW hsettled hcloser (.done Y)
  obtain rfl : ds = [] := by simpa using hds
  have hpeek : c.peek = o := by simp [Cursor.peek, hc]
  have hahead : (c.advance 1).ahead = W ++ e :: Y := by simp [Cursor.advance, hc]
  have hc₁ : (c.advance 1).Fenced [e] := ⟨(hs.advance 1).sound, hahead ▸ hfenced⟩
  refine ⟨fun b c' h => ?_, fun k c' h => ?_⟩
  · obtain ⟨-, hprevious, hstart, hstop⟩ := Grammar.memberBlockRule_behind (Grammar.upTo_fences _) he
      (Grammar.upTo_verbatim _) hc₁ (get_bind_eq_ok.mp h)
    refine ⟨hprevious, hpeek ▸ hstart, hstop, fun ms outer inner => ?_⟩
    have hplaced := hs.placed_ahead (t := e) (by simp [hc])
    have hlen := hplaced.length
    have hlt := hplaced.lt
    simp only [Token.isSymbol, Token.has, Bool.and_eq_true, beq_iff_eq] at he
    rw [he.2] at hlen
    simp only [Edit.insertion, hstop]
    simp at hlen
    omega
  · obtain ⟨-, hprevious, htext⟩ := Grammar.closureRule_behind (Grammar.upTo_fences _) hs hc₁ he
      (get_bind_eq_ok.mp h)
    exact ⟨hprevious, hpeek ▸ htext⟩

/-- Blocks of `if` and `else`, the detail of a modifier and a body that is passed over. -/
theorem Parser.braces_match_blocks : ∃ c o W e b c', c.Sound ∧ c.ahead = o :: W ++ [e] ∧
    memberBlock c = .ok b c' ∧ c'.previous = e ∧ b.start = o.start ∧ b.stop = e.stop ∧
      ∀ ms outer inner, (Edit.insertion c.source b ms outer inner).stop = e.start := by
  generalize htext : ("\x7b private(set) var x = if a[0] \x7b 1 \x7d else \x7b f(2) \x7d\n" ++
    "func g() \x7b switch x \x7b \x7d \x7d \x7d").toList = text
  have hread : (runOn memberBlock text).isOk = true := by
    rw [← htext]
    decide +kernel
  have hwords : (Cursor.ofText text).toOption.map (fun c => ((c.ahead.drop 1).getLast?.any
      (·.isSymbol "\x7d"), Token.nested [] (c.ahead.drop 1).dropLast,
      Token.settled (c.ahead.drop 1).dropLast)) = some (true, true, true) := by
    rw [← htext]
    decide +kernel
  cases hc : Cursor.ofText text with
  | error x => simp [runOn, hc, Except.isOk, Except.toBool] at hread
  | ok c =>
    cases hb : memberBlock c with
    | error x c' => simp [runOn, hc, hb, Except.isOk, Except.toBool] at hread
    | ok b c' =>
      have hs := (Cursor.sound_ofText hc).1
      simp only [hc, Except.toOption, Option.map_some, Option.some.injEq, Prod.mk.injEq] at hwords
      obtain ⟨he, hW, hsettled⟩ := hwords
      obtain ⟨e, hlast, he⟩ := (Option.any_eq_true _ _).mp he
      obtain ⟨W, hW'⟩ := List.getLast?_eq_some_iff.mp hlast
      rw [hW', List.dropLast_concat] at hW hsettled
      cases ha : c.ahead with
      | nil => simp [ha] at hW'
      | cons o ts =>
        obtain rfl : ts = W ++ [e] := by simpa [ha] using hW'
        exact ⟨c, o, W, e, b, c', hs, ha, hb, (braces_match hs ha he hW hsettled).1 b c' hb⟩

/-- Brackets that are in no pairs are taken as if they were, and a word that finds no block in its own
brackets goes on to one in others: the member block ends at the last brace and not at the first. -/
theorem Parser.braces_mismatch :
    (runOn closure "\x7b ) ( \x7d".toList).toOption.map Closure.text = some "\x7b ) ( \x7d".toList ∧
    (Cursor.ofText "\x7b ) ( \x7d".toList).toOption.map (fun c =>
      Token.nested [] (c.ahead.drop 1).dropLast) = some false ∧
    (runOn memberBlock "\x7b var x = if a \x7d struct B \x7b \x7d \x7d".toList).toOption.map
      (fun b => (b.start, b.stop)) = some (0, 31) ∧
    (Cursor.ofText "\x7b var x = if a \x7d struct B \x7b \x7d \x7d".toList).toOption.map (fun c =>
      (Token.nested [] ((c.ahead.drop 1).take 5), (c.peek 6).isSymbol "\x7d", (c.peek 6).stop)) =
      some (true, true, 16) := by
  refine ⟨?_, ?_, ?_, ?_⟩ <;> decide +kernel

end SwiftMacros
