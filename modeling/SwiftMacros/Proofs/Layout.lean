import Mathlib
import SwiftMacros.Proofs.Grammar.Tiles
import SwiftMacros.Proofs.WeakSelf

/-! A closure laid out again from its statements and put at another place is read as the same lexemes.
Those that span lines have their lines moved, twice: with the statement that they stand in, and with the
whole closure. A string literal over several lines keeps its content if that keeps to the margin which
the closing delimiter sets. -/

namespace SwiftMacros

open Token (Word Reads mark dropSemicolons Moved Neat content)

namespace Token

/-- The second lexeme is the first on other lines. Each literal over several lines in it, whether the
lexeme itself or one in an interpolation of it, has kept its content if that keeps to the margin. -/
structure Word.Kept (w w' : Word) : Prop where
  relined : w.Relined w'
  content : ∀ x d y z, w.2 = x ++ (d :: y ++ z) → Text.isBlank d = false → Neat (d :: y) →
    ∃ x' y' z', w'.2 = x' ++ (d :: y' ++ z') ∧ Token.Relined x x' ∧ Token.Relined z z' ∧
      Neat (d :: y') ∧ content (d :: y') = content (d :: y)

namespace Word.Kept

theorem of_moved {m : Nat} {g : Text} {w w' : Word} (hg : ∀ c ∈ g, Text.isIndent c = true)
    (h : w.1 = w'.1 ∧ Moved m g w.2 w'.2) : w.Kept w' where
  relined := ⟨h.1, h.2.relined hg⟩
  content x d y z hw hd hneat := by
    have hmoved := h.2
    rw [hw, List.cons_append] at hmoved
    obtain ⟨x', u, hu, hx, hrest⟩ := hmoved.of_solid_cons hg hd
    rw [← List.cons_append] at hrest
    obtain ⟨v, z', heq, hv, hz⟩ := hrest.of_solid hneat.last
    obtain ⟨y', rfl⟩ : ∃ y', v = d :: y' := by
      cases v with
      | nil => cases (hv.relined hg).head?_eq
      | cons e v => exact ⟨v, by rw [(Option.some.inj (hv.relined hg).head?_eq : d = e)]⟩
    exact ⟨x', y', z', by rw [hu, heq], hx, hz.relined hg, hv.content_eq hg hneat⟩

theorem refl (w : Word) : w.Kept w where
  relined := ⟨rfl, .refl w.2⟩
  content x _ y z hw _ hneat := ⟨x, y, z, hw, .refl x, .refl z, hneat, rfl⟩

theorem trans {a b c : Word} (h : a.Kept b) (h' : b.Kept c) : a.Kept c where
  relined := ⟨h.relined.1.trans h'.relined.1, h.relined.2.trans h'.relined.2⟩
  content x d y z hw hd hneat := by
    obtain ⟨x', y', z', hw', hx, hz, hneat', heq⟩ := h.content x d y z hw hd hneat
    obtain ⟨x'', y'', z'', hw'', hx', hz', hneat'', heq'⟩ := h'.content x' d y' z' hw' hd hneat'
    exact ⟨x'', y'', z'', hw'', hx.trans hx', hz.trans hz', hneat'', heq'.trans heq⟩

theorem all_trans {as bs cs : List Word} (h : as.Forall₂ Kept bs) (h' : bs.Forall₂ Kept cs) :
    as.Forall₂ Kept cs := by
  induction h generalizing cs with
  | nil => exact h'
  | cons ha _ ih =>
    cases h' with
    | cons hb h' => exact .cons (ha.trans hb) (ih h')

end Word.Kept

end Token

/-- The closure with another indent unit, laid out from its statements. -/
def Closure.layout (unit : Text) (k : Closure) : Text :=
  ({ k with text := [], indentUnit := unit } : Closure).toText

section Layout

variable {t unit indent : Text} {k : Closure} {c c₁ c' : Cursor} {head : List Word}
  {lss : List (List Word)}

/-- A signature that holds its text is shown as that. -/
theorem Signature.toText_of_text {s : Signature} (h : s.text ≠ []) : s.toText = s.text := by
  obtain ⟨a, b, d, e, f, text⟩ := s
  obtain ⟨x, y, rfl⟩ := List.exists_cons_of_ne_nil h
  rfl

theorem Closure.Sited.signature_ne_nil (h : k.Sited t c c₁ c') {s : Signature} (hs : k.signature = some s) : s.text ≠ [] := by
  obtain ⟨hlt, htext, -⟩ := h.signed s hs
  rw [htext]
  exact h.inside.upTo_ne_nil hlt

/-- The lexemes of a closure: behind the opening brace those of its signature and of its body. -/
theorem Closure.Sited.reads (h : k.Sited t c c₁ c') : ∃ head body lss,
    Reads k.text (mark '\x7b' :: head ++ body ++ [mark '\x7d']) [] ∧
    Reads ((k.signature.map Signature.toText).getD []) head [] ∧
    k.statements.Forall₂ Statement.Reads lss ∧ lss.flatten = dropSemicolons 0 body := by
  have hcut := h.cut
  obtain ⟨body, lss, hbody, hlss, hflat⟩ :=
    h.body.reads h.inside.sound (h.source_inside.symm ▸ hcut) h.behind_ne_nil
  rw [h.source_inside] at hbody
  have hopen := h.placed.reads (by simp [h.kind_opening])
  have hopened : Cut t c.peek.stop := h.placed.cut_stop (by simp [h.kind_opening])
  rw [h.stop_opening] at hopened hopen
  obtain ⟨head, hhead⟩ := hopened.reads hcut h.lt_inside
  refine ⟨head, body, lss, ?_, ?_, hlss, hflat⟩
  · have hall := (hopen.trans hhead).trans hbody
    rw [h.word_opening] at hall
    rw [h.text, Cursor.upTo, h.leads.source, h.source]
    simpa using reads_slice h.lt.le hall
  · cases hk : k.signature with
    | none =>
      rw [h.edge_unsigned hk] at hhead
      obtain rfl := hhead.eq_nil
      exact .done []
    | some g =>
      obtain ⟨hlt, htext, -⟩ := h.signed g hk
      have hs := (h.sound.advance 1).sound
      have hne := h.inside.peek_ne_eof hlt hs
      obtain ⟨t₁, ts, ht⟩ := List.exists_cons_of_ne_nil
        (Cursor.behind_ne_nil_of_edge (c := c.advance 1) (by rw [h.edge_opening]; omega))
      obtain ⟨us, hu⟩ := hs.ahead_eq hne
      have hpeek := hs.reads_peek ht hu
      rw [h.edge_opening, show (c.advance 1).source = t from h.source] at hpeek
      obtain ⟨ls, rfl, hsignature⟩ := hpeek.between hhead (by
        rw [List.length_drop, List.length_drop]
        omega)
      have hslice := reads_slice hlt.le hsignature
      rw [← h.source_inside, ← Cursor.upTo, ← htext] at hslice
      simpa [Signature.toText_of_text (h.signature_ne_nil hk)] using hslice

theorem Closure.layout_reads (hunit : ∀ c ∈ unit, Text.isIndent c = true)
    (hhead : Reads ((k.signature.map Signature.toText).getD []) head [])
    (hss : k.statements.Forall₂ Statement.Reads lss) :
    ∃ ls, (lss.flatten).Forall₂ (Token.Word.Laid unit) ls ∧
      Reads (k.layout unit) (mark '\x7b' :: head ++ ls ++ [mark '\x7d']) [] := by
  obtain ⟨signature, statements, text, unit'⟩ := k
  set opening : Text := match signature with
    | some s => "\x7b ".toList ++ s.toText
    | none => "\x7b".toList with hopening
  have hopen : ∀ c r, Token.isGap c = true → Reads (opening ++ c :: r) (mark '\x7b' :: head) r := by
    intro c r hc
    have hbrace := fun r => Token.reads_symbol (c := '\x7b') (by decide) r
    cases signature with
    | none =>
      obtain rfl := hhead.eq_nil
      exact (hbrace _).trans (Reads.of_gaps (w := [c]) (by simpa using hc) r)
    | some s =>
      have hgap := Reads.of_gaps (w := [' ']) (by simp [Token.isGap, Token.isSpaceChar]) (s.toText ++ c :: r)
      rw [hopening, List.append_assoc]
      exact (hbrace _).trans (hgap.trans (hhead.before_gap hc r))
  have hlayout : Closure.layout unit ⟨signature, statements, text, unit'⟩ =
      closureLayout opening unit statements := by
    cases signature <;> rfl
  obtain ⟨ls, hls, hblocks⟩ := reads_blocks hunit hss []
  refine ⟨ls, hls, ?_⟩
  rw [hlayout, List.append_assoc]
  cases statements with
  | nil =>
    cases hss
    cases hls
    exact (hopen ' ' _ rfl).trans (Token.reads_symbol (c := '\x7d') (by decide) [])
  | cons s ss =>
    obtain ⟨l, ms, hl⟩ : ∃ l ms, (s :: ss).map (Statement.layout unit) ++ ["\x7d".toList] = l :: ms :=
      List.exists_cons_of_ne_nil (by simp)
    have htext : closureLayout opening unit (s :: ss) = opening ++ '\n' :: Text.joinLines (l :: ms) := by
      rw [← Text.joinLines_cons, ← hl]
      rfl
    rw [List.append_nil, hl] at hblocks
    rw [htext]
    exact (hopen '\n' _ rfl).trans hblocks

/-- Laying a closure out and putting it at another place keeps its lexemes, up to the semicolons between
its statements, and the content of each literal over several lines that keeps to its margin. -/
theorem Parser.closure_layout_kept (hk : runOn closure t = .ok k)
    (hunit : ∀ c ∈ unit, Text.isIndent c = true) (hindent : ∀ c ∈ indent, Text.isIndent c = true) :
    ∃ head body ls,
      Token.words ((k.signature.map Signature.toText).getD []) = .ok head ∧
      Token.words k.text = .ok (mark '\x7b' :: head ++ body ++ [mark '\x7d']) ∧
      Token.words (Edit.indentContinuation indent (k.layout unit)) = .ok ls ∧
      (mark '\x7b' :: head ++ dropSemicolons 0 body ++ [mark '\x7d']).Forall₂ Token.Word.Kept ls := by
  obtain ⟨c, c₁, c', h⟩ := closure_sited hk
  obtain ⟨head, body, lss, htext, hhead, hss, hflat⟩ := h.reads
  obtain ⟨ms, hms, hlayout⟩ := Closure.layout_reads hunit hhead hss
  obtain ⟨ls, hls, hmoved⟩ := hlayout.moved (Token.Moved.mover hindent) (List.append_nil _).symm
    (Edit.indentContinuation_moved indent _)
  rw [List.append_nil] at hmoved
  refine ⟨head, body, ls, Token.words_of_reads hhead, Token.words_of_reads htext,
    Token.words_of_reads hmoved, ?_⟩
  have hkept : (mark '\x7b' :: head ++ lss.flatten ++ [mark '\x7d']).Forall₂ Token.Word.Kept
      (mark '\x7b' :: head ++ ms ++ [mark '\x7d']) := by
    refine List.rel_append (List.rel_append (List.forall₂_same.mpr fun w _ => .refl w) ?_) (.cons (.refl _) .nil)
    exact hms.imp fun w w' h => .of_moved hunit ⟨h.1, h.2.choose_spec⟩
  rw [← hflat]
  exact Token.Word.Kept.all_trans hkept (hls.imp fun w w' h => .of_moved hindent h)

end Layout

/-- A signature, a literal with an empty line and a statement behind a semicolon, laid out with tabs in
front of two spaces. -/
theorem Parser.closure_layout_kept_tabs : ∃ k,
    runOn closure "\x7b x in\n  let s = \"\"\"\n    a\n\n      b\n    \"\"\"; g() \x7d".toList = .ok k ∧
    ∃ head body ls,
      Token.words ((k.signature.map Signature.toText).getD []) = .ok head ∧
      Token.words k.text = .ok (mark '\x7b' :: head ++ body ++ [mark '\x7d']) ∧
      Token.words (Edit.indentContinuation [' ', ' '] (k.layout ['\t'])) = .ok ls ∧
      (mark '\x7b' :: head ++ dropSemicolons 0 body ++ [mark '\x7d']).Forall₂ Token.Word.Kept ls := by
  have hread : (runOn closure
      "\x7b x in\n  let s = \"\"\"\n    a\n\n      b\n    \"\"\"; g() \x7d".toList).isOk = true := by
    decide +kernel
  cases hk : runOn closure
      "\x7b x in\n  let s = \"\"\"\n    a\n\n      b\n    \"\"\"; g() \x7d".toList with
  | error e =>
    rw [hk] at hread
    cases hread
  | ok k => exact ⟨k, rfl, closure_layout_kept hk (by simp [Text.isIndent]) (by simp [Text.isIndent])⟩

/-- The contents of the literals over several lines in a text. -/
def Text.contents (t : Text) : Option (List (List Text)) :=
  (Token.words t).toOption.map fun ws =>
    (ws.filter fun w => w.2.contains '\n').map fun w => content w.2

/-- White space on a line of a literal goes even where it reaches beyond the margin. Without white space
in front of its closing delimiter a literal has no margin to be moved with, and the same holds if the
unit is not white space. -/
theorem Parser.closure_layout_changes :
    (runOn closure "\x7b let s = \"\"\"\n      \n  \"\"\" \x7d".toList).toOption.map (fun k =>
        (k.text.contents, (Edit.indentContinuation [] (k.layout [' ', ' '])).contents)) =
      some (some [["    ".toList]], some [[[]]]) ∧
    (runOn closure "\x7b let s = \"\"\"\n  a\n  b\"\"\" \x7d".toList).toOption.map (fun k =>
        (k.text.contents, (Edit.indentContinuation [] (k.layout "    ".toList)).contents)) =
      some (some [["  a".toList]], some [["    a".toList]]) ∧
    (runOn closure "\x7b f(\"\"\"\n  a\n  \"\"\") \x7d".toList).toOption.map (fun k =>
        (k.text.contents, (Edit.indentContinuation [] (k.layout ['x'])).contents)) =
      some (some [[['a']]], some [[['x', 'a']]]) := by
  refine ⟨?_, ?_, ?_⟩ <;> decide +kernel

end SwiftMacros
