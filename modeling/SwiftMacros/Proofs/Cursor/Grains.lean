import Mathlib
import SwiftMacros.Proofs.Cursor.Slice
import SwiftMacros.Proofs.Cursor.Taken
import SwiftMacros.Proofs.Token.Coordinates
import SwiftMacros.Proofs.Token.Respell

/-! The grains of a source: its tokens, with the marks at the front of an operator taken apart, each
together with the gap before it. Splitting an operator changes the tokens ahead of a cursor, but never
its grains; so whatever has been tried before, what a cursor that was reached from the start of its
source has ahead of it is told by grains. -/

namespace SwiftMacros

open Token (Word Reads Chunk Laid Joint Placed Refines Spaced isMarkChar lexeme)

/-- There is no cut inside a lexeme. -/
theorem Cut.le_of_lexeme {s : Text} {q m n : Nat} {k : Token.Kind} (hq : Cut s q)
    (hl : lexeme (s.drop q) = .ok (k, n)) (hk : k.isTrivia = false) (hm : Cut s m) (hlt : q < m) :
    q + n ≤ m := by
  obtain ⟨ls, hls⟩ := hq.reads hm hlt.le
  obtain ⟨x, u, hxu, rfl, -⟩ := Token.lexeme_split hl
  rw [hxu] at hl
  have hle := (Chunk.lexeme hl hk).le_of_reads (hxu ▸ hls) (by
    intro h
    have := congrArg List.length (hxu.trans h.symm)
    simp only [List.length_drop] at this
    have := hm.1
    omega)
  have := congrArg List.length hxu
  simp only [List.length_drop, List.length_append] at this hle
  have := hm.1
  omega

/-- A part of a source that no parser splits, with the white space and the comments before it. -/
structure Grain where
  gap : Text
  kind : Token.Kind
  text : Text

namespace Grain

def word (a : Grain) : Word := (a.kind, a.text)

/-- A mark that counts for itself. -/
def IsMark (a : Grain) : Prop := ∃ m, isMarkChar m = true ∧ a.word = (.operator, [m])

/-- The source that grains stand for. -/
def spell (A : List Grain) : Text := A.flatMap fun a => a.gap ++ a.text

/-- The source that grains stand for, without the gap before them. -/
def bare : List Grain → Text
  | [] => []
  | a :: A => a.text ++ spell A

end Grain

namespace Token

/-- The marks at the front of an operator, and what is behind them. -/
def operatorGrains (gap : Text) : Text → List Grain
  | [] => []
  | c :: x =>
    if isMarkChar c then ⟨gap, .operator, [c]⟩ :: operatorGrains [] x
    else [⟨gap, .operator, c :: x⟩]

/-- The grains of a lexeme with a gap before it. -/
def Word.grains (gap : Text) (w : Word) : List Grain :=
  if w.1 = .operator then operatorGrains gap w.2 else [⟨gap, w.1, w.2⟩]

/-- The grains of tokens that stand behind an offset. -/
def grainsFrom (s : Text) : Nat → List Token → List Grain
  | _, [] => []
  | a, t :: ts => Word.grains (Text.slice s a t.start) t.word ++ grainsFrom s t.stop ts

/-- The offset behind some tokens that stand behind an offset. -/
def stopFrom (a : Nat) (ts : List Token) : Nat := (ts.getLast?.map stop).getD a

theorem stopFrom_cons (a : Nat) (t : Token) (ts : List Token) :
    stopFrom a (t :: ts) = stopFrom t.stop ts := by
  rcases List.eq_nil_or_concat ts with rfl | ⟨ts, u, rfl⟩
  · rfl
  · simp [stopFrom, List.getLast?_cons]

theorem grainsFrom_append (s : Text) (a : Nat) (ts us : List Token) :
    grainsFrom s a (ts ++ us) = grainsFrom s a ts ++ grainsFrom s (stopFrom a ts) us := by
  induction ts generalizing a with
  | nil => rfl
  | cons t ts ih => rw [List.cons_append, grainsFrom, grainsFrom, ih, stopFrom_cons, List.append_assoc]

theorem spell_operatorGrains (gap : Text) {x : Text} (hx : x ≠ []) :
    Grain.spell (operatorGrains gap x) = gap ++ x := by
  induction x generalizing gap with
  | nil => exact absurd rfl hx
  | cons c x ih =>
    rw [operatorGrains]
    split
    · rcases eq_or_ne x [] with rfl | hx
      · simp [Grain.spell, operatorGrains]
      · have := ih [] hx
        simp only [Grain.spell, List.nil_append, List.flatMap_cons] at this ⊢
        rw [this]
        simp
    · simp [Grain.spell]

theorem Word.spell_grains (gap : Text) {w : Word} (hw : w.2 ≠ []) :
    Grain.spell (w.grains gap) = gap ++ w.2 := by
  rw [Word.grains]
  split
  · exact spell_operatorGrains gap hw
  · simp [Grain.spell]

theorem Word.grains_length (gap : Text) {w : Word} (hw : w.2 ≠ []) :
    (w.grains gap).length ≤ w.2.length := by
  have hoperator : ∀ gap x, (operatorGrains gap x).length ≤ x.length := by
    intro gap x
    induction x generalizing gap with
    | nil => simp [operatorGrains]
    | cons c x ih =>
      rw [operatorGrains]
      split
      · simpa using ih []
      · simp
  rw [Word.grains]
  split
  · exact hoperator gap w.2
  · exact List.length_pos_iff.mpr hw

/-- Tokens that follow each other in the source spell what they take up of it. -/
theorem spell_grainsFrom {s : Text} {ts : List Token} {a : Nat} (hp : ∀ t ∈ ts, Placed s t)
    (hpair : ts.Pairwise fun t u => t.stop ≤ u.start) (ha : ∀ t ∈ ts, a ≤ t.start) :
    a ≤ stopFrom a ts ∧ Grain.spell (grainsFrom s a ts) = Text.slice s a (stopFrom a ts) := by
  induction ts generalizing a with
  | nil => simp [stopFrom, grainsFrom, Grain.spell, Text.slice]
  | cons t ts ih =>
    have ht := hp t (by simp)
    have hat := ha t (by simp)
    obtain ⟨hle, hspell⟩ := ih (a := t.stop) (fun u hu => hp u (by simp [hu]))
      (List.pairwise_cons.mp hpair).2 (List.pairwise_cons.mp hpair).1
    rw [stopFrom_cons]
    refine ⟨hat.trans (ht.lt.le.trans hle), ?_⟩
    have hword := Word.spell_grains (Text.slice s a t.start) (w := t.word) ht.text_ne_nil
    rw [grainsFrom, Grain.spell, List.flatMap_append]
    rw [Grain.spell] at hword hspell
    rw [hword, hspell, show t.word.2 = _ from ht.text, slice_append_slice hat ht.lt.le,
      slice_append_slice (hat.trans ht.lt.le) hle]

section Marked

/-- The second list is the first with marks split off the fronts of operators. -/
inductive Marked : List Token → List Token → Prop
  | nil : Marked [] []
  | keep (t : Token) {ts us : List Token} : Marked ts us → Marked (t :: ts) (t :: us)
  | split {t : Token} {m : Char} {x : Text} {ts us : List Token} : t.kind = .operator →
      t.text = m :: x → isMarkChar m = true → Marked (t.back :: ts) us →
      Marked (t :: ts) (t.front :: us)

/-- The token is a lexeme of the source, or what is left of one behind some of its characters. -/
structure Ending (s : Text) (t : Token) : Prop where
  significant : t.kind.isTrivia = false
  length : t.text.length = t.stop - t.start
  lexeme : ∃ q, q ≤ t.start ∧ Cut s q ∧ lexeme (s.drop q) = .ok (t.kind, t.stop - q)

variable {s : Text} {a : Nat} {ts us : List Token}

theorem Ending.back {t : Token} (h : Ending s t) : Ending s t.back := by
  obtain ⟨q, hq, hcut, hl⟩ := h.lexeme
  refine ⟨h.significant, ?_, q, by simp only [Token.back]; omega, hcut, hl⟩
  have := h.length
  simp only [Token.back, List.length_drop]
  omega

theorem Laid.ending (h : Laid s a ts) (ha : Cut s a) : ∀ t ∈ ts, Ending s t := by
  induction h with
  | nil => simp
  | @cons a t ts hr hle hlt hstop htext hl hk hts ih =>
    have hstart : Cut s t.start := ha.of_reads (by omega) hr
    have hlen : t.text.length = t.stop - t.start := by rw [htext, slice_length hstop]
    have hword : Reads (s.drop t.start) [t.word] (s.drop t.stop) := by
      rw [← slice_append_drop hlt.le, ← htext] at hl ⊢
      exact .chunk (.lexeme (hlen ▸ hl) hk) (.done _)
    exact List.forall_mem_cons.mpr ⟨⟨hk, hlen, t.start, le_rfl, hstart, hl⟩,
      ih (hstart.of_reads hstop hword)⟩

/-- Tokens in pieces that follow each other in the source are split at marks. A piece that is no mark
is joined to the next one at a cut, and there is none inside an operator. -/
theorem Refines.marked (h : Refines ts us) (hts : ∀ t ∈ ts, Ending s t)
    (hus : us.IsChain (Joint s)) : Marked ts us := by
  induction h with
  | nil => exact .nil
  | keep t _ ih => exact .keep t (ih (fun u hu => hts u (by simp [hu])) hus.tail)
  | @split t ts us hk hlen h ih =>
    have ht := hts t (by simp)
    have hback : ∀ u ∈ t.back :: ts, Ending s u :=
      List.forall_mem_cons.mpr ⟨ht.back, fun u hu => hts u (by simp [hu])⟩
    have hmarked := ih hback hus.tail
    obtain ⟨u, us, rfl⟩ : ∃ u vs, us = u :: vs := by
      cases h with
      | keep => exact ⟨_, _, rfl⟩
      | split => exact ⟨_, _, rfl⟩
    obtain ⟨m, x, htext⟩ := List.exists_cons_of_length_pos (l := t.text) (by omega)
    rcases (List.isChain_cons_cons.mp hus).1 with ⟨-, hcut, -⟩ | ⟨-, -, -, -, c, hc, hfront⟩
    · obtain ⟨q, hq, hcutq, hl⟩ := ht.lexeme
      have hlen' := ht.length
      have := hcutq.le_of_lexeme hl ht.significant hcut (by simp only [front]; omega)
      simp only [front] at this
      omega
    · obtain rfl : m = c := by simpa [front, htext] using hfront
      exact .split hk htext hc hmarked

/-- Splitting off marks leaves the grains as they are. -/
theorem Marked.grainsFrom_eq (h : Marked ts us) (a : Nat) :
    grainsFrom s a us = grainsFrom s a ts := by
  induction h generalizing a with
  | nil => rfl
  | keep t _ ih => rw [grainsFrom, grainsFrom, ih]
  | @split t m x ts us hk htext hm _ ih =>
    have hempty : Text.slice s (t.start + 1) (t.start + 1) = [] := by simp [Text.slice]
    rw [grainsFrom, ih]
    simp [grainsFrom, Word.grains, operatorGrains, front, back, word, hk, htext, hm, hempty]

/-- Splitting off marks leaves what tokens tell of the gaps before them. -/
theorem Marked.spaced (h : Marked ts us) {a : Nat} (hts : Spaced s a ts) : Spaced s a us := by
  induction h generalizing a with
  | nil => trivial
  | keep t _ ih => exact ⟨hts.1, hts.2.1, ih hts.2.2⟩
  | split _ _ _ _ ih =>
    refine ⟨hts.1, hts.2.1, ih ⟨?_, ?_, hts.2.2⟩⟩
    · simp [back, front]
    · simp [back, front, Text.slice]

end Marked

theorem spaced_append {s : Text} {a : Nat} {ts us : List Token} :
    Spaced s a (ts ++ us) ↔ Spaced s a ts ∧ Spaced s (stopFrom a ts) us := by
  induction ts generalizing a with
  | nil => simp [Spaced, stopFrom]
  | cons t ts ih => simp only [List.cons_append, Spaced, ih, stopFrom_cons, and_assoc]

/-- What a parser can tell of a token without splitting it: its kind, and its text up to the first
mark if it starts with one. -/
def view (t : Token) : Word :=
  if t.kind = .operator then
    match t.text with
    | m :: x => (.operator, if isMarkChar m then [m] else m :: x)
    | [] => (.operator, [])
  else t.word

/-- A token that starts with no mark is told as it is. -/
theorem view_eq_word {t : Token} (h : ∀ m, isMarkChar m = true → t.view ≠ (.operator, [m])) :
    t.view = t.word := by
  by_cases hk : t.kind = .operator
  · cases ht : t.text with
    | nil => simp [view, word, hk, ht]
    | cons m x =>
      by_cases hm : isMarkChar m = true
      · exact absurd (by simp [view, hk, ht, hm]) (h m hm)
      · simp [view, word, hk, ht, hm]
  · simp [view, hk]

/-- The first grain of a lexeme is what can be told of it. -/
theorem grains_word (gap : Text) {t : Token} (ht : t.text ≠ []) :
    ∃ A, Word.grains gap t.word = ⟨gap, t.view.1, t.view.2⟩ :: A := by
  obtain ⟨m, x, htext⟩ := List.exists_cons_of_ne_nil ht
  by_cases hk : t.kind = .operator
  · by_cases hm : isMarkChar m = true
    · exact ⟨operatorGrains [] x, by simp [Word.grains, word, view, hk, htext, operatorGrains, hm]⟩
    · exact ⟨[], by simp [Word.grains, word, view, hk, htext, operatorGrains, hm]⟩
  · exact ⟨[], by simp [Word.grains, word, view, hk]⟩

theorem grains_word_whole {gap : Text} {t : Token} (ht : t.text ≠ []) (hv : t.view = t.word) :
    Word.grains gap t.word = [⟨gap, t.kind, t.text⟩] := by
  obtain ⟨m, x, htext⟩ := List.exists_cons_of_ne_nil ht
  by_cases hk : t.kind = .operator
  · by_cases hm : isMarkChar m = true
    · obtain rfl : x = [] := by simpa [view, word, hk, htext, hm, eq_comm] using hv
      simp [Word.grains, word, hk, htext, operatorGrains, hm]
    · simp [Word.grains, word, hk, htext, operatorGrains, hm]
  · simp [Word.grains, word, hk]

end Token

namespace Cursor

variable {c c' : Cursor} {a : Grain} {A : List Grain}

/-- The grains ahead of a cursor. -/
def grains (c : Cursor) : List Grain := Token.grainsFrom c.source c.edge c.ahead

/-- The cursor is reached by reading its source from the start. -/
def Reached (c : Cursor) : Prop := ∃ c₀, ofText c.source = .ok c₀ ∧ c₀.Leads c

theorem reached_ofText {t : Text} (h : ofText t = .ok c) : c.Reached := by
  obtain ⟨hs, rfl, -⟩ := sound_ofText h
  exact ⟨c, h, hs.refl⟩

theorem spaced_ofText {t : Text} (h : ofText t = .ok c) : Spaced t 0 c.inner := by
  cases hts : Token.tokenize t with
  | error e =>
    rw [ofText, hts] at h
    cases h
  | ok ts =>
    rw [ofText, hts] at h
    cases h
    obtain ⟨us, e, rfl, -, -, -, -, hspaced⟩ := Token.tokenize_located hts
    have hne : Token.significant (us ++ [e]) ≠ [] := by
      intro hnil
      rw [hnil] at hspaced
      obtain ⟨vs, e', hvs, -⟩ :=
        Token.tokensFrom_laid (s := t) (p := {}) false false (Nat.zero_le _) hts
      have : Token.significant (us ++ [e]) = vs ++ [e'] := hvs
      simp [this] at hnil
    rw [← List.dropLast_append_getLast hne, Token.spaced_append] at hspaced
    exact hspaced.1

theorem stopFrom_behind (c : Cursor) : Token.stopFrom 0 c.behind.reverse = c.edge := by
  simp [Token.stopFrom, edge]

theorem stopFrom_taken {ts : List Token} (h : c'.behind = ts.reverse ++ c.behind) :
    Token.stopFrom c.edge ts = c'.edge := by
  rcases List.eq_nil_or_concat ts with rfl | ⟨ts, t, rfl⟩
  · simp [Token.stopFrom, edge, h]
  · simp [Token.stopFrom, edge, h]

namespace Reached

theorem lead (h : c.Reached) (hl : c.Leads c') : c'.Reached := by
  obtain ⟨c₀, hc₀, hlead⟩ := h
  exact ⟨c₀, hl.source ▸ hc₀, hlead.trans hl⟩

variable (h : c.Reached)
include h

theorem sound : c.Sound := by
  obtain ⟨c₀, hc₀, hlead⟩ := h
  exact hlead.sound

/-- The tokens of the source are laid out in it, and the cursor has them with some marks split off. -/
theorem marked : ∃ ts, Laid c.source 0 ts ∧ Spaced c.source 0 ts ∧ Token.Marked ts c.inner := by
  obtain ⟨c₀, hc₀, hlead⟩ := h
  obtain ⟨-, -, hlaid, -⟩ := laid_ofText hc₀
  exact ⟨c₀.inner, hlaid, spaced_ofText hc₀,
    hlead.refines.marked (hlaid.ending (cut_zero _)) hlead.sound.arranged.joint⟩

theorem spaced : Spaced c.source c.edge c.ahead := by
  obtain ⟨ts, -, hspaced, hmarked⟩ := h.marked
  have := hmarked.spaced hspaced
  rw [inner, Token.spaced_append, stopFrom_behind] at this
  exact this.2

/-- Reading takes grains from the front of those ahead. -/
theorem grains_eq (hl : c.Leads c') : ∃ ts, c'.behind = ts.reverse ++ c.behind ∧
    c.grains = Token.grainsFrom c.source c.edge ts ++ c'.grains := by
  obtain ⟨us, hus⟩ := hl.behind
  have hb : c'.behind = us.reverse.reverse ++ c.behind := by simp [hus]
  refine ⟨us.reverse, hb, ?_⟩
  obtain ⟨c₀, hc₀, hlead⟩ := h
  obtain ⟨-, -, hlaid, -⟩ := laid_ofText hc₀
  have hending := hlaid.ending (cut_zero _)
  have hlead' := hlead.trans hl
  have hgrains := (hlead.refines.marked hending hlead.sound.arranged.joint).grainsFrom_eq
    (s := c.source) 0
  have hgrains' := (hlead'.refines.marked hending
    (hl.source ▸ hlead'.sound.arranged.joint)).grainsFrom_eq
    (s := c.source) 0
  rw [← hgrains', inner, inner, hb, Token.grainsFrom_append, stopFrom_behind, List.reverse_append,
    List.reverse_reverse, List.append_assoc, Token.grainsFrom_append, stopFrom_behind] at hgrains
  have := List.append_cancel_left hgrains
  rw [grains, this, Token.grainsFrom_append, stopFrom_taken hb, grains, hl.source]

end Reached

section Front

variable (h : c.Reached)
include h

/-- The first grain ahead is what can be told of the token at the cursor, with the gap before it. -/
theorem Reached.grains_front (hk : c.peek.kind ≠ .eof) : ∃ A, c.grains =
    ⟨Text.slice c.source c.edge c.peek.start, c.peek.view.1, c.peek.view.2⟩ :: A := by
  obtain ⟨ts, hts⟩ := h.sound.ahead_eq hk
  obtain ⟨A, hA⟩ := Token.grains_word (Text.slice c.source c.edge c.peek.start)
    (h.sound.placed_peek hk).text_ne_nil
  exact ⟨_, by rw [grains, hts, Token.grainsFrom, hA, List.cons_append]⟩

/-- A token that is not longer than what can be told of it is taken as a grain. -/
theorem Reached.grains_advance (hk : c.peek.kind ≠ .eof) (hv : c.peek.view = c.peek.word) :
    c.grains = ⟨Text.slice c.source c.edge c.peek.start, c.peek.kind, c.peek.text⟩ ::
      (c.advance 1).grains := by
  obtain ⟨ts, hts⟩ := h.sound.ahead_eq hk
  have hahead : (c.advance 1).ahead = ts := by
    rw [advance, hts]
    rfl
  rw [grains, hts, Token.grainsFrom, grains, hahead, h.sound.edge_advance hk,
    Token.grains_word_whole (h.sound.placed_peek hk).text_ne_nil hv]
  rfl

theorem Reached.grains_eq_nil_iff : c.grains = [] ↔ c.ahead = [] := by
  refine ⟨fun hnil => ?_, fun ha => by rw [grains, ha]; rfl⟩
  by_contra hne
  obtain ⟨t, ts, ha⟩ := List.exists_cons_of_ne_nil hne
  have hpeek : c.peek = t := by simp [peek, ha]
  obtain ⟨A, hA⟩ := h.grains_front (hpeek ▸ (h.sound.placed_ahead (t := t) (by simp [ha])).ne_eof)
  simp [hnil] at hA

theorem Reached.peek_of_nil (hnil : c.grains = []) : c.peek = c.eof ∧ c.peek.view = (.eof, []) := by
  have hpeek : c.peek = c.eof := by simp [peek, h.grains_eq_nil_iff.mp hnil]
  refine ⟨hpeek, ?_⟩
  rw [hpeek, Token.view, if_neg (by simp [h.sound.eof_kind]), Token.word, h.sound.eof_kind,
    h.sound.eof_text]

omit h in
/-- The token at the cursor tells what the grain `a` does. -/
structure Faces (c : Cursor) (a : Grain) : Prop where
  ne_eof : c.peek.kind ≠ .eof
  view : c.peek.view = a.word
  gap : a.gap = Text.slice c.source c.edge c.peek.start
  space : c.peek.spaceBefore = !a.gap.isEmpty
  newline : c.peek.newlineBefore = a.gap.contains '\n'

theorem Reached.faces (ha : c.grains = a :: A) : c.Faces a := by
  have hne : c.peek.kind ≠ .eof := by
    intro hk
    obtain ⟨t, ts, hts⟩ := List.exists_cons_of_ne_nil (l := c.ahead) (by
      rw [ne_eq, ← h.grains_eq_nil_iff, ha]
      simp)
    have hpeek : c.peek = t := by simp [peek, hts]
    exact (h.sound.placed_ahead (t := t) (by simp [hts])).ne_eof (hpeek ▸ hk)
  obtain ⟨B, hB⟩ := h.grains_front hne
  obtain ⟨rfl, rfl⟩ := List.cons.inj (ha.symm.trans hB)
  obtain ⟨ts, hts⟩ := h.sound.ahead_eq hne
  have hspaced := h.spaced
  rw [hts] at hspaced
  have hlen : (Text.slice c.source c.edge c.peek.start).length = c.peek.start - c.edge :=
    slice_length ((h.sound.placed_peek hne).lt.le.trans (h.sound.placed_peek hne).le)
  refine ⟨hne, rfl, rfl, ?_, ?_⟩
  · rw [Bool.eq_iff_iff, hspaced.1, Bool.not_eq_true', List.isEmpty_eq_false_iff,
      ← List.length_pos_iff, hlen]
    omega
  · rw [Bool.eq_iff_iff, hspaced.2.1, List.contains_iff_mem]

/-- A grain that is no mark is the token at the cursor. -/
theorem Reached.next (ha : c.grains = a :: A) (hm : ¬ a.IsMark) :
    c.peek.word = a.word ∧ (c.advance 1).grains = A := by
  have hfaces := h.faces ha
  have hview : c.peek.view = c.peek.word := Token.view_eq_word fun m hmark hv =>
    hm ⟨m, hmark, hfaces.view ▸ hv⟩
  exact ⟨hview ▸ hfaces.view, (List.cons.inj ((h.grains_advance hfaces.ne_eof hview).symm.trans ha)).2⟩

theorem Reached.taken (hl : c.Leads c') : ∃ W, c.grains = W ++ c'.grains := by
  obtain ⟨ts, -, hgrains⟩ := h.grains_eq hl
  exact ⟨_, hgrains⟩

/-- There is room for the grains ahead. -/
theorem Reached.length_le_room : c.grains.length ≤ c.room := by
  have hfold : ∀ (ts : List Token) (n a : Nat), (∀ t ∈ ts, Placed c.source t) →
      n + (Token.grainsFrom c.source a ts).length ≤
        ts.foldl (fun n t => n + max (t.stop - t.start) 1) n := by
    intro ts
    induction ts with
    | nil => simp [Token.grainsFrom]
    | cons t ts ih =>
      intro n a hp
      have ht := hp t (by simp)
      have hword := Token.Word.grains_length (Text.slice c.source a t.start) (w := t.word) ht.text_ne_nil
      have hlen : t.word.2.length = t.stop - t.start := ht.length
      have := ih (n + max (t.stop - t.start) 1) t.stop fun u hu => hp u (by simp [hu])
      rw [Token.grainsFrom, List.length_append, List.foldl_cons]
      omega
  have := hfold c.ahead 0 c.edge fun t ht => h.sound.placed_ahead ht
  rwa [Nat.zero_add] at this

/-- Splitting a mark off moves no grain. -/
theorem Reached.grains_split {m : Char} (hm : c.peek.text.head? = some m) (hmark : isMarkChar m = true) :
    c.Leads (c.splitOperator 1) ∧ (c.splitOperator 1).grains = c.grains := by
  have hl := h.sound.splitOperator fun d hd => by
    obtain rfl : m = d := by simpa [hm] using hd
    exact hmark
  obtain ⟨ts, hb, hgrains⟩ := h.grains_eq hl
  obtain rfl : ts = [] := by simpa [behind_splitOperator] using hb
  exact ⟨hl, hgrains.symm⟩

/-- Going back to where a reading started gives back all grains. -/
theorem Reached.grains_rewind (hl : c.Leads c') : (c'.rewind c.position).grains = c.grains := by
  obtain ⟨hlead, hbehind⟩ := hl.rewind
  obtain ⟨ts, hb, hgrains⟩ := h.grains_eq hlead
  obtain rfl : ts = [] := by simpa [hbehind] using hb
  exact hgrains.symm

/-- What is read between two cursors is spelled by the grains that were taken. -/
theorem Reached.upTo_eq (hl : c.Leads c') {W : List Grain} (hW : c.grains = W ++ c'.grains)
    (hne : W ≠ []) : c.upTo c' = Grain.bare W := by
  obtain ⟨ts, hb, hgrains⟩ := h.grains_eq hl
  obtain rfl := List.append_cancel_right (hW.symm.trans hgrains)
  have hts : ∀ t ∈ ts, Placed c.source t := fun t ht =>
    hl.source ▸ hl.sound.placed_behind (by simp [hb, ht])
  have harranged := hl.sound.arranged.pairwise
  rw [inner, hb, List.reverse_append, List.reverse_reverse, List.append_assoc, ← List.append_assoc,
    List.pairwise_append, List.pairwise_append] at harranged
  have hedge : ∀ t ∈ ts, c.edge ≤ t.start := by
    intro t ht
    cases hbehind : c.behind with
    | nil => simp [edge, hbehind]
    | cons u us => simpa [edge, hbehind] using harranged.1.2.2 u (by simp [hbehind]) t ht
  obtain ⟨hle, hspell⟩ := Token.spell_grainsFrom hts harranged.1.2.1 hedge
  rw [stopFrom_taken hb] at hle hspell
  obtain ⟨a, A, hA⟩ := List.exists_cons_of_ne_nil hne
  have hfaces := h.faces (hW.trans (by rw [hA, List.cons_append]))
  rw [hA, Grain.spell, List.flatMap_cons, hfaces.gap, List.append_assoc] at hspell
  have hstart : c.peek.start ≤ c'.edge := by
    have hplaced := h.sound.placed_peek hfaces.ne_eof
    have hend : c'.edge ≤ c.source.length := hl.source ▸ hl.sound.edge_le_length
    have hlen := congrArg List.length hspell
    rw [List.length_append, slice_length (hplaced.lt.le.trans hplaced.le), slice_length hend] at hlen
    have := h.sound.edge_le_peek
    omega
  rw [← slice_append_slice h.sound.edge_le_peek hstart] at hspell
  rw [upTo, hl.source, ← List.append_cancel_left hspell, hA]
  rfl

end Front

end Cursor

end SwiftMacros
