import Mathlib
import SwiftMacros.Proofs.Token.Twins
import SwiftMacros.Proofs.Parser.Fenced
import SwiftMacros.Proofs.Parser.Forward

/-! Two runs side by side. Where the tokens ahead of two cursors are told apart by no parser, a parser
does the same at both: it answers at both or fails at both, with the same tokens taken and the same
operators split. This lasts until the first run has passed the last token in common; from there on
nothing is said of the second. -/

namespace SwiftMacros

open Token (Setting Twin isSymbolChar isMarkChar)
open SwiftMacros.Parser

theorem Token.exists_closing (t : Token) : ∃ x : Token, x.isCloser = true ∧ x.text = t.closing := by
  refine ⟨⟨.symbol, t.closing, 0, 0, 0, 0, false, false⟩, ?_, rfl⟩
  unfold closing
  split_ifs <;> rfl

namespace Parser

/-- Where in two sources the cursors stand: whether what is before the tokens at the cursors counts, bounds
on the room that is left, and the closing marks that are to come, the innermost first. -/
structure Stage where
  strict : Bool
  fuel : Nat
  fuel' : Nat
  mark : Token
  outer : List Token

namespace Stage

variable {S : Setting} {L M : Stage} {x : Token}

def marks (L : Stage) : List Token := L.mark :: L.outer

/-- The closing marks to come up to the last token in common. -/
def stack (L : Stage) : List Text := L.marks.dropLast.map Token.text

/-- Behind a token. -/
def next (L : Stage) : Stage := { L with strict := true, fuel := L.fuel - 1, fuel' := L.fuel' - 1 }

/-- Behind a token, inside of the brackets that it opens. -/
def push (L : Stage) (x : Token) : Stage := { L.next with mark := x, outer := L.marks }

/-- Outside of all brackets, where the last token in common can be passed. -/
def Loose (S : Setting) (L : Stage) : Prop := L.outer = [] ∧ S.last.isCloser = false

/-- Within the bounds of another one. -/
structure Within (L M : Stage) : Prop where
  strict : M.strict = true → L.strict = true
  fuel : L.fuel ≤ M.fuel
  fuel' : L.fuel' ≤ M.fuel'
  mark : L.mark = M.mark
  outer : L.outer = M.outer

/-- Grammars of so many levels do. -/
structure Fits (L : Stage) (n n' : Nat) : Prop where
  fuel : L.fuel ≤ n
  fuel' : L.fuel' ≤ n'

theorem Within.refl (L : Stage) : L.Within L := ⟨id, le_rfl, le_rfl, rfl, rfl⟩

theorem Within.trans {N : Stage} (h : L.Within M) (h' : M.Within N) : L.Within N :=
  ⟨fun hN => h.strict (h'.strict hN), h.fuel.trans h'.fuel, h.fuel'.trans h'.fuel', h.mark.trans h'.mark,
    h.outer.trans h'.outer⟩

theorem Within.stack_eq (h : L.Within M) : L.stack = M.stack := by
  rw [stack, stack, marks, marks, h.mark, h.outer]

theorem Within.loose (h : L.Within M) (hL : L.Loose S) : M.Loose S := ⟨h.outer ▸ hL.1, hL.2⟩

theorem next_within (L : Stage) : L.next.Within L := ⟨fun _ => rfl, Nat.sub_le _ _, Nat.sub_le _ _, rfl, rfl⟩

theorem Within.next (h : L.Within M) : L.next.Within M.next :=
  ⟨fun _ => rfl, Nat.sub_le_sub_right h.fuel 1, Nat.sub_le_sub_right h.fuel' 1, h.mark, h.outer⟩

theorem Fits.of_within {n n' : Nat} (h : M.Fits n n') (hL : L.Within M) : L.Fits n n' :=
  ⟨hL.fuel.trans h.fuel, hL.fuel'.trans h.fuel'⟩

theorem Fits.next {n n' : Nat} (h : L.Fits n n') : L.next.Fits n n' := h.of_within L.next_within

theorem stack_push (L : Stage) (x : Token) : (L.push x).stack = x.text :: L.stack := rfl

theorem stack_eq_nil (h : L.stack = []) : L.outer = [] := by
  cases ho : L.outer with
  | nil => rfl
  | cons m ms => simp [stack, marks, ho] at h

/-- Behind an item that may be none. -/
def after {α : Type} (L : Stage) (o : Option α) : Stage :=
  match o with
  | some _ => L.next
  | none => L

theorem push_not_loose : ¬ (L.push x).Loose S := fun h => by cases h.1

/-- In brackets the last token in common cannot be passed. -/
theorem Within.inner (h : M.Within (L.push x)) : ¬ M.Loose S := fun hM => push_not_loose (h.loose hM)

theorem Within.inner_fits {n n' : Nat} (h : M.Within (L.push x)) (hL : L.next.Fits n n') : M.Fits n n' :=
  ⟨h.fuel.trans hL.fuel, h.fuel'.trans hL.fuel'⟩

end Stage

end Parser

namespace Cursor

variable {S : Setting} {L M : Stage} {c c' c₁ c₁' c₂ c₂' : Cursor} {ss rs qs : List Text}

/-- The last token in common has been taken. -/
def Past (S : Setting) (c : Cursor) : Prop := S.last ∈ c.behind

/-- The tokens ahead of both cursors are the same to a parser. -/
structure Twins (S : Setting) (L : Stage) (c c' : Cursor) : Prop where
  fenced : c.Fenced L.marks
  sound' : c'.Sound
  ahead : Token.Twins S L.stack c.ahead c'.ahead
  room : c.room < L.fuel
  room' : c'.room < L.fuel'
  front : S.front ≤ c.peek.start + 1
  strict : L.strict = true → S.front ≤ c.edge

/-- Both cursors have taken tokens that are the same to a parser. -/
structure Together (S : Setting) (ss rs : List Text) (c c' c₁ c₁' : Cursor) : Prop where
  leads : c.Leads c₁
  leads' : c'.Leads c₁'
  taken : ∃ w w', c₁.behind = w.reverse ++ c.behind ∧ c₁'.behind = w'.reverse ++ c'.behind ∧
    ∀ ts ts', Token.Twins S rs ts ts' → Token.Twins S ss (w ++ ts) (w' ++ ts')

/-- Both cursors have stopped; were they to go back, the tokens ahead would still be the same to a parser. -/
structure Halted (S : Setting) (ss : List Text) (c c' c₁ c₁' : Cursor) : Prop where
  leads : c.Leads c₁
  leads' : c'.Leads c₁'
  taken : ∃ w w', c₁.behind = w.reverse ++ c.behind ∧ c₁'.behind = w'.reverse ++ c'.behind ∧
    Token.Twins S ss (w ++ c₁.ahead) (w' ++ c₁'.ahead)

theorem Past.of_suffix (h : Past S c) (hl : c.behind <:+ c₁.behind) : Past S c₁ := hl.subset h

theorem Together.trans (h : Together S ss rs c c' c₁ c₁') (h' : Together S rs qs c₁ c₁' c₂ c₂') :
    Together S ss qs c c' c₂ c₂' := by
  obtain ⟨w, w', hw, hw', htwins⟩ := h.taken
  obtain ⟨u, u', hu, hu', htwins'⟩ := h'.taken
  refine ⟨h.leads.trans h'.leads, h.leads'.trans h'.leads', w ++ u, w' ++ u', by simp [hu, hw],
    by simp [hu', hw'], fun ts ts' hts => ?_⟩
  rw [List.append_assoc, List.append_assoc]
  exact htwins _ _ (htwins' _ _ hts)

theorem Together.halted (h : Together S ss rs c c' c₁ c₁') (h' : Halted S rs c₁ c₁' c₂ c₂') :
    Halted S ss c c' c₂ c₂' := by
  obtain ⟨w, w', hw, hw', htwins⟩ := h.taken
  obtain ⟨u, u', hu, hu', htwins'⟩ := h'.taken
  refine ⟨h.leads.trans h'.leads, h.leads'.trans h'.leads', w ++ u, w' ++ u', by simp [hu, hw],
    by simp [hu', hw'], ?_⟩
  rw [List.append_assoc, List.append_assoc]
  exact htwins _ _ htwins'

namespace Twins

section Peek

variable (h : c.Twins S L c')
include h

theorem ahead_eq : c.ahead = c.peek :: (c.advance 1).ahead ∧ c'.ahead = c'.peek :: (c'.advance 1).ahead := by
  obtain ⟨t, us, t', us', ht, ht', -⟩ := h.ahead.cons
  simp [Cursor.peek, advance, ht, ht']

theorem peek : Twin S c.peek c'.peek := by
  have hahead := h.ahead
  rw [h.ahead_eq.1, h.ahead_eq.2] at hahead
  exact hahead.head

theorem kind_ne_eof : c.peek.kind ≠ .eof ∧ c'.peek.kind ≠ .eof := by
  have hc : c.peek.kind ≠ .eof := (h.fenced.sound.placed_ahead (t := c.peek) (by rw [h.ahead_eq.1]; simp)).ne_eof
  exact ⟨hc, by rwa [h.peek.kind]⟩

theorem front_le (hL : L.strict = true) : S.front ≤ c.peek.start := (h.strict hL).trans h.fenced.sound.edge_le_peek

theorem newline (hL : L.strict = true) (hc : c.peek.isCloser = false) :
    c'.peek.newlineBefore = c.peek.newlineBefore := h.peek.newline (h.front_le hL) hc

theorem space (hL : L.strict = true) (hc : c.peek.isCloser = false) :
    c'.peek.spaceBefore = c.peek.spaceBefore := h.peek.space (h.front_le hL) hc

/-- The last token in common is still ahead. -/
theorem not_past : ¬ Past S c := by
  intro hpast
  obtain ⟨us, us', hus, -⟩ := h.ahead.eq_append
  have hle := h.fenced.sound.stop_le_start hpast (u := S.last) (by simp [hus])
  have hlt := (h.fenced.sound.placed_behind hpast).lt
  omega

theorem isEof : c.isEof = false ∧ c'.isEof = false := by
  simp [Cursor.isEof, h.ahead_eq.1, h.ahead_eq.2]

/-- The token behind the one at the cursor. -/
theorem second (hc : c.peek.isCloser = false) (hin : L.Loose S → c.peek.isSeam = false) :
    Twin S (c.peek 1) (c'.peek 1) ∧ S.front ≤ (c.peek 1).start := by
  have hahead := h.ahead
  rw [h.ahead_eq.1, h.ahead_eq.2] at hahead
  obtain ⟨u, us, u', us', hu, hu', htwin⟩ := hahead.next hc (by
    by_cases ho : L.stack = []
    · refine .inr ?_
      by_cases hlast : S.last.isCloser = true
      · exact .inl hlast
      · exact .inr (hin ⟨Stage.stack_eq_nil ho, by simpa using hlast⟩)
    · exact .inl ho)
  have hpeek : ∀ (d : Cursor), d.peek 1 = (d.advance 1).peek := fun d => by rw [peek_advance]
  rw [hpeek, hpeek]
  have hstart := (h.fenced.sound.advance 1).sound.edge_le_peek
  have hplaced := h.fenced.sound.placed_peek h.kind_ne_eof.1
  rw [h.fenced.sound.edge_advance h.kind_ne_eof.1] at hstart
  refine ⟨by simpa [Cursor.peek, hu, hu'] using htwin, h.front.trans ?_⟩
  exact hplaced.lt.trans_le hstart

end Peek

theorem within (h : c.Twins S L c') (hL : L.Within M) : c.Twins S M c' where
  fenced := by
    have := h.fenced
    rwa [Stage.marks, hL.mark, hL.outer] at this
  sound' := h.sound'
  ahead := hL.stack_eq ▸ h.ahead
  room := h.room.trans_le hL.fuel
  room' := h.room'.trans_le hL.fuel'
  front := h.front
  strict hM := h.strict (hL.strict hM)

/-- Bounds that are as close as can be. -/
theorem tight (h : c.Twins S L c') : c.Twins S { L with fuel := c.room + 1, fuel' := c'.room + 1 } c' :=
  { h with room := Nat.lt_succ_self _, room' := Nat.lt_succ_self _ }

theorem tight_within (h : c.Twins S L c') : ({ L with fuel := c.room + 1, fuel' := c'.room + 1 } : Stage).Within L :=
  ⟨id, h.room, h.room', rfl, rfl⟩

/-- No token has been taken, but operators have been split. -/
theorem still (h : c.Twins S L c') (hl : c.Leads c₁) (hb : c₁.behind = c.behind) (hl' : c'.Leads c₁')
    (hb' : c₁'.behind = c'.behind) (ht : Token.Twins S L.stack c₁.ahead c₁'.ahead) : c₁.Twins S L c₁' where
  fenced := h.fenced.lead hl hb
  sound' := hl'.sound
  ahead := ht
  room := hl.room_eq h.fenced.sound hb ▸ h.room
  room' := hl'.room_eq h.sound' hb' ▸ h.room'
  front := h.front.trans (Nat.succ_le_succ (hl.peek_le h.fenced.sound))
  strict hL := by
    rw [edge, hb]
    exact h.strict hL

/-- Where both cursors have stopped, going back leaves the tokens ahead the same to a parser. -/
theorem rewind (h : c.Twins S L c') (hh : Halted S L.stack c c' c₁ c₁') :
    (c₁.rewind c.position).Twins S L (c₁'.rewind c'.position) := by
  obtain ⟨w, w', hw, hw', htwins⟩ := hh.taken
  have hback : ∀ {d d₁ : Cursor} {w : List Token}, d₁.behind = w.reverse ++ d.behind →
      (d₁.rewind d.position).ahead = w ++ d₁.ahead := by
    intro d d₁ w hw
    have hk : d₁.behind.length - d.position = w.reverse.length := by
      simp [hw, Cursor.position]
    rw [Cursor.rewind_of_le (by simp [hw, Cursor.position])]
    simp only [hk]
    rw [hw, List.take_left, List.reverse_reverse]
  obtain ⟨hleads, hbehind⟩ := hh.leads.rewind
  obtain ⟨hleads', hbehind'⟩ := hh.leads'.rewind
  refine h.still hleads hbehind hleads' hbehind' ?_
  rwa [hback hw, hback hw']

/-- Behind a token that is taken on both sides. -/
theorem take (h : c.Twins S L c') (hfuel : L.fuel - 1 ≤ M.fuel) (hfuel' : L.fuel' - 1 ≤ M.fuel')
    (hl : (c.advance 1).Leads c₁) (hl' : (c'.advance 1).Leads c₁') (hf : c₁.Fenced M.marks)
    (ht : Token.Twins S M.stack c₁.ahead c₁'.ahead) : c₁.Twins S M c₁' := by
  obtain ⟨hk, hk'⟩ := h.kind_ne_eof
  have hs := h.fenced.sound
  have hbehind : ∀ {d d₁ : Cursor}, d.Sound → d.peek.kind ≠ .eof → (d.advance 1).Leads d₁ → d₁.room < d.room := by
    intro d d₁ hd hk hl
    refine ((hd.advance 1).trans hl).room_lt hd fun hb => ?_
    have hlen := hl.behind.length_le
    rw [hb, hd.behind_advance hk, List.length_cons] at hlen
    omega
  have hroom := hbehind hs hk hl
  have hroom' := hbehind h.sound' hk' hl'
  have hedge : S.front ≤ c₁.edge := by
    refine le_trans ?_ hl.edge_le
    rw [hs.edge_advance hk]
    exact h.front.trans (hs.placed_peek hk).lt
  have := h.room
  have := h.room'
  exact ⟨hf, hl'.sound, ht, by omega, by omega, (hedge.trans hl.sound.edge_le_peek).trans (Nat.le_succ _),
    fun _ => hedge⟩

/-- As many tokens are taken on both sides. -/
theorem advance (h : c.Twins S L c') {n : Nat} (hf : (c.advance n).Fenced L.marks)
    (ht : Token.Twins S L.stack (c.advance n).ahead (c'.advance n).ahead) :
    (c.advance n).Twins S L (c'.advance n) := by
  cases n with
  | zero => exact h.still (h.fenced.sound.advance 0) rfl (h.sound'.advance 0) rfl ht
  | succ n =>
    rw [Nat.add_comm, advance_add, advance_add] at *
    exact h.take (Nat.sub_le _ _) (Nat.sub_le _ _) ((h.fenced.sound.advance 1).sound.advance n)
      ((h.sound'.advance 1).sound.advance n) hf ht

/-- A token that is taken on both sides. -/
theorem together (h : c.Twins S L c') (ht : ∀ ts ts', Token.Twins S rs ts ts' →
    Token.Twins S ss (c.peek :: ts) (c'.peek :: ts')) : Together S ss rs c c' (c.advance 1) (c'.advance 1) :=
  ⟨h.fenced.sound.advance 1, h.sound'.advance 1, [c.peek], [c'.peek],
    h.fenced.sound.behind_advance h.kind_ne_eof.1, h.sound'.behind_advance h.kind_ne_eof.2, ht⟩

/-- The last token in common is taken. -/
theorem past_of_last (h : c.Twins S L c') (hpeek : c.peek = S.last) : Past S (c.advance 1) := by
  rw [Past, h.fenced.sound.behind_advance h.kind_ne_eof.1, hpeek]
  exact List.mem_cons_self

/-- A token that is no bracket is taken, unless it is the last in common. -/
theorem advance_plain (h : c.Twins S L c') (hp : c.peek.isOpener = false ∧ c.peek.isCloser = false) :
    (c.advance 1).Twins S L.next (c'.advance 1) ∨ L.Loose S ∧ Past S (c.advance 1) := by
  have hs := h.fenced.sound
  have hahead := h.ahead
  rw [h.ahead_eq.1, h.ahead_eq.2] at hahead
  rcases hahead.of_plain hp with ht | ⟨hstack, hlast, hcloser⟩
  · exact .inl (h.take le_rfl le_rfl (hs.advance 1).sound.refl (h.sound'.advance 1).sound.refl
      (h.fenced.advance hp) ht)
  · exact .inr ⟨⟨Stage.stack_eq_nil hstack, hcloser⟩, h.past_of_last hlast⟩

theorem together_plain (h : c.Twins S L c') (hp : c.peek.isOpener = false ∧ c.peek.isCloser = false) :
    Together S L.stack L.stack c c' (c.advance 1) (c'.advance 1) :=
  h.together fun _ _ => .plain h.peek hp.1 hp.2

/-- An opening mark is taken, unless it is the last in common. -/
theorem advance_opener (h : c.Twins S L c') (ho : c.peek.isOpener = true) :
    (∃ x : Token, x.isCloser = true ∧ x.text = c.peek.closing ∧ (c.advance 1).Twins S (L.push x) (c'.advance 1) ∧
      Together S L.stack (L.push x).stack c c' (c.advance 1) (c'.advance 1)) ∨ L.Loose S ∧ c.peek = S.last := by
  have hahead := h.ahead
  rw [h.ahead_eq.1, h.ahead_eq.2] at hahead
  obtain ⟨x, hx, htext, hf⟩ := h.fenced.advance_opener ho
  rcases hahead.of_opener ho with ht | ⟨hstack, hlast, hcloser⟩
  · refine .inl ⟨x, hx, htext, h.take le_rfl le_rfl hf.sound.refl (h.sound'.advance 1).sound.refl hf ?_,
      h.together fun ts ts' hts => .opening h.peek ho ?_⟩
    · rwa [Stage.stack_push, htext]
    · rwa [← htext, ← Stage.stack_push]
  · exact .inr ⟨⟨Stage.stack_eq_nil hstack, hcloser⟩, hlast⟩

/-- The closing mark that is to come is taken. -/
theorem advance_closer {x : Token} (h : c.Twins S (L.push x) c') (hc : c.peek.isCloser = true) :
    (c.advance 1).Twins S L.next (c'.advance 1) ∧
      Together S (L.push x).stack L.stack c c' (c.advance 1) (c'.advance 1) := by
  have hahead := h.ahead
  rw [h.ahead_eq.1, h.ahead_eq.2] at hahead
  obtain ⟨hpeek, hf⟩ := h.fenced.advance_closer hc
  refine ⟨h.take (Nat.sub_le _ _) (Nat.sub_le _ _) hf.sound.refl (h.sound'.advance 1).sound.refl hf
    (hahead.of_closer hc), h.together fun ts ts' hts => ?_⟩
  rw [Stage.stack_push, show x.text = c.peek.text from congrArg Token.text hpeek.symm]
  exact .closing h.peek hc hts

/-- Operators that start with a mark are split alike. -/
theorem split (h : c.Twins S L c') (hk : c.peek.kind = .operator) {m : Char} (hm : c.peek.text.head? = some m)
    (hmark : isMarkChar m = true) : (c.splitOperator 1).Twins S L (c'.splitOperator 1) := by
  have hk' : c'.peek.kind = .operator := h.peek.kind.trans hk
  have htext : c'.peek.text = c.peek.text := h.peek.text (by simp [hk])
  have hfirst : ∀ d ∈ c.peek.text.head?, isMarkChar d = true := fun d hd => by
    obtain rfl : m = d := by simpa [hm] using hd
    exact hmark
  refine h.still (h.fenced.sound.splitOperator hfirst) (c.behind_splitOperator 1)
    (h.sound'.splitOperator (htext ▸ hfirst)) (c'.behind_splitOperator 1) ?_
  have hahead := h.ahead
  rw [h.ahead_eq.1, h.ahead_eq.2] at hahead
  by_cases hlen : 1 < c.peek.text.length
  · simp only [Cursor.splitOperator, h.ahead_eq.1, h.ahead_eq.2, hk, hk', htext, hlen, and_self, if_true]
    simpa [Token.front, Token.back, hk, hk', htext] using hahead.split hk hlen
  · simp only [Cursor.splitOperator, h.ahead_eq.1, h.ahead_eq.2, htext, hlen, and_false, if_false]
    exact hahead

/-- Behind brackets that are passed over on both sides, unless they are opened by the last token in common. -/
theorem skipBalanced (h : c.Twins S L c') (ho : c.peek.isOpener = true) : (∃ c₁ c₁', Parser.skipBalanced c = .ok () c₁ ∧
    Parser.skipBalanced c' = .ok () c₁' ∧ Together S L.stack L.next.stack c c' c₁ c₁' ∧ c₁.Twins S L.next c₁') ∨
      L.Loose S ∧ c.peek = S.last := by
  obtain ⟨x, hx, htext, h₁, hopen⟩ | hlast := h.advance_opener ho
  swap
  · exact .inr hlast
  obtain ⟨n, hn, hn', hpass, hle, hle', hkeeps⟩ := Token.Twins.balanced
    (show Token.Twins S (x.text :: [] ++ L.stack) _ _ from h₁.ahead)
  have hlength : ∀ {d : Cursor}, d.ahead = d.peek :: (d.advance 1).ahead → d.peek.isOpener = true →
      balancedLength? (([] : List Text).length + 1) (d.advance 1).ahead = some n →
      Parser.skipBalanced d = .ok () ((d.advance 1).advance n) := by
    intro d hd ho hn
    have : balancedLength? 0 d.ahead = some (1 + n) := by
      rw [List.length_nil, Nat.cast_zero, zero_add] at hn
      rw [hd, balancedLength?, if_pos ho, zero_add, hn, Option.map_some, Nat.add_comm]
    rw [← advance_add, Parser.skipBalanced, run_get_bind, this]
    rfl
  have hskip := hlength h.ahead_eq.1 ho hn
  have hskip' := hlength h.ahead_eq.2 (h.peek.isOpener.trans ho) hn'
  have hl := h₁.fenced.sound.advance n
  have hl' := h₁.sound'.advance n
  refine .inl ⟨_, _, hskip, hskip', hopen.trans ⟨hl, hl', _, _, rfl, rfl, hkeeps⟩, ?_⟩
  exact h.take le_rfl le_rfl hl hl' (h.fenced.skipBalanced ho hskip).1 hpass

end Twins

/-- Two cursors have the same tokens ahead of them, or the first has passed the last token in common, where
`l` holds. -/
def Beside (S : Setting) (l : Prop) (L : Stage) (c c' : Cursor) : Prop := c.Twins S L c' ∨ l ∧ Past S c

namespace Beside

variable {l : Prop}

theorem within (h : Beside S l L c c') (hL : L.Within M) : Beside S l M c c' := h.imp_left (·.within hL)

/-- In front of a place where nothing in common is past, nothing was. -/
theorem of_advance (h : Beside S l L c c') (h₁ : (c.advance 1).Twins S M c₁') : c.Twins S L c' :=
  h.resolve_right fun hpast => h₁.not_past (hpast.2.of_suffix (List.suffix_append _ _))

theorem prior (h : Beside S l L.next c c') : Beside S l L c c' := h.within L.next_within

/-- A token that is no bracket is taken. -/
theorem plain (h : Beside S l L c c') (hl : L.Loose S → l)
    (hp : c.peek.isOpener = false ∧ c.peek.isCloser = false) :
    Beside S l L.next (c.advance 1) (c'.advance 1) ∧
      (Together S L.stack L.next.stack c c' (c.advance 1) (c'.advance 1) ∨ l ∧ Past S (c.advance 1)) := by
  rcases h with h | ⟨hl', h⟩
  · exact ⟨(h.advance_plain hp).imp_right fun ⟨hL, hpast⟩ => ⟨hl hL, hpast⟩, .inl (h.together_plain hp)⟩
  · have : Past S (c.advance 1) := h.of_suffix (List.suffix_append _ _)
    exact ⟨.inr ⟨hl', this⟩, .inr ⟨hl', this⟩⟩

/-- An opening mark is taken. -/
theorem opener (h : Beside S l L c c') (hl : L.Loose S → c.peek = S.last → l) (ho : c.peek.isOpener = true) :
    ∃ x : Token, x.isCloser = true ∧ x.text = c.peek.closing ∧
      Beside S l (L.push x) (c.advance 1) (c'.advance 1) ∧
      (Together S L.stack (L.push x).stack c c' (c.advance 1) (c'.advance 1) ∨ l ∧ Past S (c.advance 1)) := by
  have hpast : l ∧ Past S (c.advance 1) → ∃ x : Token, x.isCloser = true ∧ x.text = c.peek.closing ∧
      Beside S l (L.push x) (c.advance 1) (c'.advance 1) ∧
      (Together S L.stack (L.push x).stack c c' (c.advance 1) (c'.advance 1) ∨ l ∧ Past S (c.advance 1)) := fun h => by
    obtain ⟨x, hx, htext⟩ := c.peek.exists_closing
    exact ⟨x, hx, htext, .inr h, .inr h⟩
  rcases h with h | ⟨hl', h⟩
  · obtain ⟨x, hx, htext, hnext, htogether⟩ | ⟨hloose, hlast⟩ := h.advance_opener ho
    · exact ⟨x, hx, htext, .inl hnext, .inl htogether⟩
    · exact hpast ⟨hl hloose hlast, h.past_of_last hlast⟩
  · exact hpast ⟨hl', h.of_suffix (List.suffix_append _ _)⟩

/-- The closing mark that is to come is taken. -/
theorem closer {x : Token} (h : Beside S l (L.push x) c c') (hc : c.peek.isCloser = true) :
    Beside S l L.next (c.advance 1) (c'.advance 1) ∧
      (Together S (L.push x).stack L.next.stack c c' (c.advance 1) (c'.advance 1) ∨ l ∧ Past S (c.advance 1)) := by
  rcases h with h | ⟨hl', h⟩
  · obtain ⟨hnext, htogether⟩ := h.advance_closer hc
    exact ⟨.inl hnext, .inl htogether⟩
  · have : Past S (c.advance 1) := h.of_suffix (List.suffix_append _ _)
    exact ⟨.inr ⟨hl', this⟩, .inr ⟨hl', this⟩⟩

end Beside

end Cursor

namespace Parser

open Cursor (Beside Past Together Halted)

variable {α β γ δ σ : Type}

/-- What `p` does at `c`, `p'` does at `c'`: it takes the same tokens and splits the same operators, and
then answers, so that `v` tells no difference, or fails. The stage is that of `M` then. -/
structure Tracks (S : Setting) (l : Prop) (ss : List Text) (M : α → Stage) (v : α → γ) (p p' : Parser α)
    (c c' : Cursor) : Prop where
  ok : ∀ a c₁, p c = .ok a c₁ → (∃ a' c₁', p' c' = .ok a' c₁' ∧ v a' = v a ∧
    Together S ss (M a).stack c c' c₁ c₁' ∧ c₁.Twins S (M a) c₁') ∨ l ∧ Past S c₁
  error : ∀ e c₁, p c = .error e c₁ → (∃ e' c₁', p' c' = .error e' c₁' ∧ Halted S ss c c' c₁ c₁') ∨
    l ∧ Past S c₁

/-- The answers do not matter. -/
abbrev Keeps (S : Setting) (l : Prop) (L M : Stage) (p p' : Parser α) (c c' : Cursor) : Prop :=
  Tracks S l L.stack (fun _ => M) (fun _ => ()) p p' c c'

namespace Tracks

variable {S : Setting} {l : Prop} {L L' : Stage} {ss rs : List Text} {M : α → Stage} {N : β → Stage}
  {v : α → γ} {u : β → δ} {p p' q q' : Parser α} {f f' : α → Parser β} {c c' c₁ c₁' : Cursor}

/-- Behind the last token in common nothing is asked of the second parser. -/
theorem of_past (h : l ∧ Past S (after p c)) : Tracks S l ss M v p p' c c' :=
  ⟨fun a c₁ ha => .inr (by rwa [after, ha] at h), fun e c₁ he => .inr (by rwa [after, he] at h)⟩

theorem of_forward (hp : Forward p) (hc : l ∧ Past S c) : Tracks S l ss M v p p' c c' := by
  obtain ⟨ts, hts, -⟩ := (hp c).taken
  exact of_past ⟨hc.1, hc.2.of_suffix ⟨ts.reverse, hts.symm⟩⟩

theorem past (h : Tracks S l ss M v p p' c c') (hc : l ∧ Past S c) : l ∧ Past S (after p c) := by
  cases hp : p c with
  | ok a c₁ =>
    rw [after, hp]
    rcases h.ok a c₁ hp with ⟨_, _, -, -, htogether, -⟩ | hpast
    · exact ⟨hc.1, hc.2.of_suffix htogether.leads.behind⟩
    · exact hpast
  | error e c₁ =>
    rw [after, hp]
    rcases h.error e c₁ hp with ⟨_, _, -, hhalted⟩ | hpast
    · exact ⟨hc.1, hc.2.of_suffix hhalted.leads.behind⟩
    · exact hpast

theorem past_bind (hp : l ∧ Past S (after p c)) (hf : ∀ a c₁, l ∧ Past S c₁ → l ∧ Past S (after (f a) c₁)) :
    l ∧ Past S (after (p >>= f) c) := by
  rw [after] at hp ⊢
  cases ha : p c with
  | ok a c₁ =>
    rw [ha] at hp
    rw [bind_of_ok ha]
    exact hf a c₁ hp
  | error e c₁ =>
    rw [ha] at hp
    rwa [bind_of_error ha]

/-- Behind the last token in common, the first parser takes tokens first. -/
theorem past_step (hpast : l ∧ Past S c₁) (hp : p c = q c₁) (hq : Tracks S l rs M v q q' c₁ c₁') :
    Tracks S l ss M v p p' c c' := by
  refine of_past ?_
  rw [after, hp]
  exact hq.past hpast

/-- Both parsers take tokens first. -/
theorem step (hm : Together S ss rs c c' c₁ c₁' ∨ l ∧ Past S c₁) (hp : p c = q c₁) (hp' : p' c' = q' c₁')
    (hq : Tracks S l rs M v q q' c₁ c₁') : Tracks S l ss M v p p' c c' := by
  rcases hm with hm | hpast
  · refine ⟨fun a c₂ ha => ?_, fun e c₂ he => ?_⟩
    · refine (hq.ok a c₂ (hp ▸ ha)).imp_left ?_
      rintro ⟨a', c₂', ha', hv, htogether, htwins⟩
      exact ⟨a', c₂', hp'.trans ha', hv, hm.trans htogether, htwins⟩
    · refine (hq.error e c₂ (hp ▸ he)).imp_left ?_
      rintro ⟨e', c₂', he', hhalted⟩
      exact ⟨e', c₂', hp'.trans he', hm.halted hhalted⟩
  · exact past_step hpast hp hq

/-- The parsers can be told in another way where they stand. -/
theorem of_eq (h : Tracks S l ss M v q q' c c') (hp : p c = q c) (hp' : p' c' = q' c') :
    Tracks S l ss M v p p' c c' :=
  ⟨fun a c₁ ha => hp' ▸ h.ok a c₁ (hp ▸ ha), fun e c₁ he => hp' ▸ h.error e c₁ (hp ▸ he)⟩

theorem get_bind {f f' : Cursor → Parser α} (h : Tracks S l ss M v (f c) (f' c') c c') :
    Tracks S l ss M v (get >>= f) (get >>= f') c c' := h.of_eq rfl rfl

theorem current_bind {f f' : Token → Parser α} (h : Tracks S l ss M v (f c.peek) (f' c'.peek) c c') :
    Tracks S l ss M v (current >>= f) (current >>= f') c c' := h.of_eq rfl rfl

theorem sliceFrom_bind {t t' : Token} {f f' : Text → Parser α}
    (h : Tracks S l ss M v (f (c.sliceFrom t)) (f' (c'.sliceFrom t')) c c') :
    Tracks S l ss M v (sliceFrom t >>= f) (sliceFrom t' >>= f') c c' := h.of_eq rfl rfl

/-- Both parsers answer where they stand. -/
theorem stay (a a' : α) (h : Beside S l (M a) c c') (hv : v a' = v a) (hp : p c = .ok a c)
    (hp' : p' c' = .ok a' c') : Tracks S l (M a).stack M v p p' c c' where
  ok b c₁ hb := by
    obtain ⟨rfl, rfl⟩ : a = b ∧ c = c₁ := by simpa [hp] using hb
    refine h.imp_left fun h => ⟨a', c', hp', hv, ⟨h.fenced.sound.refl, h.sound'.refl, [], [], rfl, rfl, ?_⟩, h⟩
    exact fun _ _ h => h
  error e c₁ he := by simp [hp] at he

theorem pure {a a' : α} (h : Beside S l L c c') : Keeps S l L L (Pure.pure a) (Pure.pure a') c c' :=
  stay (M := fun _ => L) a a' h rfl rfl rfl

/-- Whatever both parsers answer with, they answer where they stand. -/
theorem answer (h : Beside S l L c c') (hp : ∃ a, p c = .ok a c) (hp' : ∃ a', p' c' = .ok a' c') :
    Keeps S l L L p p' c c' := by
  obtain ⟨a, ha⟩ := hp
  obtain ⟨a', ha'⟩ := hp'
  exact stay (M := fun _ => L) a a' h rfl ha ha'

/-- A round of a loop gives an item. -/
theorem pure_some {a a' : α} (h : Beside S l L.next c c') : Tracks S l L.next.stack L.after Option.isSome
    (Pure.pure (some a)) (Pure.pure (some a')) c c' := stay (M := L.after) (some a) (some a') h rfl rfl rfl

/-- A loop ends. -/
theorem pure_none (h : Beside S l L c c') : Tracks S l L.stack L.after Option.isSome
    (Pure.pure (none : Option α)) (Pure.pure none) c c' := stay (M := L.after) none none h rfl rfl rfl

theorem throw {e e' : SyntaxError} (h : Beside S l L c c') : Tracks S l L.stack M v
    (throwThe SyntaxError e : Parser α) (throwThe SyntaxError e') c c' where
  ok _ _ ha := by cases ha
  error x c₁ hx := by
    cases hx
    exact h.imp_left fun h => ⟨_, _, rfl, h.fenced.sound.refl, h.sound'.refl, [], [], rfl, rfl, h.ahead⟩

theorem fail {w w' : Wanted} (h : Beside S l L c c') :
    Tracks S l L.stack M v (Parser.fail w) (Parser.fail w') c c' := (throw h).of_eq rfl rfl

theorem fail_bind {w w' : Wanted} (h : Beside S l L c c') :
    Tracks S l L.stack N u (Parser.fail w >>= f) (Parser.fail w' >>= f') c c' := (throw h).of_eq rfl rfl

/-- Behind an answer of the first parser. -/
theorem bind_of (h : Tracks S l ss M v p p' c c') (hf : ∀ a a' c₁ c₁', p c = .ok a c₁ → v a' = v a → Beside S l (M a) c₁ c₁' →
      Tracks S l (M a).stack N u (f a) (f' a') c₁ c₁') :
    Tracks S l ss N u (p >>= f) (p' >>= f') c c' := by
  cases hp : p c with
  | error e c₁ =>
    refine ⟨fun b c₂ hb => ?_, fun x c₂ hx => ?_⟩
    · rw [bind_of_error hp] at hb
      cases hb
    · rw [bind_of_error hp] at hx
      cases hx
      refine (h.error e c₁ hp).imp_left ?_
      rintro ⟨e', c₁', he', hhalted⟩
      exact ⟨e', c₁', bind_of_error he', hhalted⟩
  | ok a c₁ =>
    rcases h.ok a c₁ hp with ⟨a', c₁', ha', hv, htogether, htwins⟩ | hpast
    · exact step (.inl htogether) (bind_of_ok hp) (bind_of_ok ha') (hf a a' c₁ c₁' hp hv (.inl htwins))
    · refine of_past ?_
      rw [after, bind_of_ok hp]
      exact (hf a a c₁ c' hp rfl (.inr hpast)).past hpast

theorem bind (h : Tracks S l ss M v p p' c c') (hf : ∀ a a' c₁ c₁', v a' = v a → Beside S l (M a) c₁ c₁' →
      Tracks S l (M a).stack N u (f a) (f' a') c₁ c₁') :
    Tracks S l ss N u (p >>= f) (p' >>= f') c c' := bind_of h fun a a' c₁ c₁' _ => hf a a' c₁ c₁'

theorem ite {b b' : Bool} (h : Beside S l L c c') (hb : c.Twins S L c' → b' = b)
    (hp : b = true → Tracks S l ss M v p p' c c') (hq : b = false → Tracks S l ss M v q q' c c') :
    Tracks S l ss M v (if b then p else q) (if b' then p' else q') c c' := by
  rcases h with h | hpast
  · rw [hb h]
    cases b with
    | true => exact hp rfl
    | false => exact hq rfl
  · cases b with
    | true => exact of_past ((hp rfl).past hpast)
    | false => exact of_past ((hq rfl).past hpast)

/-- A loop ends where the second parser gives no item either. -/
theorem leave {p p' : Parser (Option α)} (h : Beside S l L c c') (hp : p c = .ok none c)
    (hp' : c.Twins S L c' → p' c' = .ok none c') : Tracks S l L.stack L.after Option.isSome p p' c c' := by
  rcases h with h | hpast
  · exact stay (M := L.after) none none (.inl h) rfl hp (hp' h)
  · exact of_past (by rwa [after, hp])

section Tokens

variable {x : Token}

theorem past_advance (h : l ∧ Past S c) : l ∧ Past S (c.advance 1) :=
  ⟨h.1, h.2.of_suffix (List.suffix_append _ _)⟩

theorem keep {t t' : Token} {g g' : Text → α} (h : Beside S l L c c') :
    Keeps S l L L (Parser.sliceFrom t >>= fun s => Pure.pure (g s))
      (Parser.sliceFrom t' >>= fun s => Pure.pure (g' s)) c c' := stay (M := fun _ => L) _ _ h rfl rfl rfl

theorem keep_some {t t' : Token} {g g' : Text → α} (h : Beside S l L.next c c') :
    Tracks S l L.next.stack L.after Option.isSome (Parser.sliceFrom t >>= fun s => Pure.pure (some (g s)))
      (Parser.sliceFrom t' >>= fun s => Pure.pure (some (g' s))) c c' :=
  stay (M := L.after) (some (g (c.sliceFrom t))) (some (g' (c'.sliceFrom t'))) h rfl rfl rfl

theorem sliceFrom {t t' : Token} (h : Beside S l L c c') :
    Keeps S l L L (Parser.sliceFrom t) (Parser.sliceFrom t') c c' := stay (M := fun _ => L) _ _ h rfl rfl rfl

theorem consume_bind (h : Beside S l L c c') (hl : L.Loose S → l)
    (hp : c.peek.isOpener = false ∧ c.peek.isCloser = false) {f f' : Token → Parser β}
    (hf : Beside S l L.next (c.advance 1) (c'.advance 1) →
      Tracks S l L.next.stack N u (f c.peek) (f' c'.peek) (c.advance 1) (c'.advance 1)) :
    Tracks S l L.stack N u (consume >>= f) (consume >>= f') c c' :=
  step (h.plain hl hp).2 rfl rfl (hf (h.plain hl hp).1)

theorem skip_bind (h : Beside S l L c c') (hl : L.Loose S → l)
    (hp : c.peek.isOpener = false ∧ c.peek.isCloser = false) {f f' : Unit → Parser β}
    (hf : Beside S l L.next (c.advance 1) (c'.advance 1) →
      Tracks S l L.next.stack N u (f ()) (f' ()) (c.advance 1) (c'.advance 1)) :
    Tracks S l L.stack N u (skip 1 >>= f) (skip 1 >>= f') c c' :=
  step (h.plain hl hp).2 rfl rfl (hf (h.plain hl hp).1)

theorem skip (h : Beside S l L c c') (hl : L.Loose S → l)
    (hp : c.peek.isOpener = false ∧ c.peek.isCloser = false) :
    Keeps S l L L.next (Parser.skip 1) (Parser.skip 1) c c' :=
  step (h.plain hl hp).2 rfl rfl (pure (h.plain hl hp).1)

/-- Two tokens, none of them a bracket. -/
theorem skip_two_bind (h : Beside S l L c c') (hl : L.Loose S → l)
    (hp : c.peek.isOpener = false ∧ c.peek.isCloser = false)
    (hp' : (c.peek 1).isOpener = false ∧ (c.peek 1).isCloser = false) {f f' : Unit → Parser β}
    (hf : Beside S l L.next (c.advance 2) (c'.advance 2) →
      Tracks S l L.next.stack N u (f ()) (f' ()) (c.advance 2) (c'.advance 2)) :
    Tracks S l L.stack N u (Parser.skip 2 >>= f) (Parser.skip 2 >>= f') c c' := by
  rw [Cursor.advance_add c 1 1, Cursor.advance_add c' 1 1] at hf
  have htwo : Tracks S l L.stack N u (Parser.skip 1 >>= fun _ => Parser.skip 1 >>= f)
      (Parser.skip 1 >>= fun _ => Parser.skip 1 >>= f') c c' :=
    skip_bind h hl hp fun h₁ => skip_bind h₁ hl (by rwa [Cursor.peek_advance]) fun h₂ => hf h₂.prior
  exact htwo.of_eq (congrArg (f ()) (Cursor.advance_add c 1 1)) (congrArg (f' ()) (Cursor.advance_add c' 1 1))

/-- An opening mark is taken. -/
theorem open_bind (h : Beside S l L c c') (hl : L.Loose S → c.peek = S.last → l) (ho : c.peek.isOpener = true) {f f' : Token → Parser β}
    (hf : ∀ x : Token, x.isCloser = true → x.text = c.peek.closing →
      Beside S l (L.push x) (c.advance 1) (c'.advance 1) →
      Tracks S l (L.push x).stack N u (f c.peek) (f' c'.peek) (c.advance 1) (c'.advance 1)) :
    Tracks S l L.stack N u (consume >>= f) (consume >>= f') c c' := by
  obtain ⟨x, hx, htext, h₁, hm⟩ := h.opener hl ho
  exact step hm rfl rfl (hf x hx htext h₁)

/-- The closing mark that is to come is taken. -/
theorem close_bind (h : Beside S l (L.push x) c c') (hc : c.peek.isCloser = true) {f f' : Unit → Parser β}
    (hf : Beside S l L.next (c.advance 1) (c'.advance 1) →
      Tracks S l L.next.stack N u (f ()) (f' ()) (c.advance 1) (c'.advance 1)) :
    Tracks S l (L.push x).stack N u (Parser.skip 1 >>= f) (Parser.skip 1 >>= f') c c' :=
  step (h.closer hc).2 rfl rfl (hf (h.closer hc).1)

/-- A token that is no bracket is taken, and the closing mark that is to come. -/
theorem skip_close_bind (h : Beside S l (L.push x) c c') (hp : c.peek.isOpener = false ∧ c.peek.isCloser = false)
    (hc : (c.peek 1).isCloser = true) {f f' : Unit → Parser β}
    (hf : Beside S l L.next (c.advance 2) (c'.advance 2) →
      Tracks S l L.next.stack N u (f ()) (f' ()) (c.advance 2) (c'.advance 2)) :
    Tracks S l (L.push x).stack N u (Parser.skip 2 >>= f) (Parser.skip 2 >>= f') c c' := by
  rw [Cursor.advance_add c 1 1, Cursor.advance_add c' 1 1] at hf
  have htwo : Tracks S l (L.push x).stack N u (Parser.skip 1 >>= fun _ => Parser.skip 1 >>= f)
      (Parser.skip 1 >>= fun _ => Parser.skip 1 >>= f') c c' :=
    skip_bind h (fun hL => absurd hL Stage.push_not_loose) hp fun h₁ => close_bind (x := x) (L := L) h₁.prior
      (by rwa [Cursor.peek_advance]) hf
  exact htwo.of_eq (congrArg (f ()) (Cursor.advance_add c 1 1)) (congrArg (f' ()) (Cursor.advance_add c' 1 1))

/-- A text is asked for, and what it stands for is taken. -/
theorem expect_bind (h : Beside S l L c c') {m : Text} {f f' : Token → Parser β}
    (hf : c.peek.reads m = true → Tracks S l L.stack N u (consume >>= f) (consume >>= f') c c') :
    Tracks S l L.stack N u (expect m >>= f) (expect m >>= f') c c' := by
  have heq : ∀ (d : Cursor) (k : Token → Parser β), (expect m >>= k) d = (if d.peek.reads m then consume >>= k else
      throwThe SyntaxError (.locate (.unexpectedToken m d.peek.kind d.peek.text) d.peek) >>= k) d := by
    intro d k
    rw [expect, ← apply_ite (· >>= _)]
    rfl
  refine of_eq ?_ (heq c f) (heq c' f')
  exact ite h (fun h => h.peek.reads m) hf fun _ => (throw h).of_eq rfl rfl

/-- A symbol is asked for that is no bracket. -/
theorem expect_plain_bind (h : Beside S l L c c') (hl : L.Loose S → l) {m : Char}
    (hm : isSymbolChar m = true) (hb : m ∉ ['(', ')', '[', ']', '\x7b', '\x7d']) {f f' : Token → Parser β}
    (hf : Beside S l L.next (c.advance 1) (c'.advance 1) →
      Tracks S l L.next.stack N u (f c.peek) (f' c'.peek) (c.advance 1) (c'.advance 1)) :
    Tracks S l L.stack N u (expect [m] >>= f) (expect [m] >>= f') c c' := by
  refine expect_bind h fun hr => ?_
  rcases h with h | hpast
  · refine consume_bind (.inl h) hl ?_ hf
    have hk := h.fenced.sound.kind_of_reads hm hr
    simp only [Token.reads, Bool.and_eq_true, beq_iff_eq] at hr
    simp only [List.mem_cons, List.not_mem_nil, or_false, not_or] at hb
    simp [Token.isOpener, Token.isCloser, Token.isSymbolIn, hk, hr.1.1, hb]
  · exact past_step (past_advance hpast) rfl (hf (.inr (past_advance hpast)))

/-- An opening mark is asked for. -/
theorem expect_open_bind (h : Beside S l L c c') (hl : L.Loose S → c.peek = S.last → l) {m : Char} (hm : m ∈ ['(', '[', '\x7b'])
    {f f' : Token → Parser β} (hf : ∀ x : Token, x.isCloser = true → c.peek.text = [m] → x.text = c.peek.closing →
      Beside S l (L.push x) (c.advance 1) (c'.advance 1) →
      Tracks S l (L.push x).stack N u (f c.peek) (f' c'.peek) (c.advance 1) (c'.advance 1)) :
    Tracks S l L.stack N u (expect [m] >>= f) (expect [m] >>= f') c c' := by
  refine expect_bind h fun hr => ?_
  have htext : c.peek.text = [m] := by
    simp only [Token.reads, Bool.and_eq_true, beq_iff_eq] at hr
    exact hr.1.1
  rcases h with h | hpast
  · exact open_bind (.inl h) hl (h.fenced.isOpener_of_reads hm hr).1 fun x hx => hf x hx htext
  · obtain ⟨x, hx, hclosing⟩ := c.peek.exists_closing
    exact past_step (past_advance hpast) rfl (hf x hx htext hclosing (.inr (past_advance hpast)))

/-- The closing mark that is to come is asked for. -/
theorem expect_close_bind (h : Beside S l (L.push x) c c') {m : Char} (hm : m ∈ [')', ']', '\x7d'])
    {f f' : Token → Parser β} (hf : Beside S l L.next (c.advance 1) (c'.advance 1) →
      Tracks S l L.next.stack N u (f c.peek) (f' c'.peek) (c.advance 1) (c'.advance 1)) :
    Tracks S l (L.push x).stack N u (expect [m] >>= f) (expect [m] >>= f') c c' := by
  refine expect_bind h fun hr => ?_
  rcases h with h | hpast
  · obtain ⟨h₁, hm⟩ := Beside.closer (l := l) (.inl h) (h.fenced.isCloser_of_reads hm hr)
    exact step hm rfl rfl (hf h₁)
  · exact past_step (past_advance hpast) rfl (hf (.inr (past_advance hpast)))

/-- A mark is split off an operator and taken. -/
theorem consumePart_bind (h : Beside S l L c c') (hl : L.Loose S → l) (hk : c.peek.kind = .operator)
    (hm : c.Sound → ∃ m, c.peek.text.head? = some m ∧ isMarkChar m = true) {f f' : Token → Parser β}
    (hf : ∀ t t' (c₁ c₁' : Cursor), Beside S l L.next c₁ c₁' → Tracks S l L.next.stack N u (f t) (f' t') c₁ c₁') :
    Tracks S l L.stack N u (consumePart 1 >>= f) (consumePart 1 >>= f') c c' := by
  rcases h with h | hpast
  · obtain ⟨m, hm, hmark⟩ := hm h.fenced.sound
    have hkind := (h.fenced.sound.peek_splitOperator hk hm).2.1
    have hl₁ := h.fenced.sound.splitOperator fun d hd => by
      obtain rfl : m = d := by simpa [hm] using hd
      exact hmark
    have h₁ := h.split hk hm hmark
    have htogether : Together S L.stack L.stack c c' (c.splitOperator 1) (c'.splitOperator 1) := by
      refine ⟨hl₁, h.sound'.splitOperator fun d hd => ?_, [], [], c.behind_splitOperator 1,
        c'.behind_splitOperator 1, fun _ _ h => h⟩
      rw [h.peek.text (by simp [hk]), hm] at hd
      obtain rfl : m = d := by simpa using hd
      exact hmark
    exact step (.inl htogether) rfl rfl (consume_bind (.inl h₁) hl (Token.not_bracket_of_kind (by simp [hkind]))
      fun h₂ => hf _ _ _ _ h₂)
  · have hpast' : l ∧ Past S ((c.splitOperator 1).advance 1) :=
      ⟨hpast.1, hpast.2.of_suffix (by rw [← c.behind_splitOperator 1]; exact List.suffix_append _ _)⟩
    exact past_step hpast' rfl (hf _ c.peek _ c' (.inr hpast'))

/-- Taking a mark from the front of an operator. -/
theorem consumeOperator_bind (h : Beside S l L c c') (hl : L.Loose S → l) {m : Char} (hmark : isMarkChar m = true)
    {f f' : Token → Parser β} (hf : ∀ t t' (c₁ c₁' : Cursor), Beside S l L.next c₁ c₁' →
      Tracks S l L.next.stack N u (f t) (f' t') c₁ c₁') :
    Tracks S l L.stack N u (consumeOperator (String.singleton m) >>= f)
      (consumeOperator (String.singleton m) >>= f') c c' := by
  have heq : ∀ (d : Cursor) (k : Token → Parser β), (consumeOperator (String.singleton m) >>= k) d =
      (if d.peek.isOperatorWith (String.singleton m) then consumePart 1 >>= k else
        Parser.fail (.mark (String.singleton m).toList) >>= k) d := by
    intro d k
    rw [consumeOperator, ← apply_ite (· >>= _), String.length_singleton]
    rfl
  refine of_eq ?_ (heq c f) (heq c' f')
  refine ite h (fun h => h.peek.isOperatorWith _) (fun hop => ?_) fun _ => fail_bind h
  simp only [Token.isOperatorWith, Bool.and_eq_true, beq_iff_eq, String.toList_singleton,
    List.isPrefixOf_iff_prefix] at hop
  obtain ⟨hk, y, hy⟩ := hop
  exact consumePart_bind h hl hk (fun _ => ⟨m, by rw [← hy]; rfl, hmark⟩) hf

/-- Passing over brackets takes the one that opens them. -/
theorem past_skipBalanced (hahead : c.ahead = c.peek :: (c.advance 1).ahead) (ho : c.peek.isOpener = true)
    (h : Past S (c.advance 1)) : Past S (after Parser.skipBalanced c) := by
  have hmore : ∀ n, Past S (c.advance (n + 1)) := fun n => by
    rw [Nat.add_comm, Cursor.advance_add]
    exact h.of_suffix (List.suffix_append _ _)
  rw [after, Parser.skipBalanced, run_get_bind]
  cases hn : balancedLength? 0 c.ahead with
  | some n =>
    rw [hahead, balancedLength?, if_pos ho] at hn
    obtain ⟨m, -, rfl⟩ := Option.map_eq_some_iff.mp hn
    exact hmore m
  | none =>
    rw [hahead]
    exact hmore (c.advance 1).ahead.length

/-- A group of brackets is passed over. -/
theorem skipBalanced (h : Beside S l L c c') (hl : L.Loose S → l) (ho : c.Twins S L c' → c.peek.isOpener = true) :
    Keeps S l L L.next skipBalanced skipBalanced c c' := by
  rcases h with h | hpast
  · obtain ⟨c₁, c₁', hc₁, hc₁', htogether, h₁⟩ | ⟨hloose, hlast⟩ := h.skipBalanced (ho h)
    · exact step (.inl htogether) (hc₁.trans rfl) (hc₁'.trans rfl) (pure (.inl h₁))
    · exact of_past ⟨hl hloose, past_skipBalanced h.ahead_eq.1 (ho h) (h.past_of_last hlast)⟩
  · exact of_forward .skipBalanced hpast

end Tokens

/-- Where the last token in common cannot be passed, an attempt that fails goes back on both sides. The
token at the cursor stays then, unless it is an operator. -/
theorem attempt_bind (h : Beside S l L c c') (hp : Forward p)
    (ht : c.Twins S L c' → Tracks S False L.stack M v p p' c c') {f f' : Option α → Parser β}
    (hsome : ∀ a a' c₁ c₁', v a' = v a → Beside S l (M a) c₁ c₁' →
      Tracks S l (M a).stack N u (f (some a)) (f' (some a')) c₁ c₁')
    (hnone : ∀ c₁ c₁', Beside S l L c₁ c₁' → (c₁.Twins S L c₁' → c.peek.kind ≠ .operator → c₁.peek = c.peek) →
      Tracks S l L.stack N u (f none) (f' none) c₁ c₁') :
    Tracks S l L.stack N u (attempt p >>= f) (attempt p' >>= f') c c' := by
  rcases h with h | hpast
  · cases hc : p c with
    | ok a c₁ =>
      rcases (ht h).ok a c₁ hc with ⟨a', c₁', hc', hv, htogether, h₁⟩ | hpast
      · exact step (.inl htogether) (bind_of_ok (attempt_eq_some.mpr hc)) (bind_of_ok (attempt_eq_some.mpr hc'))
          (hsome a a' c₁ c₁' hv (.inl h₁))
      · exact hpast.1.elim
    | error e c₂ =>
      rcases (ht h).error e c₂ hc with ⟨e', c₂', hc', hhalted⟩ | hpast
      · obtain ⟨hleads, hbehind⟩ := hhalted.leads.rewind
        obtain ⟨hleads', hbehind'⟩ := hhalted.leads'.rewind
        have hm : Together S L.stack L.stack c c' _ _ := ⟨hleads, hleads', [], [], hbehind, hbehind', fun _ _ h => h⟩
        exact step (.inl hm) (bind_of_ok (attempt_eq_none.mpr ⟨e, c₂, hc, rfl⟩))
          (bind_of_ok (attempt_eq_none.mpr ⟨e', c₂', hc', rfl⟩)) (hnone _ _ (.inl (h.rewind hhalted)) fun _ hk =>
            hleads.peek_eq hbehind (.inl hk))
      · exact hpast.1.elim
  · obtain ⟨ts, hts, -⟩ := (hp.attempt c).taken
    refine of_past (past_bind ⟨hpast.1, hpast.2.of_suffix ⟨ts.reverse, hts.symm⟩⟩ fun o c₁ h₁ => ?_)
    cases o with
    | some a => exact (hsome a a c₁ c' rfl (.inr h₁)).past h₁
    | none => exact (hnone c₁ c' (.inr h₁) fun h₂ => absurd h₁.2 h₂.not_past).past h₁

/-- Where the last token in common opens a bracket, an attempt that succeeds has passed it, and one that fails
goes back in front of it. -/
theorem attempt_last_bind (h : c.Twins S L c') (hlast : c.peek = S.last) (ho : c.peek.isOpener = true) (hp : Forward p)
    {f f' : Option α → Parser β} (hsome : ∀ a c₁, p c = .ok a c₁ → l ∧ Past S (after (f (some a)) c₁))
    (hnone : ∀ c₁ : Cursor, c₁.ahead = c₁.peek :: (c₁.advance 1).ahead → c₁.peek.isOpener = true →
      Past S (c₁.advance 1) → l ∧ Past S (after (f none) c₁)) :
    Tracks S l ss N u (attempt p >>= f) (attempt p' >>= f') c c' := by
  refine of_past ?_
  cases hc : p c with
  | ok a c₁ =>
    rw [after, bind_of_ok (attempt_eq_some.mpr hc)]
    exact hsome a c₁ hc
  | error e c₂ =>
    rw [after, bind_of_ok (attempt_eq_none.mpr ⟨e, c₂, hc, rfl⟩)]
    have honward : c.Onward c₂ := by simpa [after, hc] using hp c
    obtain ⟨hback, hbehind⟩ := honward.rewind
    obtain ⟨ts, hts, hsplits⟩ := hback.taken
    obtain rfl : ts = [] := by simpa [hbehind] using hts
    rw [h.ahead_eq.1] at hsplits
    have hkind : c.peek.kind ≠ .operator := fun hk => by
      simp [Token.not_bracket_of_kind (t := c.peek) (by simp [hk])] at ho
    obtain ⟨us, hus⟩ : ∃ us, (c₂.rewind c.position).ahead = c.peek :: us := by
      cases ha : (c₂.rewind c.position).ahead with
      | nil => simpa [ha] using hsplits.head_eq hkind
      | cons t us => exact ⟨us, by simpa [ha] using hsplits.head_eq hkind⟩
    have hpeek : (c₂.rewind c.position).peek = c.peek := by simp [Cursor.peek, hus]
    refine hnone _ (by simp [hpeek, Cursor.advance, hus]) (hpeek ▸ ho) ?_
    simp [Past, Cursor.advance, hus, hlast]

section Loops

/-- The bounds behind a parser can be wider. -/
theorem ease {L₁ L₂ : Stage} (h : Tracks S l ss (fun _ => L₁) v p p' c c') (hL : L₁.Within L₂) :
    Tracks S l ss (fun _ => L₂) v p p' c c' where
  ok a c₁ ha := (h.ok a c₁ ha).imp_left fun ⟨a', c₁', ha', hv, htogether, h₁⟩ =>
    ⟨a', c₁', ha', hv, hL.stack_eq ▸ htogether, h₁.within hL⟩
  error := h.error

theorem past_collectWithin {item : Parser (Option α)}
    (hp : ∀ c : Cursor, l ∧ Past S c → l ∧ Past S (after item c)) (n : Nat) {c : Cursor}
    (h : l ∧ Past S c) : l ∧ Past S (after (Parser.collectWithin item n) c) := by
  induction n generalizing c with
  | zero => exact h
  | succ n ih =>
    refine past_bind (hp c h) fun o c₁ h₁ => ?_
    cases o with
    | none => exact h₁
    | some a => exact past_bind (ih h₁) fun _ _ h₂ => h₂

/-- Rounds that each take a token have room on both sides. -/
theorem collectWithin {item item' : Parser (Option α)} {L₁ : Stage} (hL : L₁.Within L)
    (hi : ∀ (L₁ : Stage) (c c' : Cursor), L₁.Within L → Beside S l L₁ c c' →
      Tracks S l L₁.stack L₁.after Option.isSome item item' c c')
    {m m' : Nat} (hm : L₁.fuel ≤ m) (hm' : L₁.fuel' ≤ m') (h : Beside S l L₁ c c') :
    Keeps S l L₁ L (collectWithin item m) (collectWithin item' m') c c' := by
  induction m generalizing m' L₁ c c' with
  | zero =>
    rcases h with h | hpast
    · exact absurd (h.room.trans_le hm) (Nat.not_lt_zero _)
    · exact of_forward .stall hpast
  | succ m ih =>
    rcases h with h | hpast
    · obtain ⟨m', rfl⟩ := Nat.exists_eq_add_one_of_ne_zero (Nat.ne_zero_of_lt (h.room'.trans_le hm'))
      refine bind (hi L₁ c c' hL (.inl h)) fun o o' c₁ c₁' ho h₁ => ?_
      match o, o', ho with
      | none, none, _ =>
        rw [show (L₁.after (none : Option α)).stack = L.stack from hL.stack_eq]
        exact pure (h₁.within hL)
      | some a, some a', _ =>
        exact bind (M := fun _ => L) (v := fun _ => ()) (ih (L₁.next_within.trans hL) (Nat.sub_le_of_le_add hm)
          (Nat.sub_le_of_le_add hm') h₁) fun _ _ _ _ _ h₂ => pure h₂
    · exact of_past (past_collectWithin (fun c hc => (hi L c c (.refl L) (.inr hc)).past hc) _ hpast)

theorem collect {item item' : Parser (Option α)} (h : Beside S l L c c')
    (hi : ∀ (L₁ : Stage) (c c' : Cursor), L₁.Within L → Beside S l L₁ c c' →
      Tracks S l L₁.stack L₁.after Option.isSome item item' c c') :
    Keeps S l L L (collect item) (collect item') c c' := by
  rcases h with h | hpast
  · exact get_bind (collectWithin h.tight_within hi le_rfl le_rfl (.inl h.tight))
  · exact get_bind (of_past (past_collectWithin (fun c hc => (hi L c c (.refl L) (.inr hc)).past hc) _ hpast))

variable {more : Cursor → Bool} {item item' : Parser α}

theorem collectWhile_item {L₁ : Stage} (h : Beside S l L₁ c c') (hm : c.Twins S L₁ c' → more c' = more c)
    (hi : more c = true → Keeps S l L₁ L₁.next item item' c c') : Tracks S l L₁.stack L₁.after Option.isSome
      (get >>= fun c => if more c then item >>= fun a => Pure.pure (some a) else Pure.pure none)
      (get >>= fun c => if more c then item' >>= fun a => Pure.pure (some a) else Pure.pure none) c c' :=
  get_bind (ite h hm (fun hmore => bind (hi hmore) fun _ _ _ _ _ h₁ => pure_some h₁) fun _ => pure_none h)

theorem collectWhile (h : Beside S l L c c')
    (hm : ∀ (L₁ : Stage) (c c' : Cursor), L₁.Within L → c.Twins S L₁ c' → more c' = more c)
    (hi : ∀ (L₁ : Stage) (c c' : Cursor), L₁.Within L → more c = true → Beside S l L₁ c c' →
      Keeps S l L₁ L₁.next item item' c c') :
    Keeps S l L L (collectWhile more item) (collectWhile more item') c c' :=
  collect h fun L₁ c c' hL h => collectWhile_item h (hm L₁ c c' hL) fun hmore => hi L₁ c c' hL hmore h

/-- There is an item to read. -/
theorem collectWhile_next (h : Beside S l L c c') (hmore : more c = true)
    (hm : ∀ (L₁ : Stage) (c c' : Cursor), L₁.Within L → c.Twins S L₁ c' → more c' = more c)
    (hi : ∀ (L₁ : Stage) (c c' : Cursor), L₁.Within L → more c = true → Beside S l L₁ c c' →
      Keeps S l L₁ L₁.next item item' c c') :
    Keeps S l L L.next (Parser.collectWhile more item) (Parser.collectWhile more item') c c' := by
  have hround := fun (L₁ : Stage) (c c' : Cursor) (hL : L₁.Within L) (h : Beside S l L₁ c c') =>
    collectWhile_item h (hm L₁ c c' hL) fun hmore => hi L₁ c c' hL hmore h
  rcases h with h | hpast
  · have hfirst : ∀ {q : Parser α} {d : Cursor}, more d = true → Parser.collectWhile more q d = (q >>= fun a =>
        Parser.collectWithin (get >>= fun c => if more c then q >>= fun a => Pure.pure (some a) else Pure.pure none)
          d.room >>= fun as => Pure.pure (a :: as)) d := by
      intro q d hd
      show Parser.collectWithin _ (d.room + 1) d = _
      rw [Parser.collectWithin]
      have hitem : (get >>= fun c => if more c then q >>= fun a => Pure.pure (some a) else Pure.pure none) d =
          (q >>= fun a => Pure.pure (some a)) d := by
        show (if more d = true then q >>= fun a => Pure.pure (some a) else Pure.pure none) d = _
        rw [if_pos hd]
      cases hq : q d with
      | ok a d' => rw [bind_of_ok hq, bind_of_ok (hitem.trans (bind_of_ok hq))]
      | error e d' => rw [bind_of_error hq, bind_of_error (hitem.trans (bind_of_error hq))]
    have hstart := hi _ c c' h.tight_within hmore (.inl h.tight)
    exact of_eq (bind hstart fun a a' c₁ c₁' _ h₁ => bind (M := fun _ => L.next) (v := fun _ => ())
      (collectWithin h.tight_within.next (fun L₁ c c' hL => hround L₁ c c' (hL.trans L.next_within)) le_rfl le_rfl h₁)
      fun _ _ _ _ _ h₂ => pure h₂) (hfirst hmore) (hfirst ((hm L c c' (.refl L) h).trans hmore))
  · exact get_bind (of_past (past_collectWithin (fun c hc => (hround L c c (.refl L) (.inr hc)).past hc) _ hpast))

theorem past_extendWithin {step : σ → Parser (Option σ)}
    (hp : ∀ s (c : Cursor), l ∧ Past S c → l ∧ Past S (after (step s) c)) (n : Nat) (s : σ) {c : Cursor}
    (h : l ∧ Past S c) : l ∧ Past S (after (extendWithin step n s) c) := by
  induction n generalizing s c with
  | zero => exact h
  | succ n ih =>
    refine past_bind (hp s c h) fun o c₁ h₁ => ?_
    cases o with
    | none => exact h₁
    | some s₁ => exact ih s₁ h₁

/-- Steps that each take a token have room on both sides. They can depend on what they keep of the first
source. -/
theorem extendWithin {step step' : σ → Parser (Option σ)} {I : Cursor → Prop} {L₁ : Stage} (hL : L₁.Within L)
    (hi : ∀ s s' (L₁ : Stage) (c c' : Cursor), L₁.Within L → (c.Twins S L₁ c' → I c) → Beside S l L₁ c c' →
      Tracks S l L₁.stack L₁.after Option.isSome (step s) (step' s') c c')
    (hI : ∀ s (c : Cursor) s₁ c₁, c.Fenced L.marks → I c → step s c = .ok (some s₁) c₁ → I c₁)
    {m m' : Nat} (hm : L₁.fuel ≤ m) (hm' : L₁.fuel' ≤ m') {s s' : σ} (hc : I c) (h : c.Twins S L₁ c') :
    Keeps S l L₁ L (extendWithin step m s) (extendWithin step' m' s') c c' := by
  induction m generalizing m' L₁ s s' c c' with
  | zero => exact absurd (h.room.trans_le hm) (Nat.not_lt_zero _)
  | succ m ih =>
    obtain ⟨m', rfl⟩ := Nat.exists_eq_add_one_of_ne_zero (Nat.ne_zero_of_lt (h.room'.trans_le hm'))
    refine bind_of (hi s s' L₁ c c' hL (fun _ => hc) (.inl h)) fun o o' c₁ c₁' ho hv h₁ => ?_
    match o, o', ho, hv with
    | none, none, _, _ =>
      rw [show (L₁.after (none : Option σ)).stack = L.stack from hL.stack_eq]
      exact pure (h₁.within hL)
    | some t, some t', ho, _ =>
      rcases h₁ with h₁ | hpast
      · have hmarks : L₁.marks = L.marks := by rw [Stage.marks, Stage.marks, hL.mark, hL.outer]
        exact ih (L₁.next_within.trans hL) (Nat.sub_le_of_le_add hm) (Nat.sub_le_of_le_add hm')
          (hI s c t c₁ (hmarks ▸ h.fenced) hc ho) h₁
      · exact of_past (past_extendWithin (fun s c hc => (hi s s L c c (.refl L) (fun h => absurd hc.2 h.not_past)
          (.inr hc)).past hc) m t hpast)

theorem extend {step step' : σ → Parser (Option σ)} {s s' : σ} (h : Beside S l L c c')
    (hi : ∀ s s' (L₁ : Stage) (c c' : Cursor), L₁.Within L → Beside S l L₁ c c' →
      Tracks S l L₁.stack L₁.after Option.isSome (step s) (step' s') c c') :
    Keeps S l L L (extend step s) (extend step' s') c c' := by
  rcases h with h | hpast
  · exact get_bind (extendWithin (I := fun _ => True) h.tight_within (fun s s' L₁ c c' hL _ => hi s s' L₁ c c' hL)
      (fun _ _ _ _ _ _ _ => trivial) le_rfl le_rfl trivial h.tight)
  · exact get_bind (of_past (past_extendWithin (fun s c hc => (hi s s L c c (.refl L) (.inr hc)).past hc) _ _ hpast))

/-- The items between two brackets, the opening one being taken. -/
theorem bracketedItems {last : String} {separator : Wanted} {item item' : Parser α} (h : Beside S l L c c')
    (hloose : ¬ L.Loose S) (hi : ∀ (L₁ : Stage) (c c' : Cursor), L₁.Within L → Beside S l L₁ c c' →
      Keeps S l L₁ L₁.next item item' c c') :
    Keeps S l L L (Parser.bracketedItems last separator item) (Parser.bracketedItems last separator item') c c' := by
  refine collectWhile h (fun _ _ _ _ h₂ => by rw [h₂.peek.isSymbol]) fun L₁ c₂ c₂' hL _ h₂ =>
    bind (hi L₁ c₂ c₂' hL h₂) fun a a' c₃ c₃' _ h₃ => current_bind (ite h₃ (fun h₄ => h₄.peek.isSymbol _)
      (fun hcomma => ?_) fun _ => ite h₃ (fun h₄ => by rw [h₄.peek.isSymbol]) (fun _ => fail_bind h₃) fun _ => pure h₃)
  exact skip_bind h₃ (fun hL₁ => absurd (hL.loose hL₁) hloose)
    (Token.not_bracket_of_symbol hcomma (by decide)) fun h₄ => pure h₄.prior

/-- Items between two brackets. -/
theorem bracketed {o m : Char} (ho : o ∈ ['(', '[', '\x7b']) (hm : m ∈ [')', ']', '\x7d'])
    {separator : Wanted} {item item' : Parser α} (h : Beside S l L c c') (hl : L.Loose S → c.peek = S.last → l)
    (hi : ∀ (x : Token) (L₁ : Stage) (c c' : Cursor), L₁.Within (L.push x) → Beside S l L₁ c c' →
      Keeps S l L₁ L₁.next item item' c c') :
    Keeps S l L L.next (bracketed (String.singleton o) (String.singleton m) separator item)
      (bracketed (String.singleton o) (String.singleton m) separator item') c c' := by
  rw [bracketed_eq, bracketed_eq, String.toList_singleton, String.toList_singleton]
  exact expect_open_bind h hl ho fun x _ _ _ h₁ => bind (bracketedItems h₁ Stage.push_not_loose (hi x))
    fun _ _ _ _ _ h₂ => expect_close_bind h₂ hm fun h₃ => pure h₃

theorem separated {item item' : Parser α} (h : Beside S l L c c') (hl : L.Loose S → l)
    (hi : ∀ (L₁ : Stage) (c c' : Cursor), L₁.Within L → Beside S l L₁ c c' → Keeps S l L₁ L₁.next item item' c c') :
    Keeps S l L L.next (separated item) (separated item') c c' := by
  refine bind (hi L c c' (.refl L) h) fun a a' c₁ c₁' _ h₁ => bind (collectWhile h₁
    (fun _ _ _ _ h₂ => h₂.peek.isSymbol _) fun L₁ c₂ c₂' hL hcomma h₂ => ?_)
    fun _ _ _ _ _ h₂ => pure h₂
  have hwithin := hL.trans L.next_within
  exact skip_bind h₂ (fun hloose => hl (hwithin.loose hloose)) (Token.not_bracket_of_symbol hcomma (by decide))
    fun h₃ => (hi L₁.next _ _ (L₁.next_within.trans hwithin) h₃).ease L₁.next.next_within

end Loops

end Tracks

end Parser

end SwiftMacros
