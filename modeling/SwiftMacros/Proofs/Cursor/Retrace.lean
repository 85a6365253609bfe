import Mathlib
import SwiftMacros.Proofs.Cursor.Level

/-! Reading the same grains twice. What a parser asks of the token at a cursor is told by the grain
there, and what it keeps of the source by the grains it has taken; so two cursors with the same grains
ahead, in two sources, are read alike. Only the gap before the first grain is no part of what is kept. -/

namespace SwiftMacros

open Token (Word isMarkChar)

namespace Token

variable {T U : Token → Bool} {t u : Token}

/-- A word as a token that stands nowhere. -/
def ofWord (w : Word) : Token := ⟨w.1, w.2, 0, 0, 0, 0, false, false⟩

/-- What `T` asks of a token can be told without splitting it. -/
def Told (T : Token → Bool) : Prop := ∀ t, T t = T (ofWord t.view)

theorem Told.congr (h : Told T) (hv : t.view = u.view) : T t = T u := by rw [h t, h u, hv]

theorem view_fst (t : Token) : t.view.1 = t.kind := by
  unfold view
  split
  · next hk => split <;> exact hk.symm
  · rfl

theorem kind_of_view (h : u.view = t.view) : u.kind = t.kind := by rw [← view_fst, h, view_fst]

theorem view_of_kind (h : t.kind ≠ .operator) : t.view = t.word := if_neg h

/-- What can be told of an operator: its text, or the mark that it starts with. -/
theorem view_operator (hk : t.kind = .operator) : t.view = t.word ∨
    ∃ m x, isMarkChar m = true ∧ t.text = m :: x ∧ t.view = (.operator, [m]) := by
  cases ht : t.text with
  | nil => exact .inl (by simp [view, word, hk, ht])
  | cons m x =>
    by_cases hm : isMarkChar m = true
    · exact .inr ⟨m, x, hm, rfl, by simp [view, hk, ht, hm]⟩
    · exact .inl (by simp [view, word, hk, ht, hm])

theorem Told.or (h : Told T) (h' : Told U) : Told fun t => T t || U t := fun t => by
  simp only [h t, h' t]

theorem Told.not (h : Told T) : Told fun t => !T t := fun t => by simp only [h t]

theorem told_kind (f : Kind → Bool) : Told fun t => f t.kind := fun t =>
  congrArg f (view_fst t).symm

theorem text_of_view (h : u.view = t.view) (hk : t.kind ≠ .operator) : u.text = t.text := by
  have hk' : u.kind ≠ .operator := kind_of_view h ▸ hk
  rw [view_of_kind hk, view_of_kind hk'] at h
  exact congrArg Prod.snd h

/-- A text can be asked for if it starts with no mark. -/
theorem told_has {k : Kind} {x : String} (h : ∀ m ∈ x.toList.head?, k = .operator → isMarkChar m = false) :
    Told fun t => t.has k x := by
  intro t
  by_cases hk : t.kind = .operator
  · rcases view_operator hk with hv | ⟨m, y, hm, ht, hv⟩
    · rw [hv]
      rfl
    · have hnot : ∀ z, k = .operator → m :: z ≠ x.toList := fun z hop hz => by
        simp [h m (by simp [← hz]) hop] at hm
      rw [Bool.eq_iff_iff]
      simp only [has, ofWord, hv, hk, ht, Bool.and_eq_true, beq_iff_eq]
      exact ⟨fun hw => absurd hw.2 (hnot y hw.1.symm), fun hw => absurd hw.2 (hnot [] hw.1.symm)⟩
  · rw [view_of_kind hk]
    rfl

theorem told_isSymbol (x : String) : Told fun t => t.isSymbol x := told_has fun _ _ h => by cases h

theorem told_isSymbolIn (xs : List String) : Told fun t => t.isSymbolIn xs := by
  intro t
  by_cases hk : t.kind = .operator
  · have hkind := (view_fst t).trans hk
    simp only [isSymbolIn, ofWord, hkind, hk]
    rfl
  · rw [view_of_kind hk]
    rfl

theorem told_isIdentifierIn (xs : List String) : Told fun t => t.isIdentifierIn xs := by
  intro t
  by_cases hk : t.kind = .operator
  · have hkind := (view_fst t).trans hk
    simp only [isIdentifierIn, ofWord, hkind, hk]
    rfl
  · rw [view_of_kind hk]
    rfl

theorem told_isMark : Told isMark := by
  intro t
  by_cases hk : t.kind = .operator
  · rcases view_operator hk with hv | ⟨m, y, -, ht, hv⟩
    · rw [hv]
      rfl
    · simp [isMark, ofWord, hv, hk, ht]
  · rw [view_of_kind hk]
    rfl

theorem told_isOperatorWith (m : Char) : Told fun t => t.isOperatorWith (String.singleton m) := by
  intro t
  by_cases hk : t.kind = .operator
  · rcases view_operator hk with hv | ⟨m', y, -, ht, hv⟩
    · rw [hv]
      rfl
    · simp [isOperatorWith, ofWord, hv, hk, ht, List.isPrefixOf]
  · rw [view_of_kind hk]
    rfl

/-- An operator starts with a mark if it is what can be told of it. -/
theorem isOperatorWith_iff {m : Char} (hm : isMarkChar m = true) :
    t.isOperatorWith (String.singleton m) = true ↔ t.view = (.operator, [m]) := by
  have htold : t.isOperatorWith (String.singleton m) = _ := told_isOperatorWith m t
  rw [htold]
  constructor
  · intro h
    simp only [isOperatorWith, ofWord, Bool.and_eq_true, beq_iff_eq] at h
    have hk : t.kind = .operator := (view_fst t).symm.trans h.1
    rcases view_operator hk with hv | ⟨m', x, -, -, hv⟩
    · obtain ⟨y, hy⟩ := List.isPrefixOf_iff_prefix.mp h.2
      rw [hv, String.toList_singleton, List.singleton_append] at hy
      have ht : t.text = m :: y := hy.symm
      simp [view, hk, ht, hm]
    · have hpre := h.2
      rw [hv, String.toList_singleton, List.isPrefixOf_iff_prefix, List.singleton_prefix_cons_iff] at hpre
      rw [hv, hpre]
  · intro h
    rw [h]
    simp [isOperatorWith, ofWord]

theorem view_of_isMark (h : t.isMark = true) :
    ∃ m, isMarkChar m = true ∧ t.view = (.operator, [m]) ∧ (m = '?' ∨ m = '!') := by
  simp only [isMark, Bool.and_eq_true, Bool.or_eq_true, beq_iff_eq] at h
  obtain ⟨hk, hhead⟩ := h
  obtain ⟨m, hm, hmark⟩ : ∃ m, t.text.head? = some m ∧ (m = '?' ∨ m = '!') :=
    hhead.elim (fun h => ⟨_, h, .inl rfl⟩) fun h => ⟨_, h, .inr rfl⟩
  have hchar : isMarkChar m = true := by rcases hmark with rfl | rfl <;> rfl
  obtain ⟨x, hx⟩ := List.head?_eq_some_iff.mp hm
  exact ⟨m, hchar, by simp [view, hk, hx, hchar], hmark⟩

/-- A token that is taken as one grain, and would be wherever this grain stands. -/
structure Whole (t : Token) : Prop where
  ne_eof : t.kind ≠ .eof
  not_mark : ∀ m, isMarkChar m = true → t.view ≠ (.operator, [m])

theorem Whole.view (h : t.Whole) : t.view = t.word := view_eq_word h.not_mark

theorem whole_of_kind (h : t.kind ≠ .operator) (he : t.kind ≠ .eof) : t.Whole := by
  refine ⟨he, fun m _ hv => h ?_⟩
  rw [← view_fst, hv]

theorem whole_of_has {k : Kind} {x : String} (h : t.has k x = true) (hk : k ≠ .eof)
    (hm : ∀ m ∈ x.toList.head?, k = .operator → isMarkChar m = false) : t.Whole := by
  have hkind : t.kind = k := by
    simp only [has, Bool.and_eq_true, beq_iff_eq] at h
    exact h.1
  refine ⟨hkind ▸ hk, fun m hmark hv => ?_⟩
  have h := (told_has hm t).symm.trans h
  rw [hv] at h
  simp only [has, ofWord, Bool.and_eq_true, beq_iff_eq] at h
  simp [hm m (by simp [← h.2]) h.1.symm] at hmark

/-- A dot reads as such. -/
theorem Placed.text_of_dot {s : Text} (h : Placed s t) (hk : t.kind = .dot) : t.text = ['.'] := by
  have hl := h.lexeme_text (by simp [hk])
  rw [hk] at hl
  obtain ⟨f, hm, hf⟩ := lexeme_class hl rfl (by decide)
  obtain rfl : f = charLength? (· == '.') := by simpa [classes] using hm
  obtain ⟨c, x, hx⟩ := List.exists_cons_of_ne_nil h.text_ne_nil
  rw [hx] at hf ⊢
  simp only [List.cons_append, charLength?, beq_iff_eq, Option.ite_none_right_eq_some, Option.some.injEq,
    List.length_cons] at hf
  rw [hf.1, List.length_eq_zero_iff.mp (Nat.succ.inj hf.2).symm]

theorem reads_congr (h : u.word = t.word) {x : Text} : u.reads x = t.reads x := by
  simp only [word, Prod.mk.injEq] at h
  simp only [reads, h.1, h.2]

end Token

namespace Grain

variable {A B U V W V' W' Y : List Grain} {a b : Grain}

/-- What can be told of the first of some grains; that the source ends, if there is none. -/
def lead (A : List Grain) : Word := (A.head?.map word).getD (.eof, [])

@[simp] theorem lead_cons : lead (a :: A) = a.word := rfl

/-- Grains that differ at most in the gap before the first. -/
def Alike (W W' : List Grain) : Prop := W.map word = W'.map word ∧ W.tail = W'.tail

theorem Alike.refl (W : List Grain) : Alike W W := ⟨rfl, rfl⟩

theorem Alike.trans {U : List Grain} (h : Alike W V) (h' : Alike V U) : Alike W U :=
  ⟨h.1.trans h'.1, h.2.trans h'.2⟩

theorem alike_nil : Alike [] W ↔ W = [] := by
  refine ⟨fun h => ?_, fun h => h ▸ .refl _⟩
  simpa using h.1.symm

theorem alike_cons : Alike (a :: A) W ↔ ∃ b, W = b :: A ∧ a.word = b.word := by
  constructor
  · rintro ⟨hmap, htail⟩
    cases W with
    | nil => cases hmap
    | cons b B =>
      obtain rfl : A = B := htail
      exact ⟨b, rfl, (List.cons.inj hmap).1⟩
  · rintro ⟨b, rfl, hword⟩
    exact ⟨by simp [hword], rfl⟩

theorem Alike.length_eq (h : Alike W W') : W.length = W'.length := by
  simpa using congrArg List.length h.1

theorem Alike.bare (h : Alike W W') : bare W = bare W' := by
  cases W with
  | nil => rw [alike_nil.mp h]
  | cons a A =>
    obtain ⟨b, rfl, hword⟩ := alike_cons.mp h
    rw [Grain.bare, Grain.bare, show a.text = b.text from (Prod.mk.inj hword).2]

/-- The grains behind the first are the same. -/
theorem Alike.append (h : Alike V V') (hne : V ≠ []) (W : List Grain) : Alike (V ++ W) (V' ++ W) := by
  obtain ⟨a, A, rfl⟩ := List.exists_cons_of_ne_nil hne
  obtain ⟨b, rfl, hword⟩ := alike_cons.mp h
  exact alike_cons.mpr ⟨b, rfl, hword⟩

/-- Alike grains can be parted alike: behind a first part that is not empty, they are the same. -/
theorem Alike.of_append (h : Alike (V ++ W) U) (hne : V ≠ []) : ∃ V', U = V' ++ W ∧ Alike V V' := by
  obtain ⟨a, A, rfl⟩ := List.exists_cons_of_ne_nil hne
  obtain ⟨b, rfl, hword⟩ := alike_cons.mp h
  exact ⟨b :: A, rfl, alike_cons.mpr ⟨b, rfl, hword⟩⟩

theorem Alike.lead (h : Alike W W') (hne : W ≠ []) (Y : List Grain) : lead (W' ++ Y) = lead W := by
  obtain ⟨a, A, rfl⟩ := List.exists_cons_of_ne_nil hne
  obtain ⟨b, rfl, hword⟩ := alike_cons.mp h
  exact hword.symm

theorem lead_append (hne : W ≠ []) (Y : List Grain) : Grain.lead (W ++ Y) = Grain.lead W :=
  (Alike.refl W).lead hne Y

/-- The same grain is first, and what `S` asks for is behind it. -/
def Ahead (S : List Grain → List Grain → Prop) (A B : List Grain) : Prop :=
  ∃ a A' B', A = a :: A' ∧ B = a :: B' ∧ S A' B'

theorem Ahead.lead {S : List Grain → List Grain → Prop} (h : Ahead S A B) :
    Grain.lead B = Grain.lead A := by
  obtain ⟨a, A, B, rfl, rfl, -⟩ := h
  rfl

/-- The same word is first, whatever the gap before it, and what `S` asks for is behind it. -/
def Onward (S : List Grain → List Grain → Prop) (A B : List Grain) : Prop :=
  ∃ a b A' B', A = a :: A' ∧ B = b :: B' ∧ a.word = b.word ∧ S A' B'

theorem Onward.lead {S : List Grain → List Grain → Prop} (h : Onward S A B) :
    Grain.lead B = Grain.lead A := by
  obtain ⟨a, b, A, B, rfl, rfl, hword, -⟩ := h
  exact hword.symm

/-- Alike grains, at least one, with what `S` asks for behind them. -/
def Parted (S : List Grain → List Grain → Prop) (A B : List Grain) : Prop :=
  ∃ W W' A' B', W ≠ [] ∧ Alike W W' ∧ A = W ++ A' ∧ B = W' ++ B' ∧ S A' B'

theorem Parted.mono {S S' : List Grain → List Grain → Prop} (h : Parted S A B)
    (hS : ∀ A B, S A B → S' A B) : Parted S' A B := by
  obtain ⟨W, W', A', B', hne, halike, hA, hB, h⟩ := h
  exact ⟨W, W', A', B', hne, halike, hA, hB, hS _ _ h⟩

theorem Parted.onward {S : List Grain → List Grain → Prop} (h : Parted S A B) :
    Onward (fun A B => ∃ W A' B', A = W ++ A' ∧ B = W ++ B' ∧ S A' B') A B := by
  obtain ⟨W, W', A', B', hne, halike, rfl, rfl, hS⟩ := h
  obtain ⟨a, W, rfl⟩ := List.exists_cons_of_ne_nil hne
  obtain ⟨b, rfl, hword⟩ := alike_cons.mp halike
  exact ⟨a, b, _, _, rfl, rfl, hword, W, A', B', rfl, rfl, hS⟩

theorem Parted.lead {S : List Grain → List Grain → Prop} (h : Parted S A B) :
    Grain.lead B = Grain.lead A := h.onward.lead

/-- One of some words comes first in the second list. -/
def Front (ws : List Word) (_ B : List Grain) : Prop := Grain.lead B ∈ ws

end Grain

namespace Cursor

variable {o c c₁ o' c' c₁' : Cursor} {T : Token → Bool} {W V : List Grain} {a : Grain}

theorem Reached.view_peek (h : c.Reached) : c.peek.view = Grain.lead c.grains := by
  cases hg : c.grains with
  | nil => exact (h.peek_of_nil hg).2
  | cons a A => exact (h.faces hg).view

/-- What can be told of the token at a cursor is told by the first grain ahead. -/
theorem Reached.told (h : c.Reached) (hT : Token.Told T) :
    T c.peek = T (Token.ofWord (Grain.lead c.grains)) := by rw [hT, h.view_peek]

theorem Reached.told_eq (h : c.Reached) (h' : c'.Reached) (hT : Token.Told T)
    (hlead : Grain.lead c'.grains = Grain.lead c.grains) : T c'.peek = T c.peek := by
  rw [h.told hT, h'.told hT, hlead]

/-- What holds of none of the words that can come first does not hold of the token at the cursor. -/
theorem Reached.told_front (h : c.Reached) (hT : Token.Told T) {ws : List Word} {b : Bool}
    (hlead : Grain.lead c.grains ∈ ws) (hws : ∀ w ∈ ws, T (Token.ofWord w) = b) : T c.peek = b :=
  (h.told hT).trans (hws _ hlead)

/-- A token that is taken as a grain is taken alike where the same can be told of it. -/
theorem Reached.whole (h : c.Reached) (h' : c'.Reached) (hw : c.peek.Whole)
    (hlead : Grain.lead c'.grains = Grain.lead c.grains) :
    c'.peek.word = c.peek.word ∧ c'.peek.Whole := by
  have hview : c'.peek.view = c.peek.view := by rw [h.view_peek, h'.view_peek, hlead]
  have hkind := Token.kind_of_view hview
  have hw' : c'.peek.Whole := ⟨hkind ▸ hw.ne_eof, hview ▸ hw.not_mark⟩
  exact ⟨by rw [← hw'.view, hview, hw.view], hw'⟩

/-- A token that is taken as one grain. -/
theorem Reached.grains_whole (h : c.Reached) (hw : c.peek.Whole) :
    ∃ a, c.grains = a :: (c.advance 1).grains ∧ a.word = c.peek.word ∧ ¬ a.IsMark := by
  refine ⟨_, h.grains_advance hw.ne_eof hw.view, rfl, ?_⟩
  rintro ⟨m, hm, hmark⟩
  exact hw.not_mark m hm (hw.view.trans hmark)

/-- The second token is told by the second grain, if the first token is a grain. -/
theorem Reached.view_second (h : c.Reached) (hw : c.peek.Whole) :
    (c.peek 1).view = Grain.lead c.grains.tail := by
  obtain ⟨a, ha, -, -⟩ := h.grains_whole hw
  rw [ha, List.tail_cons, ← (h.lead (h.sound.advance 1)).view_peek, peek_advance]

/-- A mark is split off an operator, and taken as one grain. -/
theorem Reached.grains_mark (h : c.Reached) {m : Char} (hm : isMarkChar m = true)
    (hv : c.peek.view = (.operator, [m])) : c.Leads ((c.splitOperator 1).advance 1) ∧
      (c.splitOperator 1).peek.text = [m] ∧ (c.splitOperator 1).peek.start = c.peek.start ∧
      ∃ a, c.grains = a :: ((c.splitOperator 1).advance 1).grains ∧ a.word = (.operator, [m]) := by
  have hk : c.peek.kind = .operator := by rw [← Token.view_fst, hv]
  have hhead : c.peek.text.head? = some m := by
    rcases Token.view_operator hk with hw | ⟨m', x, -, ht, hw⟩
    · rw [hw, Token.word] at hv
      rw [(Prod.mk.inj hv).2]
      rfl
    · rw [hw] at hv
      rw [ht, List.singleton_injective (Prod.mk.inj hv).2]
      rfl
  obtain ⟨hl, hgrains⟩ := h.grains_split hhead hm
  obtain ⟨hstart, hkind, htext⟩ := h.sound.peek_splitOperator hk hhead
  have hview : (c.splitOperator 1).peek.view = (c.splitOperator 1).peek.word := by
    simp [Token.view, Token.word, hkind, htext]
  refine ⟨hl.trans (hl.sound.advance 1), htext, hstart, _,
    hgrains ▸ (h.lead hl).grains_advance (by simp [hkind]) hview, ?_⟩
  simp [Grain.word, hkind, htext]

/-- Where grains have been taken, the cursor has moved past the token that it stood at. -/
theorem Reached.peek_lt (h : c.Reached) (hl : c.Leads c') (hW : c.grains = W ++ c'.grains) (hne : W ≠ []) :
    c.peek.start < c'.edge := by
  obtain ⟨a, A, rfl⟩ := List.exists_cons_of_ne_nil hne
  have hfaces := h.faces hW
  have hspell := h.upTo_eq hl hW hne
  by_contra hlt
  rw [Nat.not_lt] at hlt
  have hplaced := h.sound.placed_peek hfaces.ne_eof
  have hnil : c.upTo c' = [] := by simp [upTo, Text.slice, Nat.sub_eq_zero_of_le hlt]
  rw [hnil, Grain.bare] at hspell
  have htext : a.text = [] := (List.append_eq_nil_iff.mp hspell.symm).1
  have hview : c.peek.view.2 = [] := by rw [hfaces.view]; exact htext
  obtain ⟨m, x, hx⟩ := List.exists_cons_of_ne_nil hplaced.text_ne_nil
  by_cases hk : c.peek.kind = .operator
  · rcases Token.view_operator hk with hv | ⟨m, y, -, -, hv⟩
    · simp [hv, Token.word, hx] at hview
    · simp [hv] at hview
  · simp [Token.view_of_kind hk, Token.word, hx] at hview

/-- The grains between `o` and `c` stand between `o'` and `c'` as well. -/
structure Retrace (o c o' c' : Cursor) : Prop where
  reached : o.Reached
  reached' : o'.Reached
  leads : o.Leads c
  leads' : o'.Leads c'
  braceless : c'.Braceless
  taken : ∃ V V', V ≠ [] ∧ Grain.Alike V V' ∧ o.grains = V ++ c.grains ∧ o'.grains = V' ++ c'.grains

namespace Retrace

variable (h : Retrace o c o' c')
include h

theorem step (hl : c.Leads c₁) (hl' : c'.Leads c₁') (hW : c.grains = W ++ c₁.grains)
    (hW' : c'.grains = W ++ c₁'.grains) : Retrace o c₁ o' c₁' := by
  obtain ⟨V, V', hne, halike, hV, hV'⟩ := h.taken
  exact ⟨h.reached, h.reached', h.leads.trans hl, h.leads'.trans hl', h.braceless.lead hl', V ++ W, V' ++ W,
    by simp [hne], halike.append hne W, by rw [hV, hW, List.append_assoc],
    by rw [hV', hW', List.append_assoc]⟩

/-- What is kept of the source is the same. -/
theorem slice : c'.sliceFrom o'.peek = c.sliceFrom o.peek := by
  obtain ⟨V, V', hne, halike, hV, hV'⟩ := h.taken
  have hne' : V' ≠ [] := by
    rintro rfl
    exact hne (by simpa using halike.1)
  rw [sliceFrom_eq rfl (h.reached.peek_lt h.leads hV hne),
    sliceFrom_eq rfl (h.reached'.peek_lt h.leads' hV' hne'), h.reached.upTo_eq h.leads hV hne,
    h.reached'.upTo_eq h.leads' hV' hne', halike.bare]

/-- Both start with the same token. -/
theorem word (hw : o.peek.Whole) : o'.peek.word = o.peek.word := by
  obtain ⟨V, V', hne, halike, hV, hV'⟩ := h.taken
  refine (h.reached.whole h.reached' hw ?_).1
  rw [hV, hV', halike.lead hne, Grain.lead_append hne]

end Retrace

/-- A dot is taken as one grain. -/
theorem Sound.whole_of_dot (h : c.Sound) (hk : c.peek.kind = .dot) :
    c.peek.Whole ∧ c.peek.word = (.dot, ['.']) :=
  ⟨Token.whole_of_kind (by simp [hk]) (by simp [hk]),
    by rw [Token.word, hk, (h.placed_peek (by simp [hk])).text_of_dot hk]⟩

/-- The same gap is before tokens with the same grain. -/
theorem Reached.ahead (h : c.Reached) (h' : c'.Reached) {S : List Grain → List Grain → Prop}
    (hS : Grain.Ahead S c.grains c'.grains) : c'.peek.view = c.peek.view ∧
      c'.peek.spaceBefore = c.peek.spaceBefore ∧ c'.peek.newlineBefore = c.peek.newlineBefore := by
  obtain ⟨a, A, A', ha, ha', -⟩ := hS
  have hf := h.faces ha
  have hf' := h'.faces ha'
  exact ⟨by rw [hf.view, hf'.view], by rw [hf.space, hf'.space], by rw [hf.newline, hf'.newline]⟩

/-- The same word is taken in both places. -/
theorem Reached.onward (h : c.Reached) (h' : c'.Reached) (hw : c.peek.Whole)
    {S : List Grain → List Grain → Prop} (hS : Grain.Onward S c.grains c'.grains) :
    c'.peek.word = c.peek.word ∧ c'.peek.Whole ∧ S (c.advance 1).grains (c'.advance 1).grains := by
  obtain ⟨hword, hw'⟩ := h.whole h' hw hS.lead
  obtain ⟨a, b, A, B, ha, hb, -, hS⟩ := hS
  obtain ⟨x, hx, -, -⟩ := h.grains_whole hw
  obtain ⟨y, hy, -, -⟩ := h'.grains_whole hw'
  rw [(List.cons.inj (hx.symm.trans ha)).2, (List.cons.inj (hy.symm.trans hb)).2]
  exact ⟨hword, hw', hS⟩

/-- Two tokens with the same grains. -/
theorem Reached.ahead_two (h : c.Reached) (h' : c'.Reached) (hw : c.peek.Whole)
    {S : List Grain → List Grain → Prop} (hS : Grain.Ahead (Grain.Ahead S) c.grains c'.grains) :
    c'.peek.view = c.peek.view ∧ (c'.peek 1).view = (c.peek 1).view := by
  have hw' := (h.whole h' hw hS.lead).2
  refine ⟨(h.ahead h' hS).1, ?_⟩
  rw [h.view_second hw, h'.view_second hw']
  obtain ⟨a, A, A', ha, ha', hS⟩ := hS
  rw [ha, ha']
  exact hS.lead

end Cursor

end SwiftMacros
