import Mathlib
import SwiftMacros.Proofs.Cursor.Room
import SwiftMacros.Proofs.Token.Twins
import SwiftMacros.Grammar.Declaration

/-! One source, and another that has other white space at one place. The tokens of both are the same to
every parser: those in front of the white space stand where they did, those behind it have all moved by
as much. So a cursor on one source has its counterpart on the other, and what is sliced from the sources
is the same as long as the white space is no part of it. -/

namespace SwiftMacros

open SwiftMacros.Parser (balancedLength?)

/-- A source, and other white space in the place of some of it, within a line. What is told of values is told of
readings behind the tokens `base`; if `late` holds, these readings start behind the white space. -/
structure Respacing where
  front : Text
  space : Text
  space' : Text
  back : Text
  space_ne : space ≠ []
  space'_ne : space' ≠ []
  blank : ∀ c ∈ space, Token.isSpaceChar c = true
  blank' : ∀ c ∈ space', Token.isSpaceChar c = true
  late : Prop
  base : List Token

namespace Respacing

variable (S : Respacing)

def source : Text := S.front ++ S.space ++ S.back

def source' : Text := S.front ++ S.space' ++ S.back

/-- The token stands in front of the white space. -/
def Left (t : Token) : Prop := t.stop ≤ S.front.length

/-- The token stands behind the white space. -/
def Right (t : Token) : Prop := S.front.length + S.space.length ≤ t.start

/-- Where the white space ends. -/
def place : Nat := S.front.length + S.space.length

/-- The tokens stand at the same place of the sources. -/
def Stands (t t' : Token) : Prop :=
  t.start ≤ t.stop ∧ (S.Left t ∧ t'.start = t.start ∧ t'.stop = t.stop ∨
    S.Right t ∧ t'.start + S.space.length = t.start + S.space'.length ∧
      t'.stop + S.space.length = t.stop + S.space'.length)

/-- Readings behind the tokens `base`, in front of the white space. -/
def before (base : List Token) : Respacing := { S with late := False, base }

/-- Readings behind the tokens `base` and the white space. -/
def beyond (base : List Token) : Respacing := { S with late := True, base }

/-- The white space comes behind the cursor. -/
def Ahead (c : Cursor) : Prop := ∀ t ∈ c.behind, S.Left t

/-- What has been read up to the cursor can be told to be the same: a token has been taken, and the reading
has not come across the white space. -/
def Clear (c : Cursor) : Prop := S.base ≠ [] ∧ (S.late ∨ S.Ahead c)

end Respacing

namespace Token

/-- The tokens are the same to a parser, and stand at the same place. -/
structure Same (S : Respacing) (t t' : Token) : Prop extends Alike t t' where
  spelled : t'.text = t.text
  newline : t'.newlineBefore = t.newlineBefore
  space : t'.spaceBefore = t.spaceBefore
  stands : S.Stands t t'

variable {S : Respacing} {t t' : Token} {ts ts' : List Token}

theorem Same.width (h : Same S t t') : t'.stop - t'.start = t.stop - t.start := by
  rcases h.stands with ⟨-, ⟨-, h1, h2⟩ | ⟨-, h1, h2⟩⟩ <;> omega

/-- Both operators can be split. -/
theorem Same.split (h : Same S t t') (hlt : t.start < t.stop) :
    Same S { t with text := t.text.take 1, stop := t.start + 1 }
        { t' with text := t'.text.take 1, stop := t'.start + 1 } ∧
      Same S ⟨t.kind, t.text.drop 1, t.line, t.column + 1, t.start + 1, t.stop, false, false⟩
        ⟨t'.kind, t'.text.drop 1, t'.line, t'.column + 1, t'.start + 1, t'.stop, false, false⟩ := by
  have hstands := h.stands
  have htake : t'.text.take 1 = t.text.take 1 := by rw [h.spelled]
  have hdrop : t'.text.drop 1 = t.text.drop 1 := by rw [h.spelled]
  refine ⟨⟨⟨h.kind, fun _ => htake⟩, htake, h.newline, h.space, ?_⟩,
    ⟨⟨h.kind, fun _ => hdrop⟩, hdrop, rfl, rfl, ?_⟩⟩ <;>
  · simp only [Respacing.Stands, Respacing.Left, Respacing.Right] at hstands ⊢
    omega

section Lists

variable (h : List.Forall₂ (Same S) ts ts')
include h

theorem same_getElem? (n : Nat) : (ts[n]? = none ∧ ts'[n]? = none) ∨
    ∃ t t', ts[n]? = some t ∧ ts'[n]? = some t' ∧ Same S t t' := by
  induction h generalizing n with
  | nil => exact .inl ⟨rfl, rfl⟩
  | cons ht _ ih =>
    cases n with
    | zero => exact .inr ⟨_, _, rfl, rfl, ht⟩
    | succ n => exact ih n

theorem balancedLength_same (d : Int) : balancedLength? d ts' = balancedLength? d ts := by
  induction h generalizing d with
  | nil => rfl
  | cons ht _ ih => simp only [balancedLength?, ht.isOpener, ht.isCloser, ih]

theorem bodyLength_same (d : Int) : bodyLength? d ts' = bodyLength? d ts := by
  induction h generalizing d with
  | nil => rfl
  | cons ht _ ih => simp only [bodyLength?, ht.isSymbol, ht.isOpener, ht.isCloser, ih]

theorem bindingLength_same (d : Int) : Grammar.bindingLength d ts' = Grammar.bindingLength d ts := by
  induction h generalizing d with
  | nil => rfl
  | cons ht _ ih =>
    simp only [Grammar.bindingLength, ht.newline, ht.isSymbolIn, ht.isOpener, ht.isCloser, ih]

theorem memberLength_same (inside : Bool) (d : Nat) :
    Grammar.memberLength inside d ts' = Grammar.memberLength inside d ts := by
  induction h generalizing inside d with
  | nil => rfl
  | cons ht _ ih =>
    cases d <;> simp only [Grammar.memberLength, Grammar.isDeclarationWord, ht.newline, ht.kind,
      ht.isSymbolIn, ht.isIdentifierIn, ht.isOpener, ht.isCloser, ih]

end Lists

end Token

theorem Text.slice_append_left {x y : Text} {a b : Nat} (hb : b ≤ x.length) :
    Text.slice (x ++ y) a b = Text.slice x a b := by
  rcases le_total a b with hab | hab
  · rw [Text.slice, Text.slice, List.drop_append_of_le_length (hab.trans hb),
      List.take_append_of_le_length (by rw [List.length_drop]; omega)]
  · rw [Text.slice, Text.slice, Nat.sub_eq_zero_of_le hab, List.take_zero, List.take_zero]

theorem Text.slice_append_right {x y : Text} {a b : Nat} (ha : x.length ≤ a) :
    Text.slice (x ++ y) a b = Text.slice y (a - x.length) (b - x.length) := by
  rw [Text.slice, Text.slice, List.drop_append, List.drop_eq_nil_iff.mpr ha, List.nil_append]
  congr 1
  omega

/-- What is sliced on one side of the white space. -/
theorem Respacing.slice_eq {S : Respacing} {t u t' u' : Token} (ht : S.Stands t t') (hu : S.Stands u u')
    (hside : S.Right t ∨ S.Left u) :
    Text.slice S.source t.start u.stop = Text.slice S.source' t'.start u'.stop := by
  obtain ⟨hle, ht⟩ := ht
  obtain ⟨hle', hu⟩ := hu
  simp only [Left, Right] at *
  rcases hu with ⟨hul, -, hstop⟩ | ⟨hur, -, hstop⟩
  · rcases ht with ⟨-, hstart, -⟩ | ⟨htr, hstart, -⟩
    · rw [source, source', List.append_assoc, List.append_assoc, Text.slice_append_left hul,
        Text.slice_append_left (hstop ▸ hul), hstart, hstop]
    · rw [Text.slice, Text.slice, Nat.sub_eq_zero_of_le (by omega), Nat.sub_eq_zero_of_le (by omega),
        List.take_zero, List.take_zero]
  · have := List.length_pos_iff.mpr S.space_ne
    obtain ⟨htr, hstart, -⟩ := ht.resolve_left (by omega)
    rw [source, source', Text.slice_append_right (by simpa using htr),
      Text.slice_append_right (by rw [List.length_append]; omega)]
    simp only [List.length_append]
    congr 1 <;> omega

theorem Cursor.Leads.behind_ne_nil {c c' : Cursor} (h : c.Leads c') (hne : c.behind ≠ []) : c'.behind ≠ [] := by
  obtain ⟨taken, htaken⟩ := h.behind
  exact htaken ▸ List.append_ne_nil_of_right_ne_nil _ hne

/-- A reading begins at these tokens. -/
structure Respacing.Begins (S : Respacing) (t t' : Token) : Prop where
  same : Token.Same S t t'
  right : S.late → S.Right t

namespace Cursor

/-- The cursors stand at the same place of both sources. -/
structure Mirror (S : Respacing) (c c' : Cursor) : Prop where
  sound : c.Sound
  sound' : c'.Sound
  source : c.source = S.source
  source' : c'.source = S.source'
  behind : List.Forall₂ (Token.Same S) c.behind c'.behind
  ahead : List.Forall₂ (Token.Same S) c.ahead c'.ahead
  eof : Token.Same S c.eof c'.eof
  based : ∃ ts, c.behind = ts ++ S.base ∧ (S.late → ∀ t ∈ ts ++ c.ahead, S.Right t)

namespace Mirror

variable {S : Respacing} {c c' c₁ c₁' : Cursor}

section Looks

variable (h : c.Mirror S c')
include h

theorem peek (n : Nat) : Token.Same S (c.peek n) (c'.peek n) := by
  rcases Token.same_getElem? h.ahead n with ⟨ht, ht'⟩ | ⟨t, t', ht, ht', hsame⟩
  · rw [Cursor.peek, Cursor.peek, ht, ht']
    exact h.eof
  · rw [Cursor.peek, Cursor.peek, ht, ht']
    exact hsame

theorem position : c'.position = c.position := h.behind.length_eq.symm

theorem isEof : c'.isEof = c.isEof := by
  have := h.ahead.length_eq
  rw [Cursor.isEof, Cursor.isEof]
  cases ha : c.ahead <;> cases ha' : c'.ahead <;> simp_all

theorem room : c'.room = c.room := by
  have hfold : ∀ {ts ts' : List Token} (n : Nat), List.Forall₂ (Token.Same S) ts ts' →
      ts'.foldl (fun n t => n + max (t.stop - t.start) 1) n =
        ts.foldl (fun n t => n + max (t.stop - t.start) 1) n := by
    intro ts ts' n hts
    induction hts generalizing n with
    | nil => rfl
    | cons ht _ ih => rw [List.foldl_cons, List.foldl_cons, ht.width, ih]
  exact hfold 0 h.ahead

theorem previous : Token.Same S c.previous c'.previous := by
  unfold Cursor.previous
  cases hb : c.behind with
  | nil =>
    have hb' : c'.behind = [] := by simpa [hb] using h.behind
    rw [hb']
    exact h.peek 0
  | cons t ts =>
    have hbehind := h.behind
    rw [hb] at hbehind
    cases hb' : c'.behind with
    | nil => simp [hb'] at hbehind
    | cons t' ts' =>
      rw [hb'] at hbehind
      exact (List.forall₂_cons.mp hbehind).1

theorem eof_right : S.Right c.eof := by
  rw [Respacing.Right, h.sound.eof_start, h.source, Respacing.source, List.length_append,
    List.length_append]
  omega

theorem behind_ne_nil (hbase : S.base ≠ []) : c.behind ≠ [] := by
  obtain ⟨ts, hts, -⟩ := h.based
  exact hts ▸ List.append_ne_nil_of_right_ne_nil _ hbase

/-- What is ahead of a late reading stands behind the white space. -/
theorem peek_right (hl : S.late) (n : Nat) : S.Right (c.peek n) := by
  obtain ⟨ts, -, hts⟩ := h.based
  unfold Cursor.peek
  cases hn : c.ahead[n]? with
  | none => exact h.eof_right
  | some t => exact hts hl t (List.mem_append_right _ (List.mem_of_getElem? hn))

theorem begins : S.Begins c.peek c'.peek := ⟨h.peek 0, fun hl => h.peek_right hl 0⟩

end Looks

section Moves

theorem advance (h : c.Mirror S c') (n : Nat) : (c.advance n).Mirror S (c'.advance n) where
  sound := (h.sound.advance n).sound
  sound' := (h.sound'.advance n).sound
  source := h.source
  source' := h.source'
  behind := List.rel_append (List.rel_reverse (List.forall₂_take n h.ahead)) h.behind
  ahead := List.forall₂_drop n h.ahead
  eof := h.eof
  based := by
    obtain ⟨ts, hts, hlate⟩ := h.based
    refine ⟨(c.ahead.take n).reverse ++ ts, by rw [Cursor.advance, hts, List.append_assoc], fun hl t ht => hlate hl t ?_⟩
    simp only [Cursor.advance, List.mem_append, List.mem_reverse] at ht ⊢
    rcases ht with (ht | ht) | ht
    · exact .inr (List.mem_of_mem_take ht)
    · exact .inl ht
    · exact .inr (List.mem_of_mem_drop ht)

/-- Both readings go back to where they started. -/
theorem rewind (h : c.Mirror S c') (hl : c.Leads c₁) (h₁ : c₁.Mirror S c₁') :
    (c₁.rewind c.position).Mirror S (c₁'.rewind c'.position) where
  sound := h₁.sound.rewind _
  sound' := h₁.sound'.rewind _
  source := h₁.source
  source' := h₁.source'
  behind := by
    have hle' : c'.position ≤ c₁'.position := by
      rw [h.position, h₁.position]
      exact hl.position_le
    rw [Cursor.rewind_of_le hl.position_le, Cursor.rewind_of_le hle']
    simp only [h.position, ← h₁.behind.length_eq]
    exact List.forall₂_drop _ h₁.behind
  ahead := by
    have hle' : c'.position ≤ c₁'.position := by
      rw [h.position, h₁.position]
      exact hl.position_le
    rw [Cursor.rewind_of_le hl.position_le, Cursor.rewind_of_le hle']
    simp only [h.position, ← h₁.behind.length_eq]
    exact List.rel_append (List.rel_reverse (List.forall₂_take _ h₁.behind)) h₁.ahead
  eof := h₁.eof
  based := by
    obtain ⟨ts, hts, -⟩ := h.based
    obtain ⟨us, hus, hlate⟩ := h₁.based
    obtain ⟨taken, htaken⟩ := hl.behind
    obtain ⟨hleads, hbehind⟩ := hl.rewind
    have hle := hl.position_le
    refine ⟨ts, hbehind.trans hts, fun hl t ht => hlate hl t ?_⟩
    have hu : us = taken ++ ts := by
      rw [hts, ← List.append_assoc, hus] at htaken
      exact (List.append_cancel_right htaken).symm
    have hk : c₁.behind.length - c.position = taken.length := by
      rw [← htaken, List.length_append, Cursor.position, Nat.add_sub_cancel]
    rw [Cursor.rewind_of_le hle] at ht
    simp only [hk] at ht
    rw [← htaken, List.take_left] at ht
    simp only [hu, List.mem_append, List.mem_reverse] at ht ⊢
    tauto

/-- Both operators are split behind their first character. -/
theorem split (h : c.Mirror S c') (hm : ∀ d ∈ c.peek.text.head?, Token.isMarkChar d = true) :
    (c.splitOperator 1).Mirror S (c'.splitOperator 1) := by
  have hl := h.sound.splitOperator hm
  have hl' := h.sound'.splitOperator (by rwa [(h.peek 0).spelled])
  have hbehind := c.behind_splitOperator 1
  have hbehind' := c'.behind_splitOperator 1
  have hahead : List.Forall₂ (Token.Same S) (c.splitOperator 1).ahead (c'.splitOperator 1).ahead ∧
      (S.late → (∀ t ∈ c.ahead, S.Right t) → ∀ t ∈ (c.splitOperator 1).ahead, S.Right t) := by
    simp only [Cursor.splitOperator]
    cases ha : c.ahead with
    | nil =>
      have ha' : c'.ahead = [] := by simpa [ha] using h.ahead
      simp [ha', ha]
    | cons t ts =>
      have hts := h.ahead
      rw [ha] at hts
      cases ha' : c'.ahead with
      | nil => simp [ha'] at hts
      | cons t' ts' =>
        rw [ha'] at hts
        obtain ⟨ht, hts⟩ := List.forall₂_cons.mp hts
        obtain ⟨h1, h2⟩ := ht.split (h.sound.placed_ahead (t := t) (by simp [ha])).lt
        simp only [ht.kind, ht.spelled]
        split
        · refine ⟨.cons ?_ (.cons ?_ hts), fun _ hr u hu => ?_⟩
          · simpa only [ht.spelled, ht.kind] using h1
          · simpa only [ht.spelled, ht.kind] using h2
          · have hright := hr t (by simp)
            simp only [Respacing.Right, List.mem_cons] at hright hu ⊢
            rcases hu with rfl | rfl | hu
            · exact hright
            · exact hright.trans (Nat.le_succ _)
            · exact hr u (by simp [hu])
        · rw [ha, ha']
          exact ⟨.cons ht hts, fun _ hr => hr⟩
  exact {
    sound := hl.sound
    sound' := hl'.sound
    source := hl.source.trans h.source
    source' := hl'.source.trans h.source'
    behind := by rw [hbehind, hbehind']; exact h.behind
    ahead := hahead.1
    eof := by rw [hl.eof, hl'.eof]; exact h.eof
    based := by
      obtain ⟨ts, hts, hlate⟩ := h.based
      refine ⟨ts, hbehind.trans hts, fun hl t ht => ?_⟩
      rcases List.mem_append.mp ht with ht | ht
      · exact hlate hl t (List.mem_append_left _ ht)
      · exact hahead.2 hl (fun u hu => hlate hl u (List.mem_append_right _ hu)) t ht }

end Moves

section Slices

theorem ahead_of_leads (h : S.Ahead c₁) (hl : c.Leads c₁) : S.Ahead c :=
  fun t ht => h t (hl.behind.subset ht)

/-- What has been read is clear if more has been. -/
theorem clear_of_leads (h : S.Clear c₁) (hl : c.Leads c₁) : S.Clear c :=
  ⟨h.1, h.2.imp_right fun hahead => ahead_of_leads hahead hl⟩

/-- What is sliced from both sources is the same where the reading is clear. -/
theorem slice (h : c.Mirror S c') (hc : S.Clear c) {t t' : Token} (ht : S.Begins t t') :
    c.sliceFrom t = c'.sliceFrom t' := by
  rw [Cursor.sliceFrom, Cursor.sliceFrom, h.source, h.source']
  refine Respacing.slice_eq ht.same.stands h.previous.stands (hc.2.imp ht.right fun hleft => hleft _ ?_)
  obtain ⟨u, us, hu⟩ := List.exists_cons_of_ne_nil (h.behind_ne_nil hc.1)
  simp [Cursor.previous, hu]

end Slices

section Stages

variable {S' : Respacing}

theorem same_of {t t' : Token} (h : Token.Same S t t') (hf : S'.front = S.front) (hs : S'.space = S.space)
    (hs' : S'.space' = S.space') : Token.Same S' t t' where
  toAlike := h.toAlike
  spelled := h.spelled
  newline := h.newline
  space := h.space
  stands := by
    have := h.stands
    simpa only [Respacing.Stands, Respacing.Left, Respacing.Right, hf, hs, hs'] using this

/-- Other readings of the same sources start at the cursor. -/
theorem stage (h : c.Mirror S c') (late : Prop) (hr : late → ∀ t ∈ c.ahead, S.Right t) :
    c.Mirror { S with late, base := c.behind } c' where
  sound := h.sound
  sound' := h.sound'
  source := h.source
  source' := h.source'
  behind := by
    refine h.behind.imp fun _ _ ht => ?_
    exact same_of ht rfl rfl rfl
  ahead := by
    refine h.ahead.imp fun _ _ ht => ?_
    exact same_of ht rfl rfl rfl
  eof := same_of h.eof rfl rfl rfl
  based := ⟨[], rfl, hr⟩

theorem early (h : c.Mirror S c') : c.Mirror (S.before c.behind) c' := h.stage False False.elim

theorem crossed (h : c.Mirror S c') (hr : ∀ t ∈ c.ahead, S.Right t) : c.Mirror (S.beyond c.behind) c' :=
  h.stage True fun _ => hr

/-- The white space comes in front of the token that starts where it ends. -/
theorem at_place (h : c.Mirror S c') (hp : c.peek.start = S.place) :
    S.Ahead c ∧ ∀ t ∈ c.ahead, S.Right t := by
  have hpair := h.sound.arranged.pairwise
  rw [inner, List.pairwise_append, List.pairwise_reverse] at hpair
  constructor
  · intro t ht
    obtain ⟨i, hi, rfl⟩ := List.getElem_of_mem ht
    have hstop : c.behind[i].stop ≤ c.peek.start := by
      cases ha : c.ahead with
      | nil =>
        rw [Cursor.peek, ha, List.getElem?_nil, Option.getD_none, h.sound.eof_start]
        exact (h.sound.placed_behind ht).le
      | cons u us =>
        rw [Cursor.peek, ha, List.getElem?_cons_zero, Option.getD_some]
        exact hpair.2.2 _ (List.mem_reverse.mpr ht) u (ha ▸ List.mem_cons_self)
    have hlt := (h.sound.placed_behind ht).lt
    have hstands := ((List.forall₂_iff_get.mp h.behind).2 i hi (h.behind.length_eq ▸ hi)).stands
    rw [hp, Respacing.place] at hstop
    rcases hstands.2 with ⟨hleft, -⟩ | ⟨hright, -⟩
    · exact hleft
    · change S.front.length + S.space.length ≤ c.behind[i].start at hright
      omega
  · intro t ht
    rw [Respacing.Right]
    cases ha : c.ahead with
    | nil => simp [ha] at ht
    | cons u us =>
      have hpeek : c.peek = u := by simp [Cursor.peek, ha]
      rw [Respacing.place, hpeek] at hp
      rw [ha] at ht hpair
      rcases List.mem_cons.mp ht with rfl | hmem
      · exact hp.ge
      · have := (List.pairwise_cons.mp hpair.2.1).1 t hmem
        have := (h.sound.placed_ahead (t := u) (by simp [ha])).lt
        omega

/-- Behind the white space, a reading can start anywhere. -/
theorem restart {base : List Token} (h : c.Mirror (S.beyond base) c') : c.Mirror (S.beyond c.behind) c' := by
  obtain ⟨ts, -, hts⟩ := h.based
  exact h.crossed fun t ht => hts trivial t (List.mem_append_right _ ht)

end Stages

end Mirror

end Cursor

end SwiftMacros
