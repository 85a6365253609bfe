import Mathlib
import SwiftMacros.Proofs.Cursor.Arranged

/-! Sound cursors: those whose tokens are arranged in their source. Reading goes from a cursor to
one that it leads to, with more tokens behind it; operators ahead can be split on the way. A token
list refines another if it holds the same tokens, but for operators that stand in it in pieces. -/

namespace SwiftMacros.Token

/-- The second list is the first with marks split off the fronts of operators. -/
inductive Refines : List Token → List Token → Prop
  | nil : Refines [] []
  | keep (t : Token) {ts us : List Token} : Refines ts us → Refines (t :: ts) (t :: us)
  | split {t : Token} {ts us : List Token} : t.kind = .operator → 1 < t.text.length →
      Refines (t.back :: ts) us → Refines (t :: ts) (t.front :: us)

namespace Refines

variable {ts us vs : List Token}

theorem refl (ts : List Token) : Refines ts ts := by
  induction ts with
  | nil => exact .nil
  | cons t ts ih => exact .keep t ih

/-- A piece that has been split off is a single character. -/
theorem front_length (t : Token) : t.front.text.length ≤ 1 := by
  simp only [front, List.length_take]
  omega

theorem trans (h : Refines ts us) (h' : Refines us vs) : Refines ts vs := by
  induction h' generalizing ts with
  | nil => exact h
  | keep u _ ih =>
    cases h with
    | keep _ h => exact .keep u (ih h)
    | split hk hlen h => exact .split hk hlen (ih h)
  | @split u us vs hk hlen _ ih =>
    cases h with
    | keep _ h => exact .split hk hlen (ih (.keep _ h))
    | @split t => exact absurd (front_length t) (by omega)

/-- What stands in front of both lists is left out. -/
theorem of_append (xs : List Token) (h : Refines (xs ++ ts) (xs ++ us)) : Refines ts us := by
  induction xs with
  | nil => exact h
  | cons x xs ih =>
    generalize hx : (x :: xs) ++ us = l at h
    cases h with
    | keep _ h =>
      cases hx
      exact ih h
    | split hk hlen h =>
      rw [List.cons_append, List.cons.injEq] at hx
      have := front_length x
      rw [← hx.1] at this
      omega

theorem append (xs : List Token) (h : Refines ts us) : Refines (xs ++ ts) (xs ++ us) := by
  induction xs with
  | nil => exact h
  | cons x xs ih => exact .keep x ih

theorem length_le (h : Refines ts us) : ts.length ≤ us.length := by
  induction h with
  | nil => exact le_rfl
  | keep _ _ ih => simpa using ih
  | split _ _ _ ih =>
    simp only [List.length_cons] at ih ⊢
    omega

/-- As many tokens as before are the same tokens. -/
theorem eq_of_length (h : Refines ts us) (hlen : us.length = ts.length) : us = ts := by
  induction h with
  | nil => rfl
  | keep t _ ih => rw [ih (by simpa using hlen)]
  | split _ _ h _ =>
    have := h.length_le
    simp only [List.length_cons] at hlen this
    omega

end Refines

end SwiftMacros.Token

namespace SwiftMacros

open Token (Word Reads lexeme isMarkChar Placed Joint)

namespace Cursor

/-- The tokens without the end of the source. -/
def inner (c : Cursor) : List Token := c.behind.reverse ++ c.ahead

structure Sound (c : Cursor) : Prop where
  arranged : Arranged c.source c.inner
  eof_kind : c.eof.kind = .eof
  eof_text : c.eof.text = []
  eof_start : c.eof.start = c.source.length
  eof_stop : c.eof.stop = c.source.length

/-- `c'` is sound and comes from `c` by taking tokens and splitting operators. -/
structure Leads (c c' : Cursor) : Prop where
  sound : c'.Sound
  source : c'.source = c.source
  eof : c'.eof = c.eof
  behind : c.behind <:+ c'.behind
  refines : Token.Refines c.inner c'.inner
  within : ∀ u ∈ c'.inner, ∃ t ∈ c.inner, t.start ≤ u.start ∧ u.stop ≤ t.stop

/-- The offset just past the token taken last. -/
def edge (c : Cursor) : Nat := (c.behind.head?.map Token.stop).getD 0

theorem Sound.refl {c : Cursor} (h : c.Sound) : c.Leads c :=
  ⟨h, rfl, rfl, List.suffix_refl _, .refl _, fun u hu => ⟨u, hu, le_rfl, le_rfl⟩⟩

theorem Leads.trans {a b c : Cursor} (h : a.Leads b) (h' : b.Leads c) : a.Leads c :=
  ⟨h'.sound, h'.source.trans h.source, h'.eof.trans h.eof, h.behind.trans h'.behind,
    h.refines.trans h'.refines, fun u hu => by
    obtain ⟨t, ht, h1, h2⟩ := h'.within u hu
    obtain ⟨v, hv, h3, h4⟩ := h.within t ht
    exact ⟨v, hv, h3.trans h1, h2.trans h4⟩⟩

section Moves

variable {c : Cursor}

theorem Sound.placed_ahead (h : c.Sound) {t : Token} (ht : t ∈ c.ahead) : Placed c.source t :=
  h.arranged.placed t (by simp [inner, ht])

theorem Sound.placed_behind (h : c.Sound) {t : Token} (ht : t ∈ c.behind) : Placed c.source t :=
  h.arranged.placed t (by simp [inner, ht])

/-- Tokens that have been read end in front of those ahead. -/
theorem Sound.stop_le_start (h : c.Sound) {t u : Token} (ht : t ∈ c.behind) (hu : u ∈ c.ahead) : t.stop ≤ u.start := by
  have hpair := h.arranged.pairwise
  rw [inner, List.pairwise_append] at hpair
  exact hpair.2.2 t (List.mem_reverse.mpr ht) u hu

/-- Tokens ahead start in the order of the list. -/
theorem Sound.ahead_pairwise (h : c.Sound) : c.ahead.Pairwise fun t u => t.start < u.start := by
  have hpair := h.arranged.pairwise
  rw [inner, List.pairwise_append] at hpair
  exact hpair.2.1.imp_of_mem fun ht _ hle => (h.placed_ahead ht).lt.trans_le hle

theorem Sound.peek_le_start (h : c.Sound) {t : Token} (ht : t ∈ c.ahead) : c.peek.start ≤ t.start := by
  have hpair := h.ahead_pairwise
  obtain ⟨u, us, hu⟩ := List.exists_cons_of_ne_nil (List.ne_nil_of_mem ht)
  have hpeek : c.peek = u := by simp [peek, hu]
  rw [hu] at ht hpair
  rw [hpeek]
  rcases List.mem_cons.mp ht with rfl | ht
  · exact le_rfl
  · exact ((List.pairwise_cons.mp hpair).1 t ht).le

/-- The tokens ahead are all different. -/
theorem Sound.nodup_ahead (h : c.Sound) : c.ahead.Nodup :=
  h.ahead_pairwise.imp fun hlt heq => absurd (heq ▸ hlt) (lt_irrefl _)

theorem inner_advance (c : Cursor) (n : Nat) : (c.advance n).inner = c.inner := by
  simp only [inner, advance, List.reverse_append, List.reverse_reverse, List.append_assoc,
    List.take_append_drop]

theorem advance_add (c : Cursor) (m n : Nat) : c.advance (m + n) = (c.advance m).advance n := by
  simp only [advance, List.take_add, List.reverse_append, List.append_assoc, List.drop_drop]

theorem peek_advance (c : Cursor) (m n : Nat) : (c.advance m).peek n = c.peek (m + n) := by
  simp only [peek, advance, List.getElem?_drop]

theorem inner_rewind (c : Cursor) (n : Nat) : (c.rewind n).inner = c.inner := by
  rw [rewind, inner_advance]
  simp only [inner]
  rw [← List.append_assoc, ← List.reverse_append, List.take_append_drop]

theorem rewind_of_le {n : Nat} (h : n ≤ c.behind.length) : c.rewind n =
    { c with
      behind := c.behind.drop (c.behind.length - n)
      ahead := (c.behind.take (c.behind.length - n)).reverse ++ c.ahead } := by
  rw [rewind, Nat.sub_eq_zero_of_le h]
  rfl

/-- Soundness only depends on the tokens and the source. -/
theorem Sound.of_inner {c' : Cursor} (h : c.Sound) (hs : c'.source = c.source)
    (he : c'.eof = c.eof) (hi : c'.inner = c.inner) : c'.Sound := by
  obtain ⟨ha, h1, h2, h3, h4⟩ := h
  exact ⟨by rw [hs, hi]; exact ha, by rw [he]; exact h1, by rw [he]; exact h2,
    by rw [he, hs]; exact h3, by rw [he, hs]; exact h4⟩

theorem Sound.advance (h : c.Sound) (n : Nat) : c.Leads (c.advance n) :=
  ⟨h.of_inner rfl rfl (inner_advance c n), rfl, rfl, List.suffix_append _ _,
    inner_advance c n ▸ .refl _, fun u hu => ⟨u, inner_advance c n ▸ hu, le_rfl, le_rfl⟩⟩

theorem Sound.rewind (h : c.Sound) (n : Nat) : (c.rewind n).Sound :=
  h.of_inner rfl rfl (inner_rewind c n)

theorem Leads.position_le {c' : Cursor} (h : c.Leads c') : c.position ≤ c'.position :=
  h.behind.length_le

/-- Going back to where a reading started gives up all that it has taken. -/
theorem Leads.rewind {c' : Cursor} (h : c.Leads c') :
    c.Leads (c'.rewind c.position) ∧ (c'.rewind c.position).behind = c.behind := by
  obtain ⟨taken, ht⟩ := h.behind
  have hb : (c'.rewind c.position).behind = c.behind := by
    rw [rewind_of_le h.position_le]
    simp only [position, ← ht, List.length_append, Nat.add_sub_cancel]
    exact List.drop_left
  have hi := inner_rewind c' c.position
  refine ⟨⟨h.sound.rewind _, h.source, h.eof, hb ▸ List.suffix_refl _, hi ▸ h.refines, fun u hu => ?_⟩, hb⟩
  exact h.within u (hi ▸ hu)

/-- The first character of an operator at the cursor is split off if it is a mark. -/
theorem Sound.splitOperator (h : c.Sound)
    (hm : ∀ d ∈ c.peek.text.head?, isMarkChar d = true) : c.Leads (c.splitOperator 1) := by
  simp only [Cursor.splitOperator]
  split
  · exact h.refl
  · rename_i t ts hahead
    split
    · rename_i hsplit
      obtain ⟨d, x, hx⟩ := List.exists_cons_of_length_pos (l := t.text) (by omega)
      have hhead : t.text.head? = some d := by rw [hx]; rfl
      have hpeek : c.peek = t := by simp [peek, hahead]
      have harranged := h.arranged
      rw [inner, hahead] at harranged
      have := harranged.split hsplit.1 hhead (hm d (by rw [hpeek, hhead]; rfl)) hsplit.2
      have hrefines : Token.Refines c.inner (c.behind.reverse ++ t.front :: t.back :: ts) := by
        rw [inner, hahead]
        exact .append _ (.split hsplit.1 hsplit.2 (.refl _))
      refine ⟨⟨this, h.eof_kind, h.eof_text, h.eof_start, h.eof_stop⟩, rfl, rfl,
        List.suffix_refl _, hrefines, fun u hu => ?_⟩
      have ht := h.placed_ahead (t := t) (by simp [hahead])
      have hlen := ht.length
      rw [inner, hahead]
      simp only [inner, List.mem_append, List.mem_cons] at hu
      rcases hu with hu | rfl | rfl | hu
      · exact ⟨u, by simp [hu], le_rfl, le_rfl⟩
      · exact ⟨t, by simp, le_rfl, by simp only; omega⟩
      · exact ⟨t, by simp, by simp, le_rfl⟩
      · exact ⟨u, by simp [hu], le_rfl, le_rfl⟩
    · exact h.refl

theorem behind_splitOperator (c : Cursor) (n : Nat) : (c.splitOperator n).behind = c.behind := by
  simp only [Cursor.splitOperator]
  split
  · rfl
  · split <;> rfl

/-- The part of an operator that is split off. -/
theorem Sound.peek_splitOperator (h : c.Sound) (hk : c.peek.kind = .operator) {m : Char}
    (hm : c.peek.text.head? = some m) :
    (c.splitOperator 1).peek.start = c.peek.start ∧ (c.splitOperator 1).peek.kind = .operator ∧
      (c.splitOperator 1).peek.text = [m] := by
  simp only [Cursor.splitOperator]
  cases ha : c.ahead with
  | nil =>
    have hpeek : c.peek = c.eof := by simp [peek, ha]
    rw [hpeek, h.eof_kind] at hk
    cases hk
  | cons t ts =>
    have hpeek : c.peek = t := by simp [peek, ha]
    rw [hpeek] at hk hm
    obtain ⟨x, hx⟩ := List.head?_eq_some_iff.mp hm
    rcases eq_or_ne x [] with rfl | hne
    · simp [peek, ha, hx, hk]
    · have hlt := List.length_pos_iff.mpr hne
      simp only [hx, hk, true_and, List.length_cons, Nat.lt_add_left_iff_pos, hlt, if_true]
      simp [peek, ha]

/-- `c'` is sound and has the tokens of `c`, but for operators that have been split. -/
structure Rereads (c c' : Cursor) : Prop where
  sound : c'.Sound
  source : c'.source = c.source
  eof : c'.eof = c.eof
  refines : Token.Refines c.inner c'.inner

theorem Rereads.trans {a b c : Cursor} (h : a.Rereads b) (h' : b.Rereads c) : a.Rereads c :=
  ⟨h'.sound, h'.source.trans h.source, h'.eof.trans h.eof, h.refines.trans h'.refines⟩

theorem Leads.rereads {c' : Cursor} (h : c.Leads c') : c.Rereads c' :=
  ⟨h.sound, h.source, h.eof, h.refines⟩

/-- Looking up a token by its offset only moves the cursor. -/
theorem Sound.seek {c' : Cursor} {offset : Nat} (h : c.Sound) (hs : c.seek? offset = some c') :
    c.Rereads c' ∧ c'.peek.start = offset := by
  simp only [seek?] at hs
  split at hs
  · rename_i hp
    cases hs
    have hinner : ∀ ts : List Token, (⟨c.source, (ts.takeWhile fun t => t.start < offset).reverse,
        ts.dropWhile fun t => t.start < offset, c.eof⟩ : Cursor).inner = ts := by
      intro ts
      simp only [inner, List.reverse_reverse, List.takeWhile_append_dropWhile]
    refine ⟨⟨h.of_inner rfl rfl (hinner _), rfl, rfl, ?_⟩, hp⟩
    rw [hinner]
    exact .refl _
  · cases hs

end Moves

section Front

variable {c : Cursor} (h : c.Sound)
include h

theorem Sound.ahead_eq (hk : c.peek.kind ≠ .eof) : ∃ ts, c.ahead = c.peek :: ts := by
  cases ha : c.ahead with
  | nil =>
    have : c.peek = c.eof := by simp [peek, ha]
    rw [this] at hk
    exact absurd h.eof_kind hk
  | cons t ts => exact ⟨ts, by simp [peek, ha]⟩

/-- The end of the source does not start inside of it. -/
theorem Sound.peek_ne_eof (hlt : c.peek.start < c.source.length) : c.peek.kind ≠ .eof := by
  cases ha : c.ahead with
  | nil =>
    have hpeek : c.peek = c.eof := by simp [peek, ha]
    rw [hpeek, h.eof_start] at hlt
    exact absurd hlt (lt_irrefl _)
  | cons t ts =>
    have hpeek : c.peek = t := by simp [peek, ha]
    exact hpeek ▸ (h.placed_ahead (t := t) (by simp [ha])).ne_eof

theorem Sound.placed_peek (hk : c.peek.kind ≠ .eof) : Placed c.source c.peek := by
  obtain ⟨ts, hts⟩ := h.ahead_eq hk
  exact h.placed_ahead (by rw [hts]; simp)

theorem Sound.edge_le_length : c.edge ≤ c.source.length := by
  cases hb : c.behind with
  | nil => simp [edge, hb]
  | cons t ts => simpa [edge, hb] using (h.placed_behind (t := t) (by simp [hb])).le

theorem Sound.joint {t u : Token} {ts us : List Token} (ht : c.behind = t :: ts)
    (hu : c.ahead = u :: us) : Joint c.source t u := by
  have := h.arranged
  rw [inner, ht, hu, List.reverse_cons, List.append_assoc] at this
  exact this.joint_of_append

/-- The token at the cursor starts behind the token taken last. -/
theorem Sound.edge_le_peek : c.edge ≤ c.peek.start := by
  cases ha : c.ahead with
  | nil =>
    have : c.peek = c.eof := by simp [peek, ha]
    rw [this, h.eof_start]
    exact h.edge_le_length
  | cons u us =>
    have hpeek : c.peek = u := by simp [peek, ha]
    cases hb : c.behind with
    | nil => simp [edge, hb]
    | cons t ts => simpa [edge, hb, hpeek] using (h.joint hb ha).le

theorem Sound.brink_edge : Brink c.source c.edge := by
  cases hb : c.behind with
  | nil => simpa [edge, hb] using (cut_zero c.source).brink
  | cons t ts => simpa [edge, hb] using (h.placed_behind (t := t) (by simp [hb])).brink_stop

/-- In front of a token that is no operator, or behind one, the source is cut. -/
theorem Sound.cut_edge (hk : c.peek.kind ≠ .operator ∨ ∃ t ∈ c.behind.head?, t.kind ≠ .operator)
    (he : c.peek.kind ≠ .eof) :
    Cut c.source c.edge ∧ Reads (c.source.drop c.edge) [] (c.source.drop c.peek.start) := by
  obtain ⟨us, hu⟩ := h.ahead_eq he
  cases hb : c.behind with
  | nil =>
    have hfirst := h.arranged.first c.peek (by simp [inner, hb, hu])
    simpa [edge, hb] using ⟨cut_zero c.source, hfirst⟩
  | cons t ts =>
    have hj := (h.joint hb hu).reads (by
      rcases hk with hk | ⟨u, hu', hk⟩
      · exact .inr hk
      · rw [hb, List.head?_cons, Option.mem_some_iff] at hu'
        exact .inl (hu' ▸ hk))
    simpa [edge, hb] using hj

/-- Where a token starts that is no operator, or is behind one that is none, the source is cut. -/
theorem Sound.cut_peek (hk : c.peek.kind ≠ .operator ∨ ∃ t ∈ c.behind.head?, t.kind ≠ .operator)
    (he : c.peek.kind ≠ .eof) : Cut c.source c.peek.start := by
  obtain ⟨hcut, hread⟩ := h.cut_edge hk he
  exact hcut.of_reads ((h.placed_peek he).lt.le.trans (h.placed_peek he).le) hread

/-- Behind an operator that is no single mark the source is cut. -/
theorem Sound.cut_peek_behind {t : Token} (ht : t ∈ c.behind.head?)
    (hm : ∀ m, isMarkChar m = true → t.text ≠ [m]) (he : c.peek.kind ≠ .eof) :
    Cut c.source c.peek.start := by
  obtain ⟨us, hu⟩ := h.ahead_eq he
  obtain ⟨ts, hb⟩ := List.head?_eq_some_iff.mp ht
  have hplaced := h.placed_peek he
  rcases h.joint hb hu with ⟨-, hcut, hread⟩ | ⟨-, -, -, -, m, hmark, htext⟩
  · exact hcut.of_reads (hplaced.lt.le.trans hplaced.le) hread
  · exact absurd htext (hm m hmark)

end Front

theorem Leads.cut {c c' : Cursor} {a : Nat} (h : c.Leads c') (hc : Cut c.source a) :
    Cut c'.source a := by
  rw [h.source]
  exact hc

/-- The edge never moves back. -/
theorem Leads.edge_le {c c' : Cursor} (h : c.Leads c') : c.edge ≤ c'.edge := by
  obtain ⟨taken, ht⟩ := h.behind
  cases taken with
  | nil => simp only [List.nil_append] at ht; simp [edge, ht]
  | cons t ts =>
    cases hb : c.behind with
    | nil => simp [edge, hb]
    | cons u us =>
      have hpair := h.sound.arranged.pairwise
      have hlt := (h.sound.placed_behind (t := t) (by simp [← ht])).lt
      rw [inner, ← ht, hb, List.pairwise_append] at hpair
      have := hpair.1
      rw [List.pairwise_reverse, List.cons_append, List.pairwise_cons] at this
      have hle := this.1 u (by simp)
      simp only [edge, ← ht, hb, List.cons_append, List.head?_cons, Option.map_some,
        Option.getD_some]
      omega

/-- Reading goes forward. -/
theorem Leads.peek_le {c c' : Cursor} (h : c.Leads c') (hs : c.Sound) :
    c.peek.start ≤ c'.peek.start := by
  cases ha : c'.ahead with
  | nil =>
    have hpeek : c'.peek = c'.eof := by simp [peek, ha]
    rw [hpeek, h.sound.eof_start, h.source]
    cases hb : c.ahead with
    | nil =>
      have hpeek : c.peek = c.eof := by simp [peek, hb]
      rw [hpeek, hs.eof_start]
    | cons t ts =>
      have hpeek : c.peek = t := by simp [peek, hb]
      have ht := hs.placed_ahead (t := t) (by simp [hb])
      have := ht.lt
      have := ht.le
      rw [hpeek]
      omega
  | cons u us =>
    have hpeek : c'.peek = u := by simp [peek, ha]
    have hu := (h.sound.placed_ahead (t := u) (by simp [ha])).lt
    have hedge := h.edge_le
    have hle := hpeek ▸ h.sound.edge_le_peek
    obtain ⟨t, ht, h1, h2⟩ := h.within u (by simp [inner, ha])
    have hpair := hs.arranged.pairwise
    rw [inner, List.pairwise_append] at hpair
    rw [hpeek]
    rw [inner, List.mem_append, List.mem_reverse] at ht
    rcases ht with ht | ht
    · -- a token behind `c` does not hold one ahead of `c'`
      have hstop : t.stop ≤ c.edge := by
        cases hb : c.behind with
        | nil => simp [hb] at ht
        | cons v vs =>
          simp only [edge, hb, List.head?_cons, Option.map_some, Option.getD_some]
          rw [hb] at ht
          rcases List.mem_cons.mp ht with rfl | ht
          · exact le_rfl
          · have hrev := hpair.1
            rw [hb, List.pairwise_reverse, List.pairwise_cons] at hrev
            have := hrev.1 t ht
            have := (hs.placed_behind (t := v) (by simp [hb])).lt
            omega
      omega
    · cases hb : c.ahead with
      | nil => simp [hb] at ht
      | cons v vs =>
        have hpeek : c.peek = v := by simp [peek, hb]
        rw [hpeek]
        rw [hb] at ht
        rcases List.mem_cons.mp ht with rfl | ht
        · exact h1
        · have hcons := hpair.2.1
          rw [hb, List.pairwise_cons] at hcons
          have := hcons.1 t ht
          have := (hs.placed_ahead (t := v) (by simp [hb])).lt
          omega

section Advance

variable {c : Cursor} (h : c.Sound) (hk : c.peek.kind ≠ .eof)
include h hk

theorem Sound.behind_advance : (c.advance 1).behind = c.peek :: c.behind := by
  obtain ⟨ts, hts⟩ := h.ahead_eq hk
  simp only [Cursor.advance]
  rw [hts]
  rfl

theorem Sound.behind_advance_two (hk' : (c.peek 1).kind ≠ .eof) :
    (c.advance 2).behind = c.peek 1 :: c.peek :: c.behind := by
  have hs := (h.advance 1).sound
  rw [show c.advance 2 = (c.advance 1).advance 1 from advance_add c 1 1,
    hs.behind_advance (by rwa [peek_advance]), peek_advance, h.behind_advance hk]

theorem Sound.edge_advance : (c.advance 1).edge = c.peek.stop := by
  simp [edge, h.behind_advance hk]

/-- A token that has been taken lies behind. -/
theorem Sound.peek_lt {c' : Cursor} (hl : (c.advance 1).Leads c') : c.peek.start < c'.edge := by
  have := hl.edge_le
  have := (h.placed_peek hk).lt
  rw [h.edge_advance hk] at *
  omega

end Advance

/-- The cursor of a text stands before its significant tokens. -/
theorem tokens_ofText {t : Text} {ts : List Token} (h : Token.tokenize t = .ok ts) :
    ∃ c, ofText t = .ok c ∧ c.tokens = Token.significant ts := by
  obtain ⟨us, e, hus, -⟩ := Token.tokensFrom_laid (s := t) (p := {}) false false (Nat.zero_le _) h
  have hsig : Token.significant ts = us ++ [e] := hus
  refine ⟨⟨t, [], us, e⟩, ?_, hsig.symm⟩
  rw [ofText, h]
  change Except.ok (ofTokens t (Token.significant ts)) = _
  rw [hsig, ofTokens, List.dropLast_concat, List.getLast?_concat]
  rfl

/-- The tokens of a text are laid out in it, the end of the source behind them. -/
theorem laid_ofText {t : Text} {c : Cursor} (h : ofText t = .ok c) :
    c.source = t ∧ c.behind = [] ∧ Token.Laid t 0 c.inner ∧ c.eof.kind = .eof ∧ c.eof.text = [] ∧
      c.eof.start = t.length ∧ c.eof.stop = t.length := by
  cases hts : Token.tokenize t with
  | error e =>
    rw [ofText, hts] at h
    cases h
  | ok ts =>
    rw [ofText, hts] at h
    obtain ⟨us, e, hus, hlaid, heof⟩ :=
      Token.tokensFrom_laid (s := t) (p := {}) false false (Nat.zero_le _) hts
    have hsig : Token.significant ts = us ++ [e] := hus
    have hc : c = ⟨t, [], us, e⟩ := by
      cases h
      beta_reduce
      rw [hsig, ofTokens, List.dropLast_concat, List.getLast?_concat]
      rfl
    subst hc
    exact ⟨rfl, rfl, hlaid, heof⟩

/-- The cursor of a text is sound. -/
theorem sound_ofText {t : Text} {c : Cursor} (h : ofText t = .ok c) :
    c.Sound ∧ c.source = t ∧ c.behind = [] := by
  obtain ⟨rfl, hbehind, hlaid, hkind, htext, hstart, hstop⟩ := laid_ofText h
  obtain ⟨hp, hj, hf⟩ := hlaid.arranged (cut_zero _)
  exact ⟨⟨⟨hp, hj, fun u hu => (hf u hu).1⟩, hkind, htext, hstart, hstop⟩, rfl, hbehind⟩

end Cursor

end SwiftMacros
