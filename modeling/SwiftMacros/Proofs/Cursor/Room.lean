import Mathlib
import SwiftMacros.Proofs.Parser.Forward

/-! The room ahead of a cursor. Splits leave it as it is, and a token that is taken makes it smaller.
A loop whose rounds each take a token therefore ends by itself: the bound on its rounds is never met.
For this it does not matter which operators have been split before, and where: as long as each token
ahead takes up as much of the source as it has characters, and at least one, there are at least as many
characters left as there is room. The number of tokens ahead grows with every split and is no such
measure. -/

namespace SwiftMacros

/-- The number of characters that tokens take up. -/
def Token.width (ts : List Token) : Nat := (ts.map fun t => t.stop - t.start).sum

theorem Token.width_append (ts us : List Token) : width (ts ++ us) = width ts + width us := by
  simp [width]

theorem Token.Refines.width_eq {ts us : List Token} (h : Refines ts us)
    (hts : ∀ t ∈ ts, t.text.length = t.stop - t.start) : width us = width ts := by
  induction h with
  | nil => rfl
  | keep t _ ih =>
    have := ih fun u hu => hts u (by simp [hu])
    simp_all [width]
  | @split t ts us hk hlen _ ih =>
    have ht := hts t (by simp)
    have hback : t.back.text.length = t.back.stop - t.back.start := by
      simp only [back, List.length_drop]
      omega
    have := ih (List.forall_mem_cons.mpr ⟨hback, fun u hu => hts u (by simp [hu])⟩)
    simp only [width, List.map_cons, List.sum_cons, front, back] at this ⊢
    omega

namespace Cursor

variable {c c' : Cursor}

/-- The room is the width of the tokens ahead, if none of them is empty. -/
theorem room_eq_width (h : ∀ t ∈ c.ahead, t.start < t.stop) : c.room = Token.width c.ahead := by
  have hfold : ∀ (ts : List Token) (n : Nat), (∀ t ∈ ts, t.start < t.stop) →
      ts.foldl (fun n t => n + max (t.stop - t.start) 1) n = n + Token.width ts := by
    intro ts
    induction ts with
    | nil => simp [Token.width]
    | cons t ts ih =>
      intro n hts
      have := hts t (by simp)
      rw [List.foldl_cons, ih _ fun u hu => hts u (by simp [hu]), Nat.max_eq_left (by omega)]
      simp only [Token.width, List.map_cons, List.sum_cons]
      omega
  rw [room, hfold c.ahead 0 h, Nat.zero_add]

theorem Sound.room_eq (hs : c.Sound) : c.room = Token.width c.ahead :=
  room_eq_width fun _ ht => (hs.placed_ahead ht).lt

/-- Splitting operators leaves the room as it is. -/
theorem Leads.room_eq (hl : c.Leads c') (hs : c.Sound) (hb : c'.behind = c.behind) : c'.room = c.room := by
  have hrefines := hl.refines
  rw [inner, inner, hb] at hrefines
  have hwidth := (hrefines.of_append _).width_eq fun t ht => (hs.placed_ahead ht).length
  rw [hs.room_eq, hl.sound.room_eq, hwidth]

/-- Tokens that are taken leave less room. -/
theorem Leads.room_lt (hl : c.Leads c') (hs : c.Sound) (hb : c'.behind ≠ c.behind) :
    c'.room < c.room := by
  obtain ⟨ts, hts⟩ := hl.behind
  have hrefines := hl.refines
  rw [inner, inner, ← hts, List.reverse_append, List.append_assoc] at hrefines
  have hwidth := (hrefines.of_append _).width_eq fun t ht => (hs.placed_ahead ht).length
  rw [Token.width_append] at hwidth
  have htaken : 0 < Token.width ts.reverse := by
    obtain ⟨t, us, rfl⟩ := List.exists_cons_of_ne_nil (l := ts) (by rintro rfl; exact hb hts.symm)
    have := (hl.sound.placed_behind (t := t) (by simp [← hts])).lt
    simp only [Token.width, List.reverse_cons, List.map_append, List.sum_append, List.map_cons,
      List.sum_cons]
    omega
  rw [hs.room_eq, hl.sound.room_eq]
  omega

/-- Reading leaves no more room. -/
theorem Leads.room_le (hl : c.Leads c') (hs : c.Sound) : c'.room ≤ c.room := by
  by_cases hb : c'.behind = c.behind
  · exact (hl.room_eq hs hb).le
  · exact (hl.room_lt hs hb).le

/-- Without a token taken the token at the cursor stays, unless it is an operator. -/
theorem Leads.peek_eq (hl : c.Leads c') (hb : c'.behind = c.behind)
    (hk : c.peek.kind ≠ .operator ∨ c'.peek.kind ≠ .operator) : c'.peek = c.peek := by
  have hrefines := hl.refines
  rw [inner, inner, hb] at hrefines
  replace hrefines := hrefines.of_append _
  rw [peek, peek, hl.eof] at hk ⊢
  generalize c.ahead = ts at hrefines hk ⊢
  generalize c'.ahead = us at hrefines hk ⊢
  cases hrefines with
  | nil => rfl
  | keep t _ => rfl
  | split hop _ _ => exact (hk.elim (fun hk => hk hop) fun hk => hk hop).elim

end Cursor

namespace Parser

variable {α : Type} {c : Cursor} {item : Parser (Option α)}

/-- Rounds that each take a token come to an end before their number does. -/
theorem collectWithin_eq_collect (hs : c.Sound)
    (hitem : ∀ c', c.Leads c' → Spec item c' fun o c'' => o ≠ none → c''.behind ≠ c'.behind)
    {n : Nat} (hn : c.room < n) : collectWithin item n c = collect item c := by
  have hsame : ∀ (m n : Nat) (c' : Cursor), c.Leads c' → c'.room < m → c'.room < n →
      collectWithin item m c' = collectWithin item n c' := by
    intro m
    induction m with
    | zero => exact fun _ _ _ h => absurd h (Nat.not_lt_zero _)
    | succ m ih =>
      intro n c' hl hm hn
      obtain ⟨n, rfl⟩ := Nat.exists_eq_add_one_of_ne_zero (by omega : n ≠ 0)
      have hspec := hitem c' hl
      simp only [collectWithin]
      cases ho : item c' with
      | error e c'' => rw [bind_of_error ho, bind_of_error ho]
      | ok o c'' =>
        obtain ⟨hl', hne⟩ := hspec.ok ho
        rw [bind_of_ok ho, bind_of_ok ho]
        cases o with
        | none => rfl
        | some a =>
          have hlt := hl'.room_lt hl.sound (hne (by simp))
          have := ih n c'' (hl.trans hl') (by omega) (by omega)
          simp only [bind, EStateM.bind, this]
  exact hsame n (c.room + 1) c hs.refl hn (Nat.lt_succ_self _)

end Parser

namespace Token

/-- The tokens follow each other between two offsets. None of them is empty, and each is as long as its
text. -/
def Lined (a b : Nat) : List Token → Prop
  | [] => a ≤ b
  | t :: ts => a ≤ t.start ∧ t.start < t.stop ∧ t.text.length = t.stop - t.start ∧ Lined t.stop b ts

namespace Lined

variable {a b : Nat} {ts us : List Token}

theorem mono {a' : Nat} (h : Lined a b ts) (ha : a' ≤ a) : Lined a' b ts := by
  cases ts with
  | nil => exact ha.trans h
  | cons t ts => exact ⟨ha.trans h.1, h.2⟩

theorem add_width_le (h : Lined a b ts) : a + width ts ≤ b := by
  induction ts generalizing a with
  | nil => exact h
  | cons t ts ih =>
    obtain ⟨hle, hlt, -, hts⟩ := h
    have := ih hts
    simp only [width, List.map_cons, List.sum_cons] at this ⊢
    omega

/-- The tokens behind some others start where these end. -/
theorem of_append (h : Lined a b (ts ++ us)) : ∃ m, a + width ts ≤ m ∧ Lined m b us := by
  induction ts generalizing a with
  | nil => exact ⟨a, le_rfl, h⟩
  | cons t ts ih =>
    obtain ⟨hle, hlt, -, hts⟩ := h
    obtain ⟨m, hm, hus⟩ := ih hts
    refine ⟨m, ?_, hus⟩
    simp only [width, List.map_cons, List.sum_cons] at hm ⊢
    omega

theorem lt (h : Lined a b ts) : ∀ t ∈ ts, t.start < t.stop := by
  induction ts generalizing a with
  | nil => simp
  | cons t ts ih => exact List.forall_mem_cons.mpr ⟨h.2.1, ih h.2.2.2⟩

/-- Each token takes up one character at least. -/
theorem length_le (h : Lined a b (ts ++ us)) : ts.length ≤ width ts := by
  induction ts generalizing a with
  | nil => exact le_rfl
  | cons t ts ih =>
    obtain ⟨-, hlt, -, hts⟩ := h
    have := ih hts
    simp only [width, List.map_cons, List.sum_cons, List.length_cons] at this ⊢
    omega

theorem splitOnce (h : Lined a b ts) (hs : SplitOnce ts us) : Lined a b us ∧ width us = width ts := by
  obtain ⟨xs, t, n, ys, rfl, rfl, -, hn, hlt⟩ := hs
  induction xs generalizing a with
  | nil =>
    obtain ⟨hle, hpos, hlen, hys⟩ := h
    refine ⟨⟨hle, ?_, ?_, le_rfl, ?_, ?_, hys⟩, ?_⟩
    · simp only [firstPart]
      omega
    · simp only [firstPart, List.length_take]
      omega
    · simp only [secondPart]
      omega
    · simp only [secondPart, List.length_drop]
      omega
    · simp only [List.nil_append, width, List.map_cons, List.sum_cons, firstPart, secondPart]
      omega
  | cons x xs ih =>
    obtain ⟨hle, hpos, hlen, hxs⟩ := h
    obtain ⟨hlined, hwidth⟩ := ih hxs
    refine ⟨⟨hle, hpos, hlen, hlined⟩, ?_⟩
    simp only [List.cons_append, width, List.map_cons, List.sum_cons] at hwidth ⊢
    rw [hwidth]

/-- Splits leave the tokens where they are and as wide as they were. -/
theorem splits (h : Lined a b ts) (hs : Splits ts us) : Lined a b us ∧ width us = width ts := by
  induction hs with
  | refl => exact ⟨h, rfl⟩
  | tail _ hs ih =>
    obtain ⟨hlined, hwidth⟩ := ih.1.splitOnce hs
    exact ⟨hlined, hwidth.trans ih.2⟩

end Lined

/-- Tokens laid out in a source are lined up in it. -/
theorem Laid.lined {s : Text} {a : Nat} {ts : List Token} (h : Laid s a ts) (ha : a ≤ s.length) :
    Lined a s.length ts := by
  induction h with
  | nil => exact ha
  | cons _ hle hlt hstop htext _ _ _ ih =>
    exact ⟨hle, hlt, by rw [htext, slice_length hstop], ih hstop⟩

end Token

namespace Cursor

variable {c c' : Cursor}

/-- The tokens ahead are lined up in front of the end of the source. -/
structure Sized (c : Cursor) : Prop where
  eof_kind : c.eof.kind = .eof
  lined : Token.Lined 0 c.eof.start c.ahead

/-- Tokens in a source are lined up in front of its end. -/
theorem Sound.sized (hs : c.Sound) : c.Sized := by
  refine ⟨hs.eof_kind, ?_⟩
  have hpair : c.ahead.Pairwise fun t u => t.stop ≤ u.start :=
    (List.pairwise_append.mp hs.arranged.pairwise).2.1
  rw [hs.eof_start]
  have hlined : ∀ (ts : List Token) (a : Nat), a ≤ c.source.length → (∀ t ∈ ts, Token.Placed c.source t ∧ a ≤ t.start) →
      ts.Pairwise (fun t u => t.stop ≤ u.start) → Token.Lined a c.source.length ts := by
    intro ts
    induction ts with
    | nil => exact fun _ ha _ _ => ha
    | cons t ts ih =>
      intro a _ hts hpair
      obtain ⟨ht, hts⟩ := List.forall_mem_cons.mp hts
      obtain ⟨hle, hpair⟩ := List.pairwise_cons.mp hpair
      exact ⟨ht.2, ht.1.lt, ht.1.length, ih _ ht.1.le (fun u hu => ⟨(hts u hu).1, hle u hu⟩) hpair⟩
  exact hlined c.ahead 0 (Nat.zero_le _) (fun t ht => ⟨hs.placed_ahead ht, Nat.zero_le _⟩) hpair

namespace Sized

variable (hs : c.Sized)
include hs

theorem room_eq : c.room = Token.width c.ahead := room_eq_width hs.lined.lt

/-- There are at least as many characters left as there is room. -/
theorem peek_add_room_le : c.peek.start + c.room ≤ c.eof.start := by
  rw [hs.room_eq]
  have hlined := hs.lined
  cases ha : c.ahead with
  | nil => simp [peek, ha, Token.width]
  | cons t ts =>
    rw [ha] at hlined
    have hpeek : c.peek = t := by simp [peek, ha]
    rw [hpeek]
    have hpeeked : Token.Lined t.start c.eof.start (t :: ts) := ⟨le_rfl, hlined.2⟩
    exact hpeeked.add_width_le

theorem ahead_ne_nil (hk : c.peek.kind ≠ .eof) : c.ahead ≠ [] := by
  intro ha
  rw [peek, ha] at hk
  exact hk hs.eof_kind

omit hs in
/-- Moving past tokens takes one if there is one. -/
theorem position_lt_advance (hk : c.ahead ≠ []) {n : Nat} (hn : 0 < n) :
    c.position < (c.advance n).position := by
  have := List.length_pos_iff.mpr hk
  simp only [position, advance, List.length_append, List.length_reverse, List.length_take]
  omega

theorem onward (h : c.Onward c') : c'.Sized := by
  obtain ⟨ts, -, hsplits⟩ := h.taken
  obtain ⟨m, -, hlined⟩ := (hs.lined.splits hsplits).1.of_append
  exact ⟨by rw [h.eof, hs.eof_kind], by rw [h.eof]; exact hlined.mono (Nat.zero_le m)⟩

end Sized

namespace Onward

variable (h : c.Onward c')
include h

theorem position_le : c.position ≤ c'.position := by
  obtain ⟨ts, hb, -⟩ := h.taken
  simp only [position, hb, List.length_append]
  omega

/-- As long as no token has been taken, there is one ahead if there was one. -/
theorem ahead_ne_nil (hp : c'.position = c.position) (hne : c.ahead ≠ []) : c'.ahead ≠ [] := by
  obtain ⟨ts, hb, hsplits⟩ := h.taken
  obtain rfl : ts = [] := by simpa [position, hb] using hp
  intro hnil
  have := hsplits.head_start
  simp [hnil, hne] at this

/-- Every token that is taken leaves less room. -/
theorem room_add_position_le (hs : c.Sized) : c'.room + c'.position ≤ c.room + c.position := by
  obtain ⟨ts, hb, hsplits⟩ := h.taken
  obtain ⟨hlined, hwidth⟩ := hs.lined.splits hsplits
  have := hlined.length_le
  rw [Token.width_append] at hwidth
  rw [hs.room_eq, (hs.onward h).room_eq, position, position, hb, List.length_append, List.length_reverse]
  omega

/-- Once a token has been taken, the token at the cursor starts behind the one that did. -/
theorem start_lt (hs : c.Sized) (hlt : c.position < c'.position) : c.peek.start < c'.peek.start := by
  obtain ⟨ts, hb, hsplits⟩ := h.taken
  have hstart := hsplits.head_start
  obtain ⟨hlined, -⟩ := hs.lined.splits hsplits
  cases ts with
  | nil =>
    simp only [position, hb, List.reverse_nil, List.nil_append] at hlt
    exact absurd hlt (lt_irrefl _)
  | cons t ts =>
    obtain ⟨-, hpos, -, hrest⟩ := hlined
    obtain ⟨m, hm, hahead⟩ := hrest.of_append
    have hfirst : c.peek.start = t.start := by
      obtain ⟨u, us, hu⟩ : ∃ u us, c.ahead = u :: us := by
        apply List.exists_cons_of_ne_nil
        rintro hnil
        simp [hnil] at hstart
      rw [hu] at hstart
      simpa [peek, hu] using hstart.symm
    have hnext : m ≤ c'.peek.start := by
      cases ha : c'.ahead with
      | nil =>
        rw [ha] at hahead
        simpa [peek, ha, h.eof] using (show m ≤ c.eof.start from hahead)
      | cons u us =>
        rw [ha] at hahead
        simpa [peek, ha] using hahead.1
    omega

end Onward

end Cursor

end SwiftMacros
