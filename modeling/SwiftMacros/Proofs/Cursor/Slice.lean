import Mathlib
import SwiftMacros.Proofs.Token.Legible
import SwiftMacros.Proofs.Cursor.Sound

/-! What is cut out of a source. A slice that starts at a cut and ends behind a token is legible; if
that token is a name, a symbol or a single mark, the slice is sturdy. Slices that start and end with
a token have no white space to trim. -/

namespace SwiftMacros

open Token (Word Reads isMarkChar Placed Legible Sturdy Stops)

section Slice

variable {s : Text} {a b p : Nat} {ls : List Word}

theorem reads_slice (hab : a ≤ b) (h : Reads (s.drop a) ls (s.drop b)) :
    Reads (Text.slice s a b) ls [] := by
  have := h.append (slice_append_drop hab).symm (.inl (Token.stops_nil.apart _)) (by simp)
  rwa [List.append_nil] at this

/-- A slice with marks at its end, read up to those marks. -/
theorem reads_slice_marks (ha : Cut s a) (hp : Cut s p) (hpb : p < b) (hab : a < b)
    (hb : b ≤ s.length) (hall : ∀ c ∈ Text.slice s p b, isMarkChar c = true) :
    ∃ u y ls, Text.slice s a b = u ++ y ∧ y ≠ [] ∧ (∀ c ∈ y, isMarkChar c = true) ∧
      Reads (Text.slice s a b) ls y := by
  rcases Nat.lt_or_ge p a with hpa | hpa
  · refine ⟨[], Text.slice s a b, [], rfl, ?_, fun c hc => hall c ?_, .done _⟩
    · apply List.ne_nil_of_length_pos
      rw [slice_length hb]
      omega
    · rw [← slice_append_slice hpa.le hab.le]
      exact List.mem_append_right _ hc
  · obtain ⟨ls, hls⟩ := ha.reads hp hpa
    have hsplit : s.drop a = Text.slice s a p ++ s.drop p := (slice_append_drop hpa).symm
    obtain ⟨c, y, hy⟩ : ∃ c y, Text.slice s p b = c :: y := by
      apply List.exists_cons_of_length_pos
      rw [slice_length hb]
      omega
    have hc : isMarkChar c = true := hall c (by simp [hy])
    have hhead : (s.drop p).head? = some c := by
      rw [← slice_append_drop hpb.le, hy]
      rfl
    refine ⟨Text.slice s a p, Text.slice s p b, ls, (slice_append_slice hpa hpb.le).symm,
      by simp [hy], hall, ?_⟩
    rw [← slice_append_slice hpa hpb.le]
    exact hls.append hsplit (.inr ⟨c, hc, hhead, by simp [hy]⟩) (by rw [hy, hhead]; exact id)

theorem Cut.legible_slice (ha : Cut s a) (hb : Brink s b) (hab : a ≤ b) (hle : b ≤ s.length) :
    Legible (Text.slice s a b) := by
  obtain ⟨p, hpb, hp, hall⟩ := hb
  rcases hab.eq_or_lt with rfl | hab
  · exact ⟨[], by simpa [Text.slice] using Reads.done []⟩
  rcases hpb.eq_or_lt with rfl | hpb
  · obtain ⟨ls, hls⟩ := ha.reads hp hab.le
    exact ⟨ls, reads_slice hab.le hls⟩
  · obtain ⟨u, y, ls, heq, hne, hy, hread⟩ := reads_slice_marks ha hp hpb hab hle hall
    exact Sturdy.legible ⟨u, y, ls, heq, hy, hread, fun h => absurd h hne⟩

/-- A name, a symbol or a single mark. -/
def Token.Firm (t : Token) : Prop :=
  t.kind = .identifier ∨ t.kind = .symbol ∨
    t.kind = .operator ∧ ∃ c, isMarkChar c = true ∧ t.text = [c]

theorem Token.Placed.slice_getLast {t : Token} (ht : Placed s t) (ha : a < t.stop) :
    (Text.slice s a t.stop).getLast? = t.text.getLast? := by
  have hlt := ht.lt
  have hne := ht.text_ne_nil
  rcases Nat.lt_or_ge t.start a with hlt' | hge
  · rw [ht.text, ← slice_append_slice hlt'.le ha.le, List.getLast?_append_of_ne_nil]
    apply List.ne_nil_of_length_pos
    rw [slice_length ht.le]
    omega
  · rw [← slice_append_slice hge hlt.le, ← ht.text, List.getLast?_append_of_ne_nil _ hne]

theorem Token.Placed.slice_head {t : Token} (ht : Placed s t) (hb : t.start < b) :
    (Text.slice s t.start b).head? = t.text.head? := by
  obtain ⟨c, y, hy⟩ := List.exists_cons_of_ne_nil ht.text_ne_nil
  obtain ⟨n, hn⟩ : ∃ n, b - t.start = n + 1 := ⟨b - t.start - 1, by omega⟩
  rw [Text.slice, ht.drop_eq, hy, hn]
  rfl

theorem Token.Placed.sturdy_slice {t : Token} (ht : Placed s t) (hf : t.Firm) (hcut : Cut s a)
    (ha : a < t.stop) : Sturdy (Text.slice s a t.stop) := by
  have hfull : t.kind ≠ .operator → (∀ d ∈ t.text.getLast?,
      Token.isOperatorChar d = false ∧ d ≠ '.') → Sturdy (Text.slice s a t.stop) := by
    intro hk hlast
    obtain ⟨ls, hls⟩ := hcut.reads (ht.cut_stop hk) ha.le
    refine ⟨_, [], ls, (List.append_nil _).symm, by simp, reads_slice ha.le hls, fun _ d hd => ?_⟩
    exact hlast d (ht.slice_getLast ha ▸ hd)
  rcases hf with hk | hk | ⟨hk, c, hc, htext⟩
  · have hne : t.kind ≠ .operator := by simp [hk]
    have hl := ht.lexeme_text hne
    rw [hk] at hl
    exact hfull hne (Token.lexeme_identifier hl)
  · have hne : t.kind ≠ .operator := by simp [hk]
    have hl := ht.lexeme_text hne
    rw [hk] at hl
    obtain ⟨c, u, hu, hc, hlen⟩ := Token.lexeme_symbol hl
    obtain ⟨d, hd⟩ := List.length_eq_one_iff.mp hlen
    rw [hd, List.singleton_append, List.cons.injEq] at hu
    refine hfull hne fun e he => ?_
    obtain rfl : c = e := by simpa [hd, hu.1] using he
    simp only [Token.isSymbolChar, List.contains_iff_mem] at hc
    simp at hc
    rcases hc with rfl | rfl | rfl | rfl | rfl | rfl | rfl | rfl | rfl <;> decide
  · obtain ⟨p, hp, hcutp, hall⟩ := ht.brink_start
    have hlt := ht.lt
    obtain ⟨u, y, ls, heq, hne, hy, hread⟩ :=
      reads_slice_marks hcut hcutp (hp.trans_lt hlt) ha ht.le (by
        rw [← slice_append_slice hp hlt.le, ← ht.text, htext]
        simpa [or_imp, forall_and, hc] using hall)
    exact ⟨u, y, ls, heq, hy, hread, fun h => absurd h hne⟩

/-- A text that is an identifier before some other text. -/
def Token.IsName (n : Text) : Prop := ∃ r, Token.lexeme (n ++ r) = .ok (.identifier, n.length)

/-- A name is read before anything that no name goes on with. -/
theorem Token.IsName.reads {n r : Text} (h : IsName n) (hr : Token.Free r)
    (hq : r.head? ≠ some '"') : Reads (n ++ r) [(.identifier, n)] r := by
  obtain ⟨r', hl⟩ := h
  have hlast := Token.lexeme_identifier hl
  refine .chunk (.lexeme (Token.lexeme_append hl le_rfl rfl (.inl ⟨hr, fun c _ d hd => ?_⟩)
    fun h => absurd h hq) rfl)
    (.done r)
  exact ⟨fun _ => hlast d hd, fun _ => (hlast d hd).2⟩

theorem Token.IsName.legible {n : Text} (h : IsName n) : Legible n :=
  ⟨[(.identifier, n)], by simpa using h.reads (r := []) Token.stops_nil.free (by simp)⟩

theorem Token.Placed.isName {t : Token} (h : Placed s t) (hk : t.kind = .identifier) :
    IsName t.text :=
  ⟨s.drop t.stop, hk ▸ h.lexeme_text (by simp [hk])⟩

end Slice

theorem Text.trim_eq_self {t : Text} (h : ∀ c, t.head? = some c ∨ t.getLast? = some c →
    Text.isBlank c = false) : Text.trim t = t := by
  have hstart : Text.trimStart t = t := by
    cases t with
    | nil => rfl
    | cons c t => simp [Text.trimStart, h c (.inl rfl)]
  rw [Text.trim, hstart, Text.trimEnd, Text.dropWhileEnd]
  rcases List.eq_nil_or_concat t with rfl | ⟨u, c, rfl⟩
  · rfl
  · have hc := h c (.inr (by simp))
    simp [hc]

namespace Cursor

variable {c c' : Cursor}

/-- The source from the token at `c` to the token taken last at `c'`. -/
def upTo (c c' : Cursor) : Text := Text.slice c'.source c.peek.start c'.edge

theorem previous_stop (h : c.behind ≠ []) : c.previous.stop = c.edge := by
  obtain ⟨t, ts, ht⟩ := List.exists_cons_of_ne_nil h
  simp [previous, edge, ht]

theorem behind_ne_nil_of_edge (h : 0 < c.edge) : c.behind ≠ [] := by
  intro hb
  simp [edge, hb] at h

/-- What a parser keeps of the source is the part between the two cursors. -/
theorem sliceFrom_eq {t : Token} (ht : t.start = c.peek.start) (h : c.peek.start < c'.edge) :
    c'.sliceFrom t = c.upTo c' := by
  rw [sliceFrom, previous_stop (behind_ne_nil_of_edge (by omega)), upTo, ht]

/-- A token that has been taken is kept as it reads. -/
theorem Sound.upTo_advance (h : c.Sound) (he : c.peek.kind ≠ .eof) :
    c.upTo (c.advance 1) = c.peek.text := by
  rw [upTo, h.edge_advance he]
  exact (h.placed_peek he).text.symm

section Between

variable (h : c.Leads c') (hlt : c.peek.start < c'.edge)
include h hlt

theorem Leads.last_between : ∃ t ts, c'.behind = t :: ts ∧ t.stop = c'.edge ∧
    Placed c'.source t := by
  obtain ⟨t, ts, ht⟩ := List.exists_cons_of_ne_nil
    (behind_ne_nil_of_edge (c := c') (by omega))
  exact ⟨t, ts, ht, by simp [edge, ht], h.sound.placed_behind (by simp [ht])⟩

theorem Leads.upTo_ne_nil : c.upTo c' ≠ [] := by
  apply List.ne_nil_of_length_pos
  rw [upTo, slice_length h.sound.edge_le_length]
  omega

theorem Leads.legible_upTo (hcut : Cut c'.source c.peek.start) : Legible (c.upTo c') :=
  hcut.legible_slice h.sound.brink_edge hlt.le h.sound.edge_le_length

variable (hs : c.Sound)
include hs

theorem Leads.peek_ne_eof : c.peek.kind ≠ .eof := by
  intro hk
  cases ha : c.ahead with
  | nil =>
    have hpeek : c.peek = c.eof := by simp [peek, ha]
    have := h.sound.edge_le_length
    rw [hpeek, hs.eof_start, ← h.source] at hlt
    omega
  | cons t ts =>
    have hpeek : c.peek = t := by simp [peek, ha]
    exact (hs.placed_ahead (t := t) (by simp [ha])).ne_eof (hpeek ▸ hk)

theorem Leads.placed_between : Placed c'.source c.peek :=
  h.source ▸ hs.placed_peek (h.peek_ne_eof hlt hs)

theorem Leads.trim_upTo : Text.trim (c.upTo c') = c.upTo c' := by
  obtain ⟨t, -, -, ht, hplaced⟩ := h.last_between hlt
  have hpeek := h.placed_between hlt hs
  refine Text.trim_eq_self fun d hd => ?_
  rw [upTo, hpeek.slice_head hlt] at hd
  rcases hd with hd | hd
  · exact hpeek.not_blank (.inl hd)
  · rw [← ht, hplaced.slice_getLast (by omega)] at hd
    exact hplaced.not_blank (.inr hd)

end Between

end Cursor

end SwiftMacros
