import Mathlib
import SwiftMacros.Proofs.Text.Lines
import SwiftMacros.Proofs.Token.Laid
import SwiftMacros.Proofs.Cursor.Arranged

/-! Where the tokens of a source stand. They take up all of the source, one behind the other, and each
knows the line and the column of its first character. A significant token knows as well what kind of
gap is between it and the significant token before it. -/

namespace SwiftMacros

/-- Behind a character, the line starts where it did or, if that was a line end, there. -/
theorem Text.lineStart_succ {s : Text} {n : Nat} {c : Char} (h : s[n]? = some c) :
    lineStart s (n + 1) = if c = '\n' then n + 1 else lineStart s n := by
  have htake : s.take (n + 1) = s.take n ++ [c] := by
    rw [List.take_add_one, h]
    rfl
  have hlt : n < s.length := (List.getElem?_eq_some_iff.mp h).1
  unfold lineStart
  rw [htake, List.length_append, List.length_take_of_le hlt.le, List.reverse_append]
  by_cases hc : c = '\n' <;> simp [hc]

/-- The place tells the line of its offset, and where that line starts. -/
structure Place.Exact (s : Text) (p : Place) : Prop where
  le : p.offset ≤ s.length
  line : p.line = 1 + (s.take p.offset).count '\n'
  lineStart : p.lineStart = Text.lineStart s p.offset

namespace Place.Exact

variable {s x u : Text} {p : Place}

theorem start (s : Text) : Exact s {} := ⟨Nat.zero_le _, rfl, rfl⟩

theorem advance {c : Char} (h : p.Exact s) (hc : s[p.offset]? = some c) :
    (p.advance c).Exact s := by
  have hlt : p.offset < s.length := (List.getElem?_eq_some_iff.mp hc).1
  have hcount : (s.take (p.offset + 1)).count '\n' =
      (s.take p.offset).count '\n' + [c].count '\n' := by
    rw [List.take_add_one, hc, List.count_append]
    rfl
  have hstart := Text.lineStart_succ hc
  obtain ⟨hle, hline, hlineStart⟩ := h
  by_cases hn : c = '\n'
  · subst hn
    rw [Place.advance, if_pos rfl]
    refine ⟨hlt, ?_, hstart.symm⟩
    rw [hcount, ← Nat.add_assoc, ← hline, List.count_singleton_self]
  · rw [Place.advance, if_neg hn]
    rw [if_neg hn] at hstart
    refine ⟨hlt, ?_, hlineStart.trans hstart.symm⟩
    rw [hcount, List.count_singleton, beq_false_of_ne hn]
    exact hline

theorem foldl (h : p.Exact s) (hx : s.drop p.offset = x ++ u) :
    (x.foldl Place.advance p).Exact s ∧ s.drop (x.foldl Place.advance p).offset = u := by
  induction x generalizing p with
  | nil => exact ⟨h, hx⟩
  | cons c x ih =>
    have hc : s[p.offset]? = some c := by
      rw [← List.head?_drop, hx]
      rfl
    refine ih (h.advance hc) ?_
    rw [Token.advance_offset, ← List.drop_drop, hx]
    rfl

end Place.Exact

namespace Token

/-- The token reads what stands between its offsets. Its line counts the line ends before it, and its
column the characters between the start of that line and it. -/
structure Located (s : Text) (t : Token) : Prop where
  text : t.text = Text.slice s t.start t.stop
  line : t.line = 1 + (s.take t.start).count '\n'
  column : t.start = Text.lineStart s t.start + t.column

/-- Tokens that are not empty and take up all between two offsets, one behind the other. -/
def Covers : Nat → Nat → List Token → Prop
  | a, b, [] => a = b
  | a, b, t :: ts => t.start = a ∧ t.start < t.stop ∧ Covers t.stop b ts

/-- Behind the offset `a`, each token tells whether there is anything between it and the token before
it, and whether a line end is among that. -/
def Spaced (s : Text) : Nat → List Token → Prop
  | _, [] => True
  | a, t :: ts => (t.spaceBefore = true ↔ a < t.start) ∧
      (t.newlineBefore = true ↔ '\n' ∈ Text.slice s a t.start) ∧ Spaced s t.stop ts

/-- A token that tells nothing of what is before it. -/
def unspaced (t : Token) : Token := { t with newlineBefore := false, spaceBefore := false }

theorem newlineLength_mem {t : Text} {n : Nat} (h : newlineLength? t = some n) : '\n' ∈ t.take n := by
  unfold newlineLength? at h
  split at h
  · cases h
    simp
  · cases h
    simp
  · cases h

/-- A token of white space breaks the line if a line end is in it. -/
theorem breaksLine_iff {x u : Text} {k : Kind} (p : Place) (hk : k.isTrivia = true)
    (h : lexeme (x ++ u) = .ok (k, x.length)) :
    (tokenAt p k x).breaksLine = true ↔ '\n' ∈ x := by
  have hclass : k ≠ .comment → ∃ f, (k, f) ∈ classes ∧ f (x ++ u) = some x.length := by
    intro hc
    rcases lexeme_cases h with ⟨q, -, rfl, -⟩ | ⟨-, -, rfl, -⟩ | ⟨-, -, hs⟩
    · cases hk
    · exact absurd rfl hc
    · exact simpleLexeme_class hs
  cases k with
  | comment => simp [breaksLine, tokenAt]
  | newline =>
    obtain ⟨f, hm, hf⟩ := hclass (by decide)
    obtain rfl : f = newlineLength? := by simpa [classes] using hm
    have hmem := newlineLength_mem hf
    rw [List.take_left] at hmem
    simp [breaksLine, tokenAt, hmem]
  | whitespace =>
    obtain ⟨f, hm, hf⟩ := hclass (by decide)
    obtain rfl : f = nonemptyRun? isSpaceChar := by simpa [classes] using hm
    have hall := (of_runLength_eq (nonemptyRun_eq_some hf).1.le).1
    have hmem : '\n' ∉ x := fun hn => by cases hall _ hn
    simp [breaksLine, tokenAt, hmem]
  | _ => cases hk

namespace Lexes

variable {s t u : Text} {p p' : Place} {ts : List Token}

/-- Tokens that are read from a source are where they say. -/
theorem located (h : Lexes p t ts p' u) (hp : p.Exact s) (ht : s.drop p.offset = t) :
    p'.Exact s ∧ s.drop p'.offset = u ∧ Covers p.offset p'.offset ts ∧
      ∀ k ∈ ts, Located s k ∧ lexeme (s.drop k.start) = .ok (k.kind, k.stop - k.start) := by
  induction h with
  | done => exact ⟨hp, ht, rfl, by simp⟩
  | @token p p' x u r k ts hx hl _ ih =>
    obtain ⟨hnext, hdrop⟩ := hp.foldl ht
    obtain ⟨hp', hr, hcovers, hall⟩ := ih hnext hdrop
    rw [foldl_advance_offset] at hcovers
    have hpos := List.length_pos_iff.mpr hx
    refine ⟨hp', hr, ⟨rfl, by simp only [tokenAt]; omega, hcovers⟩, ?_⟩
    refine List.forall_mem_cons.mpr ⟨⟨⟨?_, hp.line, ?_⟩, ?_⟩, hall⟩
    · simp only [tokenAt]
      rw [Text.slice, ht, Nat.add_sub_cancel_left, List.take_left]
    · simp only [tokenAt, Place.column, hp.lineStart]
      have := Text.lineStart_le s p.offset
      omega
    · simp only [tokenAt, ht, hl, Nat.add_sub_cancel_left]

/-- The flags of the trivia passed so far, from the offset `a` on, are right in front of the next
significant token. -/
theorem spaced (h : Lexes p t ts p' u) (hp : p.Exact s) (ht : s.drop p.offset = t) {a : Nat}
    {newline space : Bool} (ha : a ≤ p.offset) (hs : space = true ↔ a < p.offset)
    (hn : newline = true ↔ '\n' ∈ Text.slice s a p.offset) :
    Spaced s a (significantFrom newline space (ts ++ [tokenAt p' .eof []])) := by
  induction h generalizing a newline space with
  | done => exact ⟨hs, hn, trivial⟩
  | @token p p' x u r k ts hx hl _ ih =>
    obtain ⟨hnext, hdrop⟩ := hp.foldl ht
    have hoffset := foldl_advance_offset p x
    have hpos := List.length_pos_iff.mpr hx
    have ih' := fun {a nl sp} => @ih hnext hdrop a nl sp
    rw [hoffset] at ih'
    rw [List.cons_append, significantFrom]
    cases hk : k.isTrivia with
    | true =>
      rw [if_pos (by exact hk)]
      refine ih' (by omega) (by simp; omega) ?_
      have hx' : Text.slice s p.offset (p.offset + x.length) = x := by
        rw [Text.slice, ht, Nat.add_sub_cancel_left, List.take_left]
      have hsplit : Text.slice s a (p.offset + x.length) = Text.slice s a p.offset ++ x := by
        rw [← slice_append_slice ha (Nat.le_add_right _ _), hx']
      rw [Bool.or_eq_true, hn, breaksLine_iff p hk hl, hsplit, List.mem_append]
    | false =>
      rw [if_neg (by simp [tokenAt, hk])]
      refine ⟨hs, hn, ?_⟩
      simp only [tokenAt]
      exact ih' le_rfl (by simp) (by simp [Text.slice])

theorem unspaced_eq (h : Lexes p t ts p' u) : ∀ k ∈ ts, k.unspaced = k := by
  induction h with
  | done => simp
  | token _ _ _ ih => exact List.forall_mem_cons.mpr ⟨rfl, ih⟩

end Lexes

/-- Tokens that take up all between two offsets read what stands there. -/
theorem Covers.flatMap_text {s : Text} {a b : Nat} {ts : List Token} (h : Covers a b ts)
    (hts : ∀ t ∈ ts, Located s t) : a ≤ b ∧ ts.flatMap Token.text = Text.slice s a b := by
  induction ts generalizing a with
  | nil =>
    obtain rfl := h
    simp [Text.slice]
  | cons t ts ih =>
    obtain ⟨rfl, hlt, hrest⟩ := h
    obtain ⟨hle, htext⟩ := ih hrest fun u hu => hts u (by simp [hu])
    refine ⟨hlt.le.trans hle, ?_⟩
    rw [List.flatMap_cons, htext, (hts t (by simp)).text, slice_append_slice hlt.le hle]

/-- Apart from what they tell of the tokens before them, the significant tokens are those that are no
trivia. -/
theorem significantFrom_unspaced (newline space : Bool) (ts : List Token) :
    (significantFrom newline space ts).map unspaced =
      (ts.filter fun t => !t.kind.isTrivia).map unspaced := by
  induction ts generalizing newline space with
  | nil => rfl
  | cons t ts ih =>
    rw [significantFrom]
    cases hk : t.kind.isTrivia <;> simp [hk, ih, unspaced]

/-- The tokens of a text take up all of it and are where they say; the last is the end of the text. -/
theorem tokenize_located {s : Text} {ts : List Token} (h : tokenize s = .ok ts) :
    ∃ us e, ts = us ++ [e] ∧ (e.kind = .eof ∧ e.text = [] ∧ e.start = s.length ∧ e.stop = s.length) ∧
      Covers 0 s.length us ∧ (∀ u ∈ us, lexeme (s.drop u.start) = .ok (u.kind, u.stop - u.start)) ∧
      (∀ t ∈ us ++ [e], t.unspaced = t ∧ Located s t) ∧ Spaced s 0 (significant (us ++ [e])) := by
  obtain ⟨us, p, rfl, hlexes⟩ := (tokensFrom_lexes {} s).1 ts h
  obtain ⟨hp, hdrop, hcovers, hall⟩ := hlexes.located (.start s) rfl
  have hend : p.offset = s.length := hp.le.antisymm (List.drop_eq_nil_iff.mp hdrop)
  rw [hend] at hcovers
  refine ⟨us, tokenAt p .eof [], rfl, ⟨rfl, rfl, hend, hend⟩, hcovers, fun u hu => (hall u hu).2, ?_,
    hlexes.spaced (.start s) rfl le_rfl (by simp) (by simp [Text.slice])⟩
  refine List.forall_mem_append.mpr ⟨fun t ht => ⟨hlexes.unspaced_eq t ht, (hall t ht).1⟩,
    List.forall_mem_singleton.mpr ⟨rfl, ?_, hp.line, ?_⟩⟩
  · simp [tokenAt, Text.slice]
  · simp only [tokenAt, Place.column, hp.lineStart]
    have := Text.lineStart_le s p.offset
    omega

/-- The significant tokens of a text are those that are no trivia. -/
theorem significant_unspaced {s : Text} {ts : List Token} (h : tokenize s = .ok ts) :
    (significant ts).map unspaced = ts.filter fun t => !t.kind.isTrivia := by
  obtain ⟨us, e, rfl, -, -, -, hall, -⟩ := tokenize_located h
  rw [significant, significantFrom_unspaced]
  exact (List.map_congr_left (g := id) fun t ht => (hall t (List.mem_of_mem_filter ht)).1).trans
    (List.map_id _)

/-- The significant tokens of a text are where they say. -/
theorem significant_located {s : Text} {ts : List Token} (h : tokenize s = .ok ts) :
    ∀ t ∈ significant ts, Located s t := by
  obtain ⟨us, e, rfl, -, -, -, hall, -⟩ := tokenize_located h
  intro t ht
  have hmem : t.unspaced ∈ ((us ++ [e]).filter fun u => !u.kind.isTrivia).map unspaced := by
    rw [← significantFrom_unspaced false false]
    exact List.mem_map_of_mem ht
  obtain ⟨u, hu, heq⟩ := List.mem_map.mp hmem
  obtain ⟨huu, hlocated⟩ := hall u (List.mem_of_mem_filter hu)
  obtain ⟨htext, hline, hcolumn⟩ := heq ▸ huu.symm ▸ hlocated
  exact ⟨htext, hline, hcolumn⟩

/-- The tokens `us` and the end token `e` are what a text consists of. They take up all of it without
a gap or an overlap, and each of `us` is the lexeme that stands at its start. All of them know their
text, line and column. A significant token knows as well whether there is anything between it and the
one before it, and whether a line end is. -/
structure Reading (s : Text) (us : List Token) (e : Token) : Prop where
  last : e.kind = .eof ∧ e.text = [] ∧ e.start = s.length ∧ e.stop = s.length
  covers : Covers 0 s.length us
  text : us.flatMap Token.text = s
  lexemes : ∀ u ∈ us, u.kind ≠ .eof ∧ lexeme (s.drop u.start) = .ok (u.kind, u.stop - u.start)
  located : ∀ t ∈ us ++ [e], Located s t
  spaced : Spaced s 0 (Token.significant (us ++ [e]))
  significant : (Token.significant (us ++ [e])).map unspaced =
    (us ++ [e]).filter fun t => !t.kind.isTrivia

/-- Tokenizing loses nothing of the text. -/
theorem tokenize_lossless {s : Text} {ts : List Token} (h : tokenize s = .ok ts) :
    ∃ us e, ts = us ++ [e] ∧ Reading s us e := by
  obtain ⟨us, e, rfl, hlast, hcovers, hlexemes, hall, hspaced⟩ := tokenize_located h
  refine ⟨us, e, rfl, hlast, hcovers, ?_, fun u hu => ⟨lexeme_ne_eof (hlexemes u hu), hlexemes u hu⟩,
    fun t ht => (hall t ht).2, hspaced, significant_unspaced h⟩
  rw [(hcovers.flatMap_text fun t ht => (hall t (List.mem_append_left _ ht)).2).2]
  simp [Text.slice]

/-- A comment and a string literal of two lines each: the name behind them stands in line 3. -/
theorem tokenize_lossless_lines : ∃ us e,
    tokenize "/* /*\n*/ */\"\"\"\n\"\"\"x".toList = .ok (us ++ [e]) ∧
      Reading "/* /*\n*/ */\"\"\"\n\"\"\"x".toList us e ∧
      us.map (fun t => (t.line, t.column)) = [(1, 0), (2, 5), (3, 3)] := by
  have hts : tokenize "/* /*\n*/ */\"\"\"\n\"\"\"x".toList = .ok
      [⟨.comment, "/* /*\n*/ */".toList, 1, 0, 0, 11, false, false⟩,
        ⟨.string, "\"\"\"\n\"\"\"".toList, 2, 5, 11, 18, false, false⟩,
        ⟨.identifier, ['x'], 3, 3, 18, 19, false, false⟩,
        ⟨.eof, [], 3, 4, 19, 19, false, false⟩] := by
    rfl
  obtain ⟨us, e, heq, hreading⟩ := tokenize_lossless hts
  refine ⟨us, e, heq ▸ hts, hreading, ?_⟩
  have hus : (us ++ [e]).dropLast = us := List.dropLast_concat
  rw [← hus, ← heq]
  rfl

end Token

end SwiftMacros
