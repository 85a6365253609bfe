import Mathlib
import SwiftMacros.Proofs.Token.Legible
import SwiftMacros.Cursor

/-! Token lists that fit their source. Each token stands where a lexeme of the source stands, except
that marks can be split off the front of an operator; two tokens that follow each other have white
space and comments between them, or nothing where an operator has been split. -/

namespace SwiftMacros

open Token (Word Reads lexeme isMarkChar)

/-- An offset up to which a source is read lexeme by lexeme. -/
def Cut (s : Text) (a : Nat) : Prop := a ≤ s.length ∧ ∃ ls, Reads s ls (s.drop a)

/-- A cut, or an offset behind some marks at the front of an operator. -/
def Brink (s : Text) (a : Nat) : Prop :=
  ∃ p, p ≤ a ∧ Cut s p ∧ ∀ c ∈ Text.slice s p a, isMarkChar c = true

theorem cut_zero (s : Text) : Cut s 0 := ⟨Nat.zero_le _, [], .done _⟩

theorem Cut.brink {s : Text} {a : Nat} (h : Cut s a) : Brink s a :=
  ⟨a, le_rfl, h, by simp [Text.slice]⟩

theorem Cut.of_reads {s : Text} {a b : Nat} {ls : List Word} (h : Cut s a) (hb : b ≤ s.length)
    (hr : Reads (s.drop a) ls (s.drop b)) : Cut s b := by
  obtain ⟨-, ms, hm⟩ := h
  exact ⟨hb, _, hm.trans hr⟩

/-- Between two cuts the source is read lexeme by lexeme. -/
theorem Cut.reads {s : Text} {a b : Nat} (ha : Cut s a) (hb : Cut s b) (hab : a ≤ b) :
    ∃ ls, Reads (s.drop a) ls (s.drop b) := by
  obtain ⟨hla, ms, hm⟩ := ha
  obtain ⟨hlb, ns, hn⟩ := hb
  obtain ⟨ls, -, hls⟩ := hm.between hn (by simp only [List.length_drop]; omega)
  exact ⟨ls, hls⟩

theorem slice_append_drop {s : Text} {a b : Nat} (hab : a ≤ b) :
    Text.slice s a b ++ s.drop b = s.drop a := by
  rw [Text.slice, show s.drop b = (s.drop a).drop (b - a) by rw [List.drop_drop]; congr 1; omega,
    List.take_append_drop]

theorem slice_length {s : Text} {a b : Nat} (_ : b ≤ s.length) :
    (Text.slice s a b).length = b - a := by
  rw [Text.slice, List.length_take, List.length_drop]
  omega

theorem slice_append_slice {s : Text} {a b c : Nat} (hab : a ≤ b) (hbc : b ≤ c) :
    Text.slice s a b ++ Text.slice s b c = Text.slice s a c := by
  rw [Text.slice, Text.slice, Text.slice, show c - a = (b - a) + (c - b) by omega, List.take_add,
    List.drop_drop, show a + (b - a) = b by omega]

namespace Token

/-- The token stands in the source. Only an operator can be less than a lexeme. -/
structure Placed (s : Text) (t : Token) : Prop where
  lt : t.start < t.stop
  le : t.stop ≤ s.length
  text : t.text = Text.slice s t.start t.stop
  significant : t.kind.isTrivia = false
  ne_eof : t.kind ≠ .eof
  brink_start : Brink s t.start
  brink_stop : Brink s t.stop
  whole : t.kind ≠ .operator → Cut s t.start ∧
    lexeme (s.drop t.start) = .ok (t.kind, t.stop - t.start)
  sharp : t.kind = .operator → ∀ c ∈ t.text, Token.isOperatorChar c = true ∨ c = '.'

/-- What stands between two tokens that follow each other. -/
def Joint (s : Text) (t u : Token) : Prop :=
  (t.stop ≤ u.start ∧ Cut s t.stop ∧ Reads (s.drop t.stop) [] (s.drop u.start)) ∨
  (t.stop = u.start ∧ t.kind = .operator ∧ u.kind = .operator ∧ u.newlineBefore = false ∧
    ∃ c, isMarkChar c = true ∧ t.text = [c])

namespace Placed

variable {s : Text} {t : Token}

theorem length (h : Placed s t) : t.text.length = t.stop - t.start := by
  rw [h.text, slice_length h.le]

theorem not_mem_text (h : Placed s t) {c : Char} (hc : c ∉ s) : c ∉ t.text :=
  h.text ▸ Text.not_mem_slice hc _ _

theorem drop_eq (h : Placed s t) : s.drop t.start = t.text ++ s.drop t.stop := by
  rw [h.text, slice_append_drop h.lt.le]

theorem reads (h : Placed s t) (hk : t.kind ≠ .operator) :
    Reads (s.drop t.start) [t.word] (s.drop t.stop) := by
  have hl := (h.whole hk).2
  rw [h.drop_eq, ← h.length] at hl
  rw [h.drop_eq]
  exact .chunk (.lexeme hl h.significant) (.done _)

theorem cut_stop (h : Placed s t) (hk : t.kind ≠ .operator) : Cut s t.stop :=
  (h.whole hk).1.of_reads h.le (h.reads hk)

theorem text_ne_nil (h : Placed s t) : t.text ≠ [] := by
  apply List.ne_nil_of_length_pos
  have := h.lt
  rw [h.length]
  omega

theorem lexeme_text (h : Placed s t) (hk : t.kind ≠ .operator) :
    lexeme (t.text ++ s.drop t.stop) = .ok (t.kind, t.text.length) := by
  rw [← h.drop_eq, h.length]
  exact (h.whole hk).2

/-- No token starts or ends with white space. -/
theorem not_blank (h : Placed s t) {c : Char} (hc : t.text.head? = some c ∨ t.text.getLast? = some c) :
    Text.isBlank c = false := by
  by_cases hk : t.kind = .operator
  · have hmem : c ∈ t.text := by
      rcases hc with hc | hc
      · exact List.mem_of_mem_head? hc
      · exact List.mem_of_mem_getLast? hc
    by_contra hb
    rw [Bool.not_eq_false] at hb
    rcases h.sharp hk c hmem with hop | rfl
    · simp [isOperatorChar_of_isStop (isStop_of_isBlank hb)] at hop
    · cases hb
  · have hl := h.lexeme_text hk
    rcases hc with hc | hc
    · obtain ⟨x, hx⟩ := List.head?_eq_some_iff.mp hc
      rw [hx, List.cons_append] at hl
      exact lexeme_first hl h.significant
    · exact lexeme_last hl h.significant hc

/-- A token that reads as a symbol is one. -/
theorem kind_of_symbol (h : Placed s t) {c : Char} (hc : isSymbolChar c = true) (ht : t.text = [c]) :
    t.kind = .symbol := by
  by_cases hk : t.kind = .operator
  · have := h.sharp hk c (by simp [ht])
    simp only [isSymbolChar, List.contains_iff_mem] at hc
    simp at hc
    rcases hc with rfl | rfl | rfl | rfl | rfl | rfl | rfl | rfl | rfl <;> simp [isOperatorChar] at this
  · have hl := h.lexeme_text hk
    rw [ht, List.singleton_append, lexeme_of_symbol hc, Except.ok.injEq, Prod.mk.injEq] at hl
    exact hl.1.symm

end Placed

namespace Joint

variable {s : Text} {t u : Token}

theorem le (h : Joint s t u) : t.stop ≤ u.start := by
  rcases h with h | h
  · exact h.1
  · exact h.1.le

/-- Two tokens that are not both operators have a cut between them. -/
theorem reads (h : Joint s t u) (hk : t.kind ≠ .operator ∨ u.kind ≠ .operator) :
    Cut s t.stop ∧ Reads (s.drop t.stop) [] (s.drop u.start) := by
  rcases h with h | ⟨-, ht, hu, -⟩
  · exact h.2
  · simp [ht, hu] at hk

end Joint

end Token

/-- The tokens follow each other in the source from its start on. -/
structure Arranged (s : Text) (ts : List Token) : Prop where
  placed : ∀ t ∈ ts, Token.Placed s t
  joint : ts.IsChain (Token.Joint s)
  first : ∀ t ∈ ts.head?, Reads s [] (s.drop t.start)

namespace Arranged

variable {s : Text} {ts us : List Token} {t u : Token}

theorem joint_of_append (h : Arranged s (ts ++ t :: u :: us)) : Token.Joint s t u := by
  have := h.joint
  rw [List.isChain_append_cons_cons] at this
  exact this.2.1

/-- Tokens stand in the order of the list. -/
theorem pairwise (h : Arranged s ts) : ts.Pairwise fun t u => t.stop ≤ u.start := by
  obtain ⟨hp, hj, -⟩ := h
  induction ts with
  | nil => exact .nil
  | cons t ts ih =>
    have hts := ih (fun u hu => hp u (by simp [hu])) hj.tail
    refine List.pairwise_cons.mpr ⟨?_, hts⟩
    cases ts with
    | nil => simp
    | cons u us =>
      have htu := (List.isChain_cons_cons.mp hj).1.le
      have hlt := (hp u (by simp)).lt
      intro v hv
      rcases List.mem_cons.mp hv with rfl | hv
      · exact htu
      · have := (List.pairwise_cons.mp hts).1 v hv
        omega

end Arranged

namespace Token

/-- Significant tokens that are laid out are arranged. -/
theorem Laid.arranged {s : Text} {ts : List Token} {a : Nat} (h : Laid s a ts) (ha : Cut s a) :
    (∀ t ∈ ts, Placed s t) ∧ ts.IsChain (Joint s) ∧
      ∀ t ∈ ts.head?, Reads (s.drop a) [] (s.drop t.start) ∧ a ≤ t.start := by
  induction h with
  | nil => exact ⟨by simp, .nil, by simp⟩
  | @cons a t ts hr hle hlt hstop htext hl hk hts ih =>
    have hstart := ha.of_reads (by omega) hr
    have hread : Reads (s.drop t.start) [t.word] (s.drop t.stop) := by
      rw [← slice_append_drop hlt.le, ← htext] at hl ⊢
      have hlen : t.text.length = t.stop - t.start := by rw [htext, slice_length hstop]
      rw [← hlen] at hl
      exact .chunk (.lexeme hl hk) (.done _)
    have hcut := hstart.of_reads hstop hread
    obtain ⟨hp, hj, hf⟩ := ih hcut
    have ht : Placed s t :=
      ⟨hlt, hstop, htext, hk, lexeme_ne_eof hl, hstart.brink, hcut.brink, fun _ => ⟨hstart, hl⟩,
        fun hop => lexeme_operator (r := s.drop t.stop) (by
          rw [htext, slice_length hstop, slice_append_drop hlt.le, hl, hop])⟩
    refine ⟨by simpa [ht] using hp, ?_, by simpa using ⟨hr, hle⟩⟩
    cases ts with
    | nil => exact .singleton t
    | cons u us =>
      obtain ⟨hu, hle'⟩ := hf u (by simp)
      exact .cons_cons (.inl ⟨hle', hcut, hu⟩) hj

end Token

namespace Token

/-- The first character of an operator as a token of its own. -/
def front (t : Token) : Token := { t with text := t.text.take 1, stop := t.start + 1 }

/-- What an operator is without its first character. -/
def back (t : Token) : Token :=
  ⟨t.kind, t.text.drop 1, t.line, t.column + 1, t.start + 1, t.stop, false, false⟩

section Split

variable {s : Text} {t : Token} {c : Char} (h : Placed s t) (hc : t.text.head? = some c)
  (hm : isMarkChar c = true) (hlen : 1 < t.text.length)
include h hc

theorem slice_front : Text.slice s t.start (t.start + 1) = [c] := by
  obtain ⟨x, hx⟩ := List.head?_eq_some_iff.mp hc
  have := h.drop_eq
  rw [hx] at this
  simp [Text.slice, this]

omit h in
theorem front_text : t.front.text = [c] := by
  obtain ⟨x, hx⟩ := List.head?_eq_some_iff.mp hc
  simp [front, hx]

include hm in
theorem brink_front : Brink s (t.start + 1) := by
  obtain ⟨p, hp, hcut, hall⟩ := h.brink_start
  refine ⟨p, by omega, hcut, fun d hd => ?_⟩
  rw [← slice_append_slice hp (Nat.le_add_right t.start 1), slice_front h hc] at hd
  rcases List.mem_append.mp hd with hd | hd
  · exact hall d hd
  · simpa [List.mem_singleton.mp hd] using hm

include hm in
theorem placed_front (hk : t.kind = .operator) : Placed s t.front := by
  have hlt := h.lt
  have hle := h.le
  refine ⟨by simp [front], by simp only [front]; omega, ?_, h.significant, h.ne_eof, h.brink_start,
    brink_front h hc hm, fun hne => absurd hk hne,
    fun hk d hd => h.sharp hk d (List.mem_of_mem_take hd)⟩
  rw [front_text hc]
  exact (slice_front h hc).symm

include hm hlen in
theorem placed_back (hk : t.kind = .operator) : Placed s t.back := by
  have hlt := h.length
  refine ⟨by simp only [back]; omega, h.le, ?_, h.significant, h.ne_eof,
    brink_front h hc hm, h.brink_stop, fun hne => absurd hk hne,
    fun hk d hd => h.sharp hk d (List.mem_of_mem_drop hd)⟩
  simp only [back]
  rw [h.text, Text.slice, Text.slice, List.drop_take, List.drop_drop]
  rfl

end Split

end Token

/-- A mark can be split off the front of an operator. -/
theorem Arranged.split {s : Text} {ts us : List Token} {t : Token} {c : Char}
    (h : Arranged s (ts ++ t :: us)) (hk : t.kind = .operator) (hc : t.text.head? = some c)
    (hm : isMarkChar c = true) (hlen : 1 < t.text.length) :
    Arranged s (ts ++ t.front :: t.back :: us) := by
  have ht := h.placed t (by simp)
  have hfront := Token.front_text hc
  refine ⟨fun u hu => ?_, ?_, ?_⟩
  · simp only [List.mem_append, List.mem_cons] at hu
    rcases hu with hu | rfl | rfl | hu
    · exact h.placed u (by simp [hu])
    · exact Token.placed_front ht hc hm hk
    · exact Token.placed_back ht hc hm hlen hk
    · exact h.placed u (by simp [hu])
  · have hj := h.joint
    rw [List.isChain_split] at hj
    rw [List.isChain_append_cons_cons]
    refine ⟨?_, .inr ⟨rfl, hk, hk, rfl, c, hm, hfront⟩, ?_⟩
    · -- the split token starts where the operator did
      rcases List.eq_nil_or_concat ts with rfl | ⟨ts, u, rfl⟩
      · exact .singleton _
      · have h1 := hj.1
        simp only [List.concat_eq_append, List.append_assoc, List.cons_append,
          List.nil_append] at h1 ⊢
        rw [List.isChain_append_cons_cons] at h1 ⊢
        exact ⟨h1.1, h1.2.1, .singleton _⟩
    · cases us with
      | nil => exact .singleton _
      | cons v us =>
        obtain ⟨hv, hrest⟩ := List.isChain_cons_cons.mp hj.2
        refine .cons_cons ?_ hrest
        rcases hv with hv | ⟨-, -, -, -, d, -, hd⟩
        · exact .inl hv
        · simp [hd] at hlen
  · cases ts with
    | nil => simpa [Token.front] using h.first t (by simp)
    | cons u ts => simpa using h.first

end SwiftMacros
