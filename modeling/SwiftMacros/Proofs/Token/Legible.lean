import Mathlib
import SwiftMacros.Proofs.Text.LineEnds
import SwiftMacros.Proofs.Token.Laid

/-! Texts that are made of whole lexemes, so that they can be put together with others. A legible
text keeps its lexemes in front of a stop. A sturdy one keeps them in front of marks and members as
well: it ends with marks that count for themselves, or with no operator. -/

namespace SwiftMacros.Token

/-- A text that can be read to its end. -/
def Legible (t : Text) : Prop := ∃ ls, Reads t ls []

section Legible

variable {t u r : Text} {ls ms : List Word}

theorem Reads.before (h : Reads t ls []) (hr : Stops r) (hq : r.head? ≠ some '"') :
    Reads (t ++ r) ls r :=
  h.append (by simp) (.inl (hr.apart t)) fun h => absurd h hq

/-- White space keeps a text apart from anything behind it. -/
theorem Reads.before_gap (h : Reads t ls []) {c : Char} (hc : isGap c = true) (u : Text) :
    Reads (t ++ c :: u) ls u := by
  have hstop := stops_cons (t := u) (isStop_of_isBlank (isBlank_of_isGap hc))
  have hquote : (c :: u).head? ≠ some '"' := by
    rw [List.head?_cons, ne_eq, Option.some.injEq]
    rintro rfl
    cases hc
  simpa using (h.before hstop hquote).trans (.of_gaps (w := [c]) (by simpa using hc) u)

/-- Two texts read one after the other, of which the second starts with a stop. -/
theorem Reads.then (h : Reads t ls []) (h' : Reads u ms []) (hu : Stops u)
    (hq : u.head? ≠ some '"') : Reads (t ++ u) (ls ++ ms) [] :=
  (h.before hu hq).trans h'

/-- A text without slashes holds no comment, so that its lexemes are all of it. -/
theorem reads_of_words (h : words t = .ok ls) (ht : '/' ∉ t) : Reads t ls [] := by
  obtain ⟨r, hr, rfl | ⟨x, -, rfl⟩⟩ := words_eq_ok_iff.mp h
  · exact hr
  · exact absurd (hr.suffix.subset (by simp [lineComment])) ht

theorem words_of_reads (h : Reads t ls []) : words t = .ok ls :=
  words_eq_ok_iff.mpr ⟨[], h, .inl rfl⟩

end Legible

section Marks

theorem isOperatorChar_of_isMarkChar {c : Char} (h : isMarkChar c = true) :
    isOperatorChar c = true := by
  simp only [isMarkChar, Bool.or_eq_true, beq_iff_eq] at h
  rcases h with ((rfl | rfl) | rfl) | rfl <;> decide

theorem lexeme_marks {y r : Text} (hy : ∀ c ∈ y, isMarkChar c = true) (hne : y ≠ [])
    (hr : ∀ c ∈ r.head?, isOperatorChar c = false) :
    lexeme (y ++ r) = .ok (.operator, y.length) := by
  have hrun : runLength isOperatorChar (y ++ r) = y.length := by
    rw [runLength_stop hr, runLength, List.takeWhile_eq_self_iff.mpr]
    exact fun d hd => isOperatorChar_of_isMarkChar (hy d hd)
  obtain ⟨c, y, rfl⟩ := List.exists_cons_of_ne_nil hne
  have hc := hy c (by simp)
  have hend : isEnd c = true := by simp [isEnd, hc]
  simp only [isMarkChar, Bool.or_eq_true, beq_iff_eq] at hc
  have hfirst : firstOf openClasses (c :: y ++ r) = some (.operator, (c :: y).length) := by
    rw [List.cons_append, firstOf_openClasses_end hend (by rcases hc with ((rfl | rfl) | rfl) | rfl <;> decide),
      ← List.cons_append, nonemptyRun?, hrun, if_neg]
    · rfl
    · rcases hc with ((rfl | rfl) | rfl) | rfl <;> decide
  refine lexeme_of_simple (Quoting.opens?_eq_none ?_ ?_ _) ?_ ?_
  · rcases hc with ((rfl | rfl) | rfl) | rfl <;> decide
  · rcases hc with ((rfl | rfl) | rfl) | rfl <;> decide
  · rcases hc with ((rfl | rfl) | rfl) | rfl <;> rfl
  · rw [List.cons_append, simpleLexeme_eq, ← List.cons_append, hfirst] <;>
      rcases hc with ((rfl | rfl) | rfl) | rfl <;> first | decide | rfl

theorem reads_marks {y r : Text} (hy : ∀ c ∈ y, isMarkChar c = true) (hne : y ≠ [])
    (hr : ∀ c ∈ r.head?, isOperatorChar c = false) : Reads (y ++ r) [(.operator, y)] r :=
  .chunk (.lexeme (lexeme_marks hy hne hr) rfl) (.done r)

end Marks

section Symbols

variable {c : Char} (hc : isSymbolChar c = true)
include hc

theorem isStop_of_isSymbolChar : isStop c = true := by
  simp only [isSymbolChar, List.contains_iff_mem] at hc
  simp at hc
  rcases hc with rfl | rfl | rfl | rfl | rfl | rfl | rfl | rfl | rfl <;> decide

theorem lexeme_of_symbol (t : Text) : lexeme (c :: t) = .ok (.symbol, 1) := by
  have hend := isEnd_of_isStop (isStop_of_isSymbolChar hc)
  have hfirst := fun hne => firstOf_openClasses_end hend hne t
  simp only [hc, if_true] at hfirst
  simp only [isSymbolChar, List.contains_iff_mem] at hc
  simp at hc
  refine lexeme_of_simple (Quoting.opens?_eq_none ?_ ?_ _) ?_ ?_
  · rcases hc with rfl | rfl | rfl | rfl | rfl | rfl | rfl | rfl | rfl <;> decide
  · rcases hc with rfl | rfl | rfl | rfl | rfl | rfl | rfl | rfl | rfl <;> decide
  · rcases hc with rfl | rfl | rfl | rfl | rfl | rfl | rfl | rfl | rfl <;> rfl
  · rw [simpleLexeme_eq, hfirst] <;>
      rcases hc with rfl | rfl | rfl | rfl | rfl | rfl | rfl | rfl | rfl <;> first | decide | rfl

theorem reads_symbol (r : Text) : Reads (c :: r) [(.symbol, [c])] r :=
  .chunk (x := [c]) (.lexeme (lexeme_of_symbol hc r) rfl) (.done r)

end Symbols

section Together

variable {t : Text}

theorem Legible.nil : Legible [] := ⟨[], .done []⟩

theorem Legible.of_words {w : List Word} (h : words t = .ok w) (ht : '/' ∉ t) : Legible t :=
  ⟨w, reads_of_words h ht⟩

theorem Legible.then {u : Text} (h : Legible t) (h' : Legible u) (hu : Stops u)
    (hq : u.head? ≠ some '"') : Legible (t ++ u) := by
  obtain ⟨ls, hls⟩ := h
  obtain ⟨ms, hms⟩ := h'
  exact ⟨_, hls.then hms hu hq⟩

theorem Legible.gap {c : Char} (hc : isGap c = true) (h : Legible t) : Legible (c :: t) := by
  obtain ⟨ls, hls⟩ := h
  exact ⟨ls, (Reads.of_gaps (w := [c]) (by simpa using hc) t).trans hls⟩

theorem Legible.symbol {c : Char} (hc : isSymbolChar c = true) (h : Legible t) :
    Legible (c :: t) := by
  obtain ⟨ls, hls⟩ := h
  exact ⟨_, (reads_symbol hc t).trans hls⟩

theorem isSymbolChar_ne_quote {c : Char} (hc : isSymbolChar c = true) : c ≠ '"' := by
  rintro rfl
  cases hc

/-- A legible text in front of a symbol. -/
theorem Legible.then_symbol {u : Text} {c : Char} (hc : isSymbolChar c = true) (h : Legible t)
    (hu : Legible u) : Legible (t ++ c :: u) :=
  h.then (hu.symbol hc) (stops_cons (isStop_of_isSymbolChar hc))
    (by simpa using isSymbolChar_ne_quote hc)

/-- A legible text in brackets. -/
theorem Legible.enclose {c d : Char} (hc : isSymbolChar c = true) (hd : isSymbolChar d = true)
    (h : Legible t) : Legible (c :: t ++ [d]) :=
  (h.symbol hc).then_symbol hd .nil

theorem Legible.join {l : List Text} (h : ∀ t ∈ l, Legible t) :
    Legible (Text.join ", ".toList l) := by
  induction l with
  | nil => exact .nil
  | cons t ts ih =>
    have ht := h t (by simp)
    cases ts with
    | nil => exact ht
    | cons u ts =>
      have hrest := ih fun v hv => h v (by simp [hv])
      rw [Text.join, List.append_assoc]
      exact ht.then_symbol (c := ',') rfl (hrest.gap (c := ' ') rfl)

end Together

/-- A legible text that has a carriage return only if the other text has one. -/
structure LegibleIn (s t : Text) : Prop where
  legible : Legible t
  flat : '\r' ∉ s → '\r' ∉ t

namespace LegibleIn

variable {s t u : Text}

theorem of_words {w : List Word} (h : words t = .ok w) (ht : '/' ∉ t) (hr : '\r' ∉ t) :
    LegibleIn s t := ⟨.of_words h ht, fun _ => hr⟩

theorem space (h : LegibleIn s t) : LegibleIn s (' ' :: t) :=
  ⟨h.legible.gap rfl, fun hs => by simpa using h.flat hs⟩

theorem then_symbol {c : Char} (hc : isSymbolChar c = true) (h : LegibleIn s t)
    (hu : LegibleIn s u) : LegibleIn s (t ++ c :: u) := by
  refine ⟨h.legible.then_symbol hc hu.legible, fun hs => ?_⟩
  have hne : '\r' ≠ c := by
    rintro rfl
    cases hc
  simpa [hne] using ⟨h.flat hs, hu.flat hs⟩

theorem enclose {c d : Char} (hc : isSymbolChar c = true) (hd : isSymbolChar d = true)
    (h : LegibleIn s t) : LegibleIn s (c :: t ++ [d]) := by
  have hnil : LegibleIn s [] := ⟨.nil, by simp⟩
  exact (hnil.then_symbol hc h).then_symbol hd hnil

theorem join {l : List Text} (h : ∀ t ∈ l, LegibleIn s t) :
    LegibleIn s (Text.join ", ".toList l) := by
  refine ⟨.join fun t ht => (h t ht).legible, fun hs => ?_⟩
  exact Text.not_mem_join (by decide) fun t ht => (h t ht).flat hs

end LegibleIn

/-- A text that is read up to the marks at its end; if it has none, it ends with no operator. -/
def Sturdy (t : Text) : Prop :=
  ∃ u y ls, t = u ++ y ∧ (∀ c ∈ y, isMarkChar c = true) ∧ Reads t ls y ∧
    (y = [] → ∀ d ∈ u.getLast?, isOperatorChar d = false ∧ d ≠ '.')

namespace Sturdy

variable {t : Text}

/-- The lexemes of a sturdy text stand in front of anything that no name goes on with. -/
theorem split (h : Sturdy t) : ∃ u y ls, t = u ++ y ∧ (∀ c ∈ y, isMarkChar c = true) ∧
    (y = [] → ∀ d ∈ u.getLast?, isOperatorChar d = false ∧ d ≠ '.') ∧
    ∀ r, Free r → r.head? ≠ some '"' → Reads (t ++ r) ls (y ++ r) := by
  obtain ⟨u, y, ls, rfl, hy, hread, hlast⟩ := h
  refine ⟨u, y, ls, rfl, hy, hlast, fun r hr hq => ?_⟩
  rw [List.append_assoc]
  cases y with
  | nil =>
    rw [List.append_nil] at hread
    refine hread.append (by simp) (.inl ⟨hr, fun c hc d hd => ?_⟩) fun h => absurd h hq
    have := hlast rfl d hd
    exact ⟨fun _ => this, fun _ => this.2⟩
  | cons c y =>
    have hc := hy c (by simp)
    exact hread.append rfl (.inr ⟨c, hc, rfl, rfl⟩) id

theorem legible (h : Sturdy t) : Legible t := by
  obtain ⟨u, y, ls, -, hy, -, hread⟩ := h.split
  have hread := hread [] stops_nil.free (by simp)
  rw [List.append_nil, List.append_nil] at hread
  rcases eq_or_ne y [] with rfl | hne
  · exact ⟨ls, hread⟩
  · exact ⟨_, hread.trans (by simpa using reads_marks (r := []) hy hne (by simp))⟩

theorem of_legible (h : Legible t)
    (hlast : ∀ d ∈ t.getLast?, isOperatorChar d = false ∧ d ≠ '.') : Sturdy t := by
  obtain ⟨ls, hls⟩ := h
  exact ⟨t, [], ls, (List.append_nil t).symm, by simp, hls, fun _ => hlast⟩

/-- A legible text in brackets is sturdy. -/
theorem enclose {c d : Char} (hc : isSymbolChar c = true) (hd : isSymbolChar d = true)
    (h : Legible t) : Sturdy (c :: t ++ [d]) := by
  refine of_legible (h.enclose hc hd) fun e he => ?_
  rw [List.getLast?_concat, Option.mem_some_iff] at he
  subst he
  simp only [isSymbolChar, List.contains_iff_mem] at hd
  simp at hd
  rcases hd with rfl | rfl | rfl | rfl | rfl | rfl | rfl | rfl | rfl <;> decide

/-- Lexemes can be put in front of a sturdy text. -/
theorem prepend (h : Sturdy t) {x : Text} {ls : List Word} (hx : Reads (x ++ t) ls t)
    (hne : t = [] → ∀ d ∈ x.getLast?, isOperatorChar d = false ∧ d ≠ '.') : Sturdy (x ++ t) := by
  obtain ⟨u, y, ms, rfl, hy, hread, hlast⟩ := h
  refine ⟨x ++ u, y, ls ++ ms, by simp, hy, hx.trans hread, fun hnil d hd => ?_⟩
  subst hnil
  rw [List.append_nil] at hne
  rcases eq_or_ne u [] with rfl | hu
  · rw [List.append_nil] at hd
    exact hne rfl d hd
  · rw [List.getLast?_append_of_ne_nil _ hu] at hd
    exact hlast rfl d hd

/-- A mark can be put behind a sturdy text. -/
theorem mark (h : Sturdy t) {c : Char} (hc : isMarkChar c = true) : Sturdy (t ++ [c]) := by
  obtain ⟨u, y, ls, rfl, hy, -, hread⟩ := h.split
  refine ⟨u, y ++ [c], ls, by simp, ?_, hread [c] ?_ ?_, by simp⟩
  · simpa [or_imp, forall_and, hc] using hy
  · rintro d s hd
    cases hd
    exact .inr (.inl hc)
  · rw [List.head?_cons, ne_eq, Option.some.injEq]
    rintro rfl
    cases hc

/-- A member can be put behind a sturdy text if its name starts no number. -/
theorem member (h : Sturdy t) {x : Text} {ms : List Word} (hx : Reads ('.' :: x) ms [])
    (hfree : Pointless x) (hlast : ∀ d ∈ x.getLast?, isOperatorChar d = false ∧ d ≠ '.')
    (hne : x ≠ []) : Sturdy (t ++ '.' :: x) := by
  obtain ⟨u, y, ls, rfl, hy, -, hread⟩ := h.split
  have hpoint : Free ('.' :: x) := by
    rintro d s hd
    cases hd
    exact .inr (.inr ⟨rfl, hfree⟩)
  have hmarks : ∃ ns, Reads (y ++ '.' :: x) ns ('.' :: x) := by
    rcases eq_or_ne y [] with rfl | hne
    · exact ⟨[], .done _⟩
    · exact ⟨_, reads_marks hy hne (by simp [isOperatorChar])⟩
  obtain ⟨ns, hns⟩ := hmarks
  refine ⟨u ++ y ++ '.' :: x, [], _, by simp, by simp,
    (hread _ hpoint (by simp)).trans (hns.trans hx), fun _ d hd => hlast d ?_⟩
  rwa [List.getLast?_append_of_ne_nil _ (by simp), List.getLast?_cons_of_ne_nil hne] at hd

end Sturdy

end SwiftMacros.Token
