import Mathlib
import SwiftMacros.Proofs.Text.Lines

/-! A block of lines moved to another margin. Each line that is not blank loses the same number of
characters of white space and gets the same indent instead; white space on a blank line goes, or
stays if no line loses any. A lexeme that spans lines has its own lines moved in the same way. A string
literal over several lines has its content between a margin of its own, the white space in front of its
closing delimiter: that is moved too, so that the content stays. -/

namespace SwiftMacros

namespace Text

/-- Something other than white space stands on the first line. -/
def Solid (t : Text) : Prop := ∃ y d z, t = y ++ d :: z ∧ '\n' ∉ y ∧ isBlank d = false

theorem Solid.append {t : Text} (h : t.Solid) (u : Text) : (t ++ u : Text).Solid := by
  obtain ⟨y, d, z, rfl, hy, hd⟩ := h
  exact ⟨y, d, z ++ u, by simp, hy, hd⟩

/-- The front of a text is solid as well if it ends with something other than white space. -/
theorem Solid.front {x y : Text} (h : Solid (x ++ y)) (hne : x ≠ [])
    (hx : ∀ c ∈ x.getLast?, isBlank c = false) : Solid x := by
  obtain ⟨w, d, z, heq, hw, hd⟩ := h
  rcases List.append_eq_append_iff.mp heq with ⟨v, rfl, -⟩ | ⟨v, rfl, hv⟩
  · obtain ⟨x, e, rfl⟩ := (List.eq_nil_or_concat x).resolve_left hne
    rw [List.concat_eq_append] at *
    exact ⟨x, e, [], rfl, fun hmem => hw (by simp [hmem]), hx e (by simp)⟩
  · cases v with
    | nil =>
      rw [List.append_nil] at hne hx ⊢
      obtain ⟨x, e, rfl⟩ := (List.eq_nil_or_concat w).resolve_left hne
      rw [List.concat_eq_append] at *
      exact ⟨x, e, [], rfl, fun hmem => hw (by simp [hmem]), hx e (by simp)⟩
    | cons e v =>
      obtain ⟨rfl, -⟩ := List.cons.inj hv
      exact ⟨w, d, v, rfl, hw, hd⟩

end Text

namespace Token

open Text (isBlank isIndent)

/-- The second text is the first with its lines but the first moved: `m` characters of white space are
taken from the front of each that is not blank, and `g` is put there instead. -/
inductive Moved (m : Nat) (g : Text) : Text → Text → Prop
  | nil : Moved m g [] []
  | char {c : Char} {t u : Text} : c ≠ '\n' → Moved m g t u → Moved m g (c :: t) (c :: u)
  | blank {b b' t u : Text} : (∀ c ∈ b, isBlank c = true ∧ c ≠ '\n') → (b' = [] ∨ m = 0 ∧ b' = b) →
      (∀ c ∈ t.head?, c = '\n') → Moved m g t u → Moved m g ('\n' :: (b ++ t)) ('\n' :: (b' ++ u))
  | line {b t u : Text} : (∀ c ∈ b, isBlank c = true ∧ c ≠ '\n') → b.length = m → t.Solid →
      Moved m g t u → Moved m g ('\n' :: (b ++ t)) ('\n' :: (g ++ u))

/-- A text that ends with something other than white space goes beyond the white space it has behind
its first line end. -/
theorem exists_past_blanks {b x y t : Text} (hb : ∀ c ∈ b, isBlank c = true ∧ c ≠ '\n')
    (hx : ∀ c ∈ ('\n' :: x).getLast?, isBlank c = false) (h : x ++ y = b ++ t) :
    ∃ v, x = b ++ v ∧ t = v ++ y ∧ v ≠ [] ∧ ∀ c ∈ v.getLast?, isBlank c = false := by
  have hsolid : ∀ v : Text, (∀ c ∈ v, isBlank c = true) → x ≠ v := by
    rintro v hv rfl
    rcases List.eq_nil_or_concat x with rfl | ⟨w, e, rfl⟩
    · have hlast := hx '\n' rfl
      cases hlast
    · rw [List.concat_eq_append, ← List.cons_append, List.getLast?_concat] at hx
      have hlast := hx e rfl
      rw [hv e (by simp)] at hlast
      cases hlast
  rcases List.append_eq_append_iff.mp h with ⟨w, rfl, -⟩ | ⟨v, rfl, rfl⟩
  · exact absurd rfl (hsolid x fun c hc => (hb c (by simp [hc])).1)
  · have hne : v ≠ [] := by
      rintro rfl
      exact hsolid b (fun c hc => (hb c hc).1) (List.append_nil b)
    refine ⟨v, rfl, rfl, hne, fun c hc => hx c ?_⟩
    rwa [← List.cons_append, List.getLast?_append_of_ne_nil _ hne]

theorem Relined.of_concat {x u : Text} {d : Char} (hd : isBlank d = false) (h : Relined (x ++ [d]) u) :
    ∃ x', u = x' ++ [d] ∧ Relined x x' := by
  generalize ht : x ++ [d] = t at h
  induction h generalizing x with
  | nil => exact absurd ht (by simp)
  | @char c t u h ih =>
    cases x with
    | nil =>
      obtain ⟨rfl, rfl⟩ := List.cons.inj ht
      cases h
      exact ⟨[], rfl, .nil⟩
    | cons e x =>
      obtain ⟨rfl, rfl⟩ := List.cons.inj ht
      obtain ⟨x', rfl, hx⟩ := ih rfl
      exact ⟨e :: x', rfl, .char e hx⟩
  | @line b g t u hb hg h ih =>
    cases x with
    | nil =>
      obtain ⟨rfl, -⟩ := List.cons.inj ht
      cases hd
    | cons e x =>
      obtain ⟨rfl, hbt⟩ := List.cons.inj ht
      -- the white space ends in front of the last character
      have hsolid : ∀ c ∈ ('\n' :: (x ++ [d])).getLast?, isBlank c = false := by
        rw [← List.cons_append, List.getLast?_concat]
        rintro _ ⟨⟩
        exact hd
      obtain ⟨v, hv, rfl, hne, -⟩ := exists_past_blanks (y := []) hb hsolid
        ((List.append_nil _).trans hbt)
      obtain ⟨v, f, rfl⟩ := (List.eq_nil_or_concat v).resolve_left hne
      rw [List.concat_eq_append, ← List.append_assoc] at hv
      obtain ⟨rfl, hf⟩ := List.append_inj' hv rfl
      obtain ⟨x', rfl, hx⟩ := ih (by rw [hf, List.concat_eq_append, List.append_nil])
      exact ⟨'\n' :: (g ++ x'), by simp, .line hb hg hx⟩

namespace Moved

variable {m : Nat} {g t u x y : Text}

theorem refl_line (hx : '\n' ∉ x) (h : Moved m g t u) : Moved m g (x ++ t) (x ++ u) := by
  induction x with
  | nil => exact h
  | cons c x ih =>
    simp only [List.mem_cons, not_or] at hx
    exact .char (Ne.symm hx.1) (ih hx.2)

theorem of_line (hx : '\n' ∉ x) (h : Moved m g (x ++ y) u) : ∃ v, u = x ++ v ∧ Moved m g y v := by
  induction x generalizing u with
  | nil => exact ⟨u, rfl, h⟩
  | cons c x ih =>
    simp only [List.mem_cons, not_or] at hx
    generalize ht : c :: x ++ y = t at h
    cases h with
    | nil => cases ht
    | char _ h =>
      cases ht
      obtain ⟨v, rfl, hv⟩ := ih hx.2 h
      exact ⟨v, rfl, hv⟩
    | blank | line =>
      obtain ⟨rfl, -⟩ := List.cons.inj ht
      exact absurd rfl hx.1

theorem of_solid (hx : ∀ c ∈ x.getLast?, isBlank c = false) (h : Moved m g (x ++ y) u) :
    ∃ x' y', u = x' ++ y' ∧ Moved m g x x' ∧ Moved m g y y' := by
  generalize ht : x ++ y = t at h
  induction h generalizing x with
  | nil =>
    obtain ⟨rfl, rfl⟩ := List.append_eq_nil_iff.mp ht
    exact ⟨[], [], rfl, .nil, .nil⟩
  | @char c t u hc h ih =>
    cases x with
    | nil =>
      rw [List.nil_append] at ht
      exact ⟨[], c :: u, rfl, .nil, ht ▸ .char hc h⟩
    | cons d x =>
      obtain ⟨rfl, rfl⟩ := List.cons.inj ht
      have hlast : ∀ e ∈ x.getLast?, isBlank e = false := by
        intro e he
        refine hx e ?_
        rw [List.getLast?_cons_of_ne_nil (by rintro rfl; simp at he)]
        exact he
      obtain ⟨x', y', rfl, hx', hy'⟩ := ih hlast rfl
      exact ⟨d :: x', y', rfl, .char hc hx', hy'⟩
  | @blank b b' t u hb hb' hhead h ih =>
    cases x with
    | nil =>
      rw [List.nil_append] at ht
      exact ⟨[], _, rfl, .nil, ht ▸ .blank hb hb' hhead h⟩
    | cons d x =>
      obtain ⟨rfl, hbt⟩ := List.cons.inj ht
      obtain ⟨v, rfl, rfl, hne, hv⟩ := exists_past_blanks hb hx hbt
      obtain ⟨v', y', rfl, hv', hy'⟩ := ih hv rfl
      refine ⟨'\n' :: (b' ++ v'), y', by simp, .blank hb hb' (fun c hc => hhead c ?_) hv', hy'⟩
      rwa [List.head?_append_of_ne_nil _ hne]
  | @line b t u hb hlen hsolid h ih =>
    cases x with
    | nil =>
      rw [List.nil_append] at ht
      exact ⟨[], _, rfl, .nil, ht ▸ .line hb hlen hsolid h⟩
    | cons d x =>
      obtain ⟨rfl, hbt⟩ := List.cons.inj ht
      obtain ⟨v, rfl, rfl, hne, hv⟩ := exists_past_blanks hb hx hbt
      obtain ⟨v', y', rfl, hv', hy'⟩ := ih hv rfl
      exact ⟨'\n' :: (g ++ v'), y', by simp, .line hb hlen (hsolid.front hne hv) hv', hy'⟩

theorem newline (h : Moved m g t u) : Moved m g (t ++ ['\n']) (u ++ ['\n']) := by
  induction h with
  | nil =>
    have hhead : ∀ c ∈ ([] : Text).head?, c = '\n' := by simp
    simpa using Moved.blank (m := m) (g := g) (by simp) (.inl rfl) hhead .nil
  | char hc _ ih => exact .char hc ih
  | @blank b b' t u hb hb' hhead _ ih =>
    have hhead' : ∀ c ∈ (t ++ ['\n']).head?, c = '\n' := by
      cases t with
      | nil => simp
      | cons c t => exact hhead
    simpa using Moved.blank hb hb' hhead' ih
  | line hb hlen hsolid _ ih => simpa using Moved.line hb hlen (hsolid.append ['\n']) ih

theorem relined (hg : ∀ c ∈ g, isIndent c = true) (h : Moved m g t u) : Relined t u := by
  induction h with
  | nil => exact .nil
  | char _ _ ih => exact .char _ ih
  | @blank b b' t u hb hb' _ _ ih =>
    rcases hb' with rfl | ⟨-, rfl⟩
    · exact .line hb (by simp) ih
    · exact .char '\n' ((Relined.refl b').append ih)
  | line hb _ _ _ ih => exact .line hb hg ih

theorem mover (hg : ∀ c ∈ g, isIndent c = true) : Mover (Moved m g) where
  relined := relined hg
  of_line := of_line
  line := refl_line
  of_newline {y u} h := by
    generalize hy : '\n' :: y = t at h
    cases h with
    | nil => cases hy
    | char hc =>
      obtain ⟨rfl, -⟩ := List.cons.inj hy
      exact absurd rfl hc
    | @blank b b' t u hb hb' hhead h =>
      obtain rfl : y = b ++ t := (List.cons.inj hy).2
      rcases hb' with rfl | ⟨-, rfl⟩
      · exact ⟨b, [], t, u, rfl, rfl, hb, by simp, h⟩
      · exact ⟨[], [], b' ++ t, b' ++ u, rfl, rfl, by simp, by simp,
          h.refl_line fun hmem => (hb _ hmem).2 rfl⟩
    | @line b t u hb _ _ h =>
      obtain rfl : y = b ++ t := (List.cons.inj hy).2
      exact ⟨b, g, t, u, rfl, rfl, hb, hg, h⟩
  newline := newline
  of_solid := of_solid

/-- In front of a character that is not white space a text can be cut. -/
theorem of_solid_cons {d : Char} (hg : ∀ c ∈ g, isIndent c = true) (hd : isBlank d = false)
    (h : Moved m g (x ++ d :: y) u) : ∃ x' y', u = x' ++ d :: y' ∧ Relined x x' ∧
      Moved m g (d :: y) (d :: y') := by
  rw [← List.singleton_append, ← List.append_assoc] at h
  obtain ⟨w, y', rfl, hw, hy⟩ := h.of_solid (by simpa using hd)
  obtain ⟨x', rfl, hx⟩ := (hw.relined hg).of_concat hd
  have hline : d ≠ '\n' := by
    rintro rfl
    cases hd
  exact ⟨x', y', by simp, hx, .char hline hy⟩

end Moved

/-- What a line becomes that is moved. -/
def LineMoved (m : Nat) (g l l' : Text) : Prop :=
  (∀ c ∈ l, isBlank c = true) ∧ (l' = [] ∨ m = 0 ∧ l' = l) ∨
    ∃ b z, l = b ++ z ∧ l' = g ++ z ∧ (∀ c ∈ b, isBlank c = true) ∧ b.length = m ∧
      Text.allBlank z = false

section Lines

variable {m : Nat} {g t u : Text} {ls ms : List Text}

theorem solid_of_line {z : Text} (hz : Text.allBlank z = false) (hline : '\n' ∉ z) : z.Solid := by
  obtain ⟨d, hd, hblank⟩ := List.all_eq_false.mp hz
  obtain ⟨y, w, rfl⟩ := List.append_of_mem hd
  exact ⟨y, d, w, rfl, fun hmem => hline (by simp [hmem]), by simpa using hblank⟩

theorem moved_joinLines (hne : ls ≠ []) (h : ls.Forall₂ (LineMoved m g) ms)
    (hline : ∀ l ∈ ls, '\n' ∉ l) :
    Moved m g ('\n' :: Text.joinLines ls) ('\n' :: Text.joinLines ms) := by
  induction h with
  | nil => exact absurd rfl hne
  | @cons l l' ls ms hl hrest ih =>
    obtain ⟨hlineend, hlines⟩ := List.forall_mem_cons.mp hline
    -- what stands behind the line is nothing, or starts with a line end
    obtain ⟨t, u, ht, hu, hhead, htu⟩ : ∃ t u, Text.joinLines (l :: ls) = l ++ t ∧
        Text.joinLines (l' :: ms) = l' ++ u ∧ (∀ c ∈ t.head?, c = '\n') ∧ Moved m g t u := by
      cases hrest with
      | nil => exact ⟨[], [], (List.append_nil l).symm, (List.append_nil l').symm, by simp, .nil⟩
      | cons hm hrest =>
        exact ⟨_, _, Text.joinLines_cons .., Text.joinLines_cons .., by simp, ih (by simp) hlines⟩
    rw [ht, hu]
    rcases hl with ⟨hblank, hl'⟩ | ⟨b, z, rfl, rfl, hb, hlen, hz⟩
    · exact .blank (fun c hc => ⟨hblank c hc, by rintro rfl; exact hlineend hc⟩) hl' hhead htu
    · have hline' : '\n' ∉ z := fun hmem => hlineend (by simp [hmem])
      rw [List.append_assoc, List.append_assoc]
      exact .line (fun c hc => ⟨hb c hc, by rintro rfl; exact hlineend (by simp [hc])⟩) hlen
        ((solid_of_line hz hline').append t) (htu.refl_line hline')

theorem lines_append_line {x l : Text} (hx : '\n' ∉ x) (h : Text.lines t = l :: ls) :
    Text.lines (x ++ t) = (x ++ l) :: ls := by
  induction x with
  | nil => exact h
  | cons c x ih =>
    simp only [List.mem_cons, not_or] at hx
    rw [List.cons_append, Text.lines, if_neg (Ne.symm hx.1), ih hx.2]
    rfl

/-- The lines of a text that is moved. -/
theorem Moved.lines (h : Moved m g t u) (hg : '\n' ∉ g) : ∃ first ls ms,
    Text.lines t = first :: ls ∧ Text.lines u = first :: ms ∧ ls.Forall₂ (LineMoved m g) ms := by
  have hend : ∀ t, Text.lines ('\n' :: t) = [] :: Text.lines t := fun t => by simp [Text.lines]
  induction h with
  | nil => exact ⟨[], [], [], rfl, rfl, .nil⟩
  | @char c t u hc _ ih =>
    obtain ⟨first, ls, ms, ht, hu, hall⟩ := ih
    have hline : '\n' ∉ [c] := by simpa using Ne.symm hc
    exact ⟨c :: first, ls, ms, lines_append_line hline ht, lines_append_line hline hu, hall⟩
  | @blank b b' t u hb hb' hhead _ ih =>
    obtain ⟨first, ls, ms, ht, hu, hall⟩ := ih
    have hline : '\n' ∉ b := fun hmem => (hb _ hmem).2 rfl
    have hline' : '\n' ∉ b' := by
      rcases hb' with rfl | ⟨-, rfl⟩
      · simp
      · exact hline
    obtain rfl : first = [] := by
      cases t with
      | nil => exact (List.cons.inj ht).1.symm
      | cons c t =>
        obtain rfl := hhead c rfl
        rw [hend] at ht
        exact (List.cons.inj ht).1.symm
    have ht' := lines_append_line hline ht
    have hu' := lines_append_line hline' hu
    rw [List.append_nil] at ht' hu'
    exact ⟨[], b :: ls, b' :: ms, by rw [hend, ht'], by rw [hend, hu'],
      .cons (.inl ⟨fun c hc => (hb c hc).1, hb'⟩) hall⟩
  | @line b t u hb hlen hsolid _ ih =>
    obtain ⟨first, ls, ms, ht, hu, hall⟩ := ih
    have hline : '\n' ∉ b := fun hmem => (hb _ hmem).2 rfl
    have hfirst : Text.allBlank first = false := by
      obtain ⟨y, d, z, rfl, hy, hd⟩ := hsolid
      obtain ⟨l, vs, -, hl⟩ := Text.lines_cons d z
      have hne : d ≠ '\n' := by
        rintro rfl
        cases hd
      rw [if_neg hne] at hl
      rw [lines_append_line hy hl] at ht
      rw [← (List.cons.inj ht).1, Text.allBlank_append]
      simp [Text.allBlank, hd]
    exact ⟨[], (b ++ first) :: ls, (g ++ first) :: ms, by rw [hend, lines_append_line hline ht],
      by rw [hend, lines_append_line hg hu],
      .cons (.inr ⟨b, first, rfl, rfl, fun c hc => (hb c hc).1, hlen, hfirst⟩) hall⟩

end Lines

/-- The white space that a literal over several lines has in front of its closing delimiter. -/
def closingMargin (x : Text) : Text :=
  let front := (((Text.lines x).getLast?.getD []).reverse.dropWhile (· == '#')).drop 3
  (front.takeWhile isBlank).reverse

/-- The lines between the delimiters of a literal. -/
def contentLines (x : Text) : List Text := ((Text.lines x).drop 1).dropLast

/-- The content of a literal over several lines: the lines between its delimiters without the margin.
White space that does not reach as far counts as empty. -/
def content (x : Text) : List Text :=
  (contentLines x).map fun l =>
    if (closingMargin x).isPrefixOf l then l.drop (closingMargin x).length else []

/-- A literal whose closing delimiter stands first on its line, and whose content keeps to the margin: a
line is white space that does not reach beyond it, or starts with it. -/
structure Neat (x : Text) : Prop where
  closing : ∃ first n, Text.lines x =
    first :: contentLines x ++ [closingMargin x ++ "\"\"\"".toList ++ List.replicate n '#']
  margin : ∀ l ∈ contentLines x, if Text.allBlank l then l.length ≤ (closingMargin x).length
    else closingMargin x <+: l

section Content

variable {m : Nat} {g t u x x' first : Text} {ls : List Text}

theorem contentLines_eq {last : Text} (h : Text.lines x = first :: ls ++ [last]) :
    contentLines x = ls := by
  rw [contentLines, h]
  simp

theorem isBlank_of_mem_closingMargin : ∀ c ∈ closingMargin x, isBlank c = true := fun _ hc =>
  List.mem_takeWhile_imp (List.mem_reverse.mp hc)

theorem closingMargin_eq {w : Text} {n : Nat}
    (h : Text.lines x = ls ++ [w ++ "\"\"\"".toList ++ List.replicate n '#'])
    (hw : ∀ c ∈ w, isBlank c = true) : closingMargin x = w := by
  have hsigns : (List.replicate n '#' ++ ("\"\"\"".toList ++ w.reverse)).dropWhile (· == '#') =
      "\"\"\"".toList ++ w.reverse := by
    rw [List.dropWhile_append_of_pos (by simp)]
    rfl
  have hlast : (w ++ "\"\"\"".toList ++ List.replicate n '#').reverse =
      List.replicate n '#' ++ ("\"\"\"".toList ++ w.reverse) := by
    simp
  have hall : w.reverse.takeWhile isBlank = w.reverse :=
    List.takeWhile_eq_self_iff.mpr fun c hc => hw c (List.mem_reverse.mp hc)
  rw [closingMargin, h, List.getLast?_concat, Option.getD_some, hlast, hsigns]
  exact (congrArg List.reverse hall).trans (List.reverse_reverse w)

/-- The margin of a line with something on it is taken from the white space in front of that. -/
theorem LineMoved.of_quote {w d l : Text} (h : LineMoved m g (w ++ '"' :: d) l)
    (hw : ∀ c ∈ w, isBlank c = true) : ∃ b v, w = b ++ v ∧ b.length = m ∧ l = g ++ v ++ '"' :: d := by
  rcases h with ⟨hblank, -⟩ | ⟨b, z, heq, rfl, hb, hlen, -⟩
  · cases hblank '"' (by simp)
  · rcases List.append_eq_append_iff.mp heq with ⟨v, rfl, hv⟩ | ⟨v, rfl, rfl⟩
    · cases v with
      | nil => exact ⟨w, [], by simp, by simpa using hlen, by simpa using hv.symm⟩
      | cons c v =>
        obtain ⟨rfl, -⟩ := List.cons.inj hv
        cases hb '"' (by simp)
    · exact ⟨b, v, rfl, hlen, by simp⟩

/-- A line of the content and what it becomes, between two margins. -/
theorem LineMoved.content {b v l l' : Text} (h : LineMoved m g l l') (hb : b.length = m)
    (hl : if Text.allBlank l then l.length ≤ (b ++ v).length else b ++ v <+: l) :
    (if Text.allBlank l' then l'.length ≤ (g ++ v).length else g ++ v <+: l') ∧
      (if (g ++ v).isPrefixOf l' then l'.drop (g ++ v).length else []) =
        if (b ++ v).isPrefixOf l then l.drop (b ++ v).length else [] := by
  -- white space within the margin has no content
  have hempty : ∀ {l w : Text}, l.length ≤ w.length →
      (if w.isPrefixOf l then l.drop w.length else []) = [] := by
    intro l w hle
    split
    · exact List.drop_eq_nil_of_le hle
    · rfl
  rcases h with ⟨hblank, hl'⟩ | ⟨b', z, rfl, rfl, hb', hlen, hz⟩
  · have hall : Text.allBlank l = true := List.all_eq_true.mpr hblank
    rw [if_pos hall] at hl
    have hle : Text.allBlank l' = true ∧ l'.length ≤ (g ++ v).length := by
      rcases hl' with rfl | ⟨rfl, rfl⟩
      · exact ⟨rfl, Nat.zero_le _⟩
      · obtain rfl := List.length_eq_zero_iff.mp hb
        refine ⟨hall, hl.trans ?_⟩
        simp
    exact ⟨by rw [if_pos hle.1]; exact hle.2, by rw [hempty hle.2, hempty hl]⟩
  · have hfalse : ∀ w, Text.allBlank (w ++ z) = false := fun w => by
      rw [Text.allBlank_append, hz, Bool.and_false]
    rw [hfalse, if_neg (by simp)] at hl
    rw [hfalse, if_neg (by simp)]
    obtain ⟨y, hy⟩ := hl
    rw [List.append_assoc] at hy
    obtain ⟨rfl, rfl⟩ := List.append_inj hy (hb.trans hlen.symm)
    have hpre : ∀ w : Text, (w ++ v).isPrefixOf (w ++ (v ++ y)) = true := fun w =>
      List.isPrefixOf_iff_prefix.mpr ⟨y, by simp⟩
    refine ⟨⟨y, by simp⟩, ?_⟩
    rw [if_pos (hpre g), if_pos (hpre b), ← List.append_assoc, List.drop_left, ← List.append_assoc,
      List.drop_left]

theorem content_lines {b v : Text} {ms : List Text} (h : ls.Forall₂ (LineMoved m g) ms)
    (hb : b.length = m)
    (hls : ∀ l ∈ ls, if Text.allBlank l then l.length ≤ (b ++ v).length else b ++ v <+: l) :
    (∀ l ∈ ms, if Text.allBlank l then l.length ≤ (g ++ v).length else g ++ v <+: l) ∧
      (ms.map fun l => if (g ++ v).isPrefixOf l then l.drop (g ++ v).length else []) =
        ls.map fun l => if (b ++ v).isPrefixOf l then l.drop (b ++ v).length else [] := by
  induction h with
  | nil => simp
  | cons hl _ ih =>
    obtain ⟨hfirst, hrest⟩ := List.forall_mem_cons.mp hls
    obtain ⟨hfirst', heq⟩ := hl.content hb hfirst
    obtain ⟨hrest', heqs⟩ := ih hrest
    exact ⟨List.forall_mem_cons.mpr ⟨hfirst', hrest'⟩, by rw [List.map_cons, List.map_cons, heq, heqs]⟩

/-- Moving a neat literal moves its margin and leaves its content. -/
theorem Moved.content_eq (h : Moved m g x x') (hg : ∀ c ∈ g, isIndent c = true) (hx : Neat x) :
    Neat x' ∧ content x' = content x := by
  have hblank := isBlank_of_mem_closingMargin (x := x)
  obtain ⟨⟨first, n, hlines⟩, hmargin⟩ := hx
  obtain ⟨first', ls, ms, ht, hu, hall⟩ := h.lines fun hmem => by cases hg _ hmem
  rw [List.cons_append] at hlines
  obtain ⟨rfl, rfl⟩ := List.cons.inj (ht.symm.trans hlines)
  obtain ⟨ms, last, hms, hlast, rfl⟩ : ∃ vs last, (contentLines x).Forall₂ (LineMoved m g) vs ∧
      LineMoved m g (closingMargin x ++ "\"\"\"".toList ++ List.replicate n '#') last ∧
        ms = vs ++ [last] := by
    have htake := List.forall₂_take (contentLines x).length hall
    have hdrop := List.forall₂_drop (contentLines x).length hall
    rw [List.take_left] at htake
    rw [List.drop_left] at hdrop
    obtain ⟨last, hlast, hnil⟩ : ∃ last, LineMoved m g
        (closingMargin x ++ "\"\"\"".toList ++ List.replicate n '#') last ∧
          ms.drop (contentLines x).length = [last] := by
      cases hd : ms.drop (contentLines x).length with
      | nil => rw [hd] at hdrop; cases hdrop
      | cons last rest =>
        rw [hd, List.forall₂_cons] at hdrop
        exact ⟨last, hdrop.1, by rw [List.forall₂_nil_left_iff.mp hdrop.2]⟩
    exact ⟨_, last, htake, hlast, by rw [← hnil, List.take_append_drop]⟩
  have hdelimiter : ∀ w : Text, w ++ "\"\"\"".toList ++ List.replicate n '#' =
      w ++ '"' :: ('"' :: '"' :: List.replicate n '#') := fun w => by simp
  rw [hdelimiter] at hlast
  obtain ⟨b, v, hw, hb, rfl⟩ := hlast.of_quote hblank
  have hlines' : Text.lines x' = (first' :: ms) ++ [g ++ v ++ '"' :: ('"' :: '"' :: List.replicate n '#')] :=
    hu
  have hblank' : ∀ c ∈ g ++ v, isBlank c = true := by
    intro c hc
    rcases List.mem_append.mp hc with hc | hc
    · exact isBlank_of_isIndent (hg c hc)
    · exact hblank c (by rw [hw]; simp [hc])
  rw [← hdelimiter] at hlines'
  have hclosing := closingMargin_eq hlines' hblank'
  have hcontent := contentLines_eq hlines'
  rw [hw] at hmargin
  obtain ⟨hmargin', heq⟩ := content_lines hms hb hmargin
  refine ⟨⟨⟨first', n, ?_⟩, ?_⟩, ?_⟩
  · rw [hcontent, hclosing]
    exact hlines'
  · rwa [hcontent, hclosing]
  · rw [content, content, hcontent, hclosing, hw, heq]

/-- A literal ends with a quotation mark or a number sign. -/
theorem Neat.last (hx : Neat x) : ∀ c ∈ x.getLast?, isBlank c = false := by
  obtain ⟨⟨first, n, hlines⟩, -⟩ := hx
  have hjoin : ∀ (ls : List Text) (l : Text), ∃ w, Text.joinLines (ls ++ [l]) = w ++ l := by
    intro ls l
    induction ls with
    | nil => exact ⟨[], rfl⟩
    | cons k ls ih =>
      obtain ⟨w, hw⟩ := ih
      obtain ⟨j, js, hjs⟩ := List.exists_cons_of_ne_nil (l := ls ++ [l]) (by simp)
      rw [hjs] at hw
      exact ⟨k ++ '\n' :: w, by rw [List.cons_append, hjs, Text.joinLines_cons, hw]; simp⟩
  obtain ⟨w, hw⟩ := hjoin (first :: contentLines x)
    (closingMargin x ++ "\"\"\"".toList ++ List.replicate n '#')
  rw [← hlines, Text.joinLines_lines] at hw
  rw [hw]
  cases n with
  | zero =>
    rw [List.replicate_zero, List.append_nil, List.getLast?_append_of_ne_nil _ (by simp),
      List.getLast?_append_of_ne_nil _ (by simp)]
    rintro _ ⟨⟩
    rfl
  | succ n =>
    rw [List.replicate_succ', ← List.append_assoc, ← List.append_assoc, List.getLast?_concat]
    rintro _ ⟨⟩
    rfl

end Content

end Token

open Text

/-- A statement is moved as a block, its first line included. -/
theorem Statement.layout_moved (unit : Text) (s : Statement) :
    Token.Moved (margin (s.indent ++ s.text)) unit ('\n' :: (s.indent ++ s.text))
      ('\n' :: s.layout unit) := by
  set t := s.indent ++ s.text with ht
  have hmoved : (lines t).Forall₂ (Token.LineMoved (margin t) unit)
      ((lines t).map fun l => if allBlank l then [] else unit ++ l.drop (margin t)) := by
    rw [List.forall₂_map_right_iff, List.forall₂_same]
    intro l hl
    cases hb : allBlank l with
    | true => exact .inl ⟨List.all_eq_true.mp hb, .inl rfl⟩
    | false =>
      refine .inr ⟨_, _, (List.take_append_drop _ l).symm, by simp,
        fun c hc => (isBlank_of_mem_margin hl hb c hc).1, ?_, allBlank_drop_margin hl hb⟩
      exact List.length_take_of_le (margin_le_length hl hb)
  have := Token.moved_joinLines (lines_ne_nil t) hmoved (newline_not_mem_lines t)
  rwa [joinLines_lines, ht, ← Statement.layout_eq] at this

/-- The first line of a replacement stays where it is, the others get an indent. -/
theorem Edit.indentContinuation_moved (indent t : Text) :
    Token.Moved 0 indent t (indentContinuation indent t) := by
  obtain ⟨first, rest, hl⟩ := List.exists_cons_of_ne_nil (lines_ne_nil t)
  have hmem : ∀ l ∈ first :: rest, '\n' ∉ l := fun l h => newline_not_mem_lines t l (hl ▸ h)
  obtain ⟨hfirst, hrest⟩ := List.forall_mem_cons.mp hmem
  have hmoved : rest.Forall₂ (Token.LineMoved 0 indent)
      (rest.map fun l => if allBlank l then l else indent ++ l) := by
    rw [List.forall₂_map_right_iff, List.forall₂_same]
    intro l hl
    cases hb : allBlank l with
    | true => exact .inl ⟨List.all_eq_true.mp hb, .inr ⟨rfl, rfl⟩⟩
    | false => exact .inr ⟨[], l, rfl, rfl, by simp, rfl, hb⟩
  have hcontinued : indentContinuation indent t =
      joinLines (first :: rest.map fun l => if allBlank l then l else indent ++ l) := by
    rw [indentContinuation, hl]
  have hsource : t = joinLines (first :: rest) := by rw [← hl, joinLines_lines]
  rw [hcontinued]
  conv in Token.Moved _ _ t => rw [hsource]
  cases rest with
  | nil => simpa [joinLines, join] using Token.Moved.refl_line hfirst (Token.Moved.nil (m := 0) (g := indent))
  | cons l rest =>
    have := Token.moved_joinLines (by simp) hmoved hrest
    rw [List.map_cons, joinLines_cons, joinLines_cons]
    exact this.refl_line hfirst

end SwiftMacros
