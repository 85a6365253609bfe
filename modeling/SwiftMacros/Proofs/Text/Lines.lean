import Mathlib
import SwiftMacros.Proofs.Token.Relined
import SwiftMacros.Expansion.Edit
import SwiftMacros.Tree.Render

/-! The lines of laid out code. Statements are moved as blocks, generated members and the lines of a
replacement get an indent: each of these layouts only moves lines. -/

namespace SwiftMacros

open Token (Relined Reindented)

namespace Text

variable {t : Text} {l : Text} {ls ms : List Text}

theorem lines_ne_nil (t : Text) : lines t ≠ [] := by
  cases t with
  | nil => simp [lines]
  | cons c t =>
    rw [lines]
    split
    · simp
    · split <;> simp

theorem lines_cons (c : Char) (t : Text) : ∃ l ls, lines t = l :: ls ∧
    lines (c :: t) = if c = '\n' then [] :: l :: ls else (c :: l) :: ls := by
  obtain ⟨l, ls, hl⟩ := List.exists_cons_of_ne_nil (lines_ne_nil t)
  refine ⟨l, ls, hl, ?_⟩
  simp only [lines, hl]

theorem joinLines_cons (l m : Text) (ls : List Text) :
    joinLines (l :: m :: ls) = l ++ '\n' :: joinLines (m :: ls) := by
  simp [joinLines, join]

/-- Lines put together again are the text. -/
theorem joinLines_lines (t : Text) : joinLines (lines t) = t := by
  induction t with
  | nil => rfl
  | cons c t ih =>
    obtain ⟨l, ls, hl, hc⟩ := lines_cons c t
    rw [hl] at ih
    rw [hc]
    split
    · rename_i h
      rw [joinLines_cons, ih, h, List.nil_append]
    · cases ls with
      | nil => simpa [joinLines, join] using ih
      | cons m ls =>
        rw [joinLines_cons] at ih ⊢
        rw [List.cons_append, ih]

theorem newline_not_mem_lines (t : Text) : ∀ l ∈ lines t, '\n' ∉ l := by
  induction t with
  | nil => simp [lines]
  | cons c t ih =>
    obtain ⟨l, ls, hl, hc⟩ := lines_cons c t
    rw [hl] at ih
    rw [hc]
    split
    · simpa using ih
    · rename_i h
      simp only [List.forall_mem_cons] at ih ⊢
      exact ⟨by simpa [Ne.symm h] using ih.1, ih.2⟩

theorem lines_of_line (hl : '\n' ∉ l) : lines l = [l] := by
  induction l with
  | nil => rfl
  | cons c l ih =>
    simp only [List.mem_cons, not_or] at hl
    rw [lines, if_neg (Ne.symm hl.1), ih hl.2]

theorem lines_append_newline (hl : '\n' ∉ l) (t : Text) : lines (l ++ '\n' :: t) = l :: lines t := by
  induction l with
  | nil => simp [lines]
  | cons c l ih =>
    simp only [List.mem_cons, not_or] at hl
    rw [List.cons_append, lines, if_neg (Ne.symm hl.1), ih hl.2]

theorem lines_append (t u : Text) : lines (t ++ '\n' :: u) = lines t ++ lines u := by
  induction t with
  | nil =>
    obtain ⟨l, ls, hl, hc⟩ := lines_cons '\n' u
    rw [List.nil_append, hc, if_pos rfl, ← hl]
    rfl
  | cons c t ih =>
    obtain ⟨l, ls, hl, hc⟩ := lines_cons c t
    obtain ⟨m, ms, hm, hc'⟩ := lines_cons c (t ++ '\n' :: u)
    rw [ih, hl, List.cons_append, List.cons.injEq] at hm
    rw [List.cons_append, hc', hc, ← hm.1, ← hm.2]
    split <;> rfl

/-- Texts without line ends are the lines of what they are put together to. -/
theorem lines_joinLines (hne : ls ≠ []) (h : ∀ l ∈ ls, '\n' ∉ l) : lines (joinLines ls) = ls := by
  induction ls with
  | nil => contradiction
  | cons l ls ih =>
    obtain ⟨hl, hls⟩ := List.forall_mem_cons.mp h
    cases ls with
    | nil => exact lines_of_line hl
    | cons m ls => rw [joinLines_cons, lines_append_newline hl, ih (by simp) hls]

/-- The second line is the first with another indent. -/
def Shifted (l l' : Text) : Prop :=
  ∃ b g z, l = b ++ z ∧ l' = g ++ z ∧ (∀ c ∈ b, isBlank c = true ∧ c ≠ '\n') ∧
    ∀ c ∈ g, isIndent c = true

theorem Shifted.refl (l : Text) : Shifted l l := ⟨[], [], l, rfl, rfl, by simp, by simp⟩

theorem relined_newline (h : Reindented t l) : Relined ('\n' :: t) ('\n' :: l) := by
  obtain ⟨b, g, t', l', rfl, rfl, hb, hg, h⟩ := h
  exact .line hb hg h

/-- Lines that are shifted make a text with other indents. -/
theorem reindented_joinLines (h : ls.Forall₂ Shifted ms) : Reindented (joinLines ls) (joinLines ms) := by
  induction h with
  | nil => exact (Relined.refl []).reindented
  | @cons l l' ls ms hl hrest ih =>
    obtain ⟨b, g, z, rfl, rfl, hb, hg⟩ := hl
    cases hrest with
    | nil => exact ⟨b, g, z, z, rfl, rfl, hb, hg, .refl z⟩
    | @cons m m' ls ms hm hrest =>
      refine ⟨b, g, _, _, ?_, ?_, hb, hg, (Relined.refl z).append (relined_newline ih)⟩
      · rw [joinLines_cons, List.append_assoc]
      · rw [joinLines_cons, List.append_assoc]

theorem relined_joinLines (l : Text) (h : ls.Forall₂ Shifted ms) :
    Relined (joinLines (l :: ls)) (joinLines (l :: ms)) := by
  cases h with
  | nil => exact .refl _
  | cons hm hrest =>
    rw [joinLines_cons, joinLines_cons]
    exact (Relined.refl l).append (relined_newline (reindented_joinLines (.cons hm hrest)))

section Offsets

theorem takeWhile_length_le {p : Char → Bool} {t : Text} {n : Nat} {c : Char} (h : t[n]? = some c)
    (hc : p c = false) : (t.takeWhile p).length ≤ n := by
  induction t generalizing n with
  | nil => simp
  | cons d t ih =>
    rw [List.takeWhile_cons]
    split
    · cases n with
      | zero => simp_all
      | succ n => simpa using ih h
    · simp

theorem lineStart_le (t : Text) (offset : Nat) : lineStart t offset ≤ offset := by
  rw [lineStart, List.length_take]
  omega

theorem trimEnd_length_le (t : Text) : (trimEnd t).length ≤ t.length := by
  rw [trimEnd, dropWhileEnd, List.length_reverse]
  simpa using List.length_dropWhile_le isBlank t.reverse

/-- A line ends at a line end, or where the text does. -/
theorem lineEnd_eq {t : Text} {n : Nat} (h : n ≤ t.length) :
    t[lineEnd t n]? = some '\n' ∨ lineEnd t n = t.length := by
  have hget : ∀ u v : Text, u ++ v = t.drop n → t[n + u.length]? = v.head? := by
    intro u v huv
    rw [← List.getElem?_drop, ← huv, List.getElem?_append_right le_rfl, Nat.sub_self,
      List.head?_eq_getElem?]
  have hsplit := List.takeWhile_append_dropWhile (p := (· ≠ '\n')) (l := t.drop n)
  have hend : t[lineEnd t n]? = _ := hget _ _ hsplit
  cases hd : (t.drop n).dropWhile (· ≠ '\n') with
  | nil =>
    have hlen := congrArg List.length hsplit
    rw [hd, List.append_nil, List.length_drop] at hlen
    exact .inr (by rw [lineEnd, hlen]; omega)
  | cons c u =>
    have hc : decide (c ≠ '\n') = false := by
      have hne : (t.drop n).dropWhile (· ≠ '\n') ≠ [] := by rw [hd]; simp
      simpa only [hd, List.head_cons] using List.head_dropWhile_not (· ≠ '\n') hne
    rw [hend, hd]
    exact .inl (by simpa using hc)

theorem trimEnd_append (t : Text) : ∃ w, t = trimEnd t ++ w ∧ ∀ c ∈ w, isBlank c = true := by
  refine ⟨(t.reverse.takeWhile isBlank).reverse, ?_, fun c hc => ?_⟩
  · rw [trimEnd, dropWhileEnd, ← List.reverse_append, List.takeWhile_append_dropWhile,
      List.reverse_reverse]
  · exact List.mem_takeWhile_imp (List.mem_reverse.mp hc)

/-- What stands before an offset on its line, which starts behind a line end or where the text does.
-/
theorem slice_lineStart (t : Text) (n : Nat) :
    t.take n = t.take (lineStart t n) ++ slice t (lineStart t n) n ∧
      '\n' ∉ slice t (lineStart t n) n ∧ ∀ d ∈ (t.take (lineStart t n)).getLast?, d = '\n' := by
  set u := t.take n with hu
  have hsplit := List.takeWhile_append_dropWhile (p := (· ≠ '\n')) (l := u.reverse)
  set x := u.reverse.takeWhile (· ≠ '\n') with hx
  set y := u.reverse.dropWhile (· ≠ '\n') with hy
  have heq : u = y.reverse ++ x.reverse := by
    rw [← List.reverse_append, hsplit, List.reverse_reverse]
  have hstart : lineStart t n = y.reverse.length := by
    rw [lineStart, ← hu, ← hx]
    have := congrArg List.length heq
    simp only [List.length_append, List.length_reverse] at this ⊢
    omega
  have hslice : slice t (lineStart t n) n = x.reverse := by
    rw [hstart, slice, ← List.drop_take, ← hu, heq, List.drop_left]
  have htake : t.take (lineStart t n) = y.reverse := by
    rw [← min_eq_left (lineStart_le t n), ← List.take_take, ← hu, heq, hstart, List.take_left]
  refine ⟨by rw [hslice, htake]; exact heq, ?_, fun d hd => ?_⟩
  · rw [hslice, List.mem_reverse]
    intro hmem
    simpa using List.mem_takeWhile_imp hmem
  · rw [htake, List.getLast?_reverse] at hd
    have := List.head?_dropWhile_not (· ≠ '\n') u.reverse
    rw [← hy, hd] at this
    simpa using this

end Offsets

theorem allBlank_append (x y : Text) : allBlank (x ++ y) = (allBlank x && allBlank y) :=
  List.all_append

theorem isBlank_of_allBlank (h : allBlank l = true) (hl : '\n' ∉ l) :
    ∀ c ∈ l, isBlank c = true ∧ c ≠ '\n' := fun c hc =>
  ⟨List.all_eq_true.mp h c hc, by rintro rfl; exact hl hc⟩

/-- What a block is moved by does not reach beyond the white space of its lines. -/
theorem min_width_le (hl : l ∈ ls) (hb : allBlank l = false) :
    (((ls.filter fun l => !allBlank l).map fun l => (l.takeWhile isBlank).length).min?.getD 0) ≤
      (l.takeWhile isBlank).length := by
  have hmem : (l.takeWhile isBlank).length ∈
      (ls.filter fun l => !allBlank l).map fun l => (l.takeWhile isBlank).length :=
    List.mem_map_of_mem (List.mem_filter.mpr ⟨hl, by simpa using hb⟩)
  cases hmin : ((ls.filter fun l => !allBlank l).map fun l => (l.takeWhile isBlank).length).min? with
  | none => exact Nat.zero_le _
  | some n => exact (List.min?_eq_some_iff.mp hmin).2 _ hmem

/-- What the lines of a block are moved by: the least white space in front of one that is not blank. -/
def margin (t : Text) : Nat :=
  (((lines t).filter fun l => !allBlank l).map fun l => (l.takeWhile isBlank).length).min?.getD 0

section Margin

variable {t : Text} (hl : l ∈ lines t) (hb : allBlank l = false)
include hl hb

theorem margin_le_length : margin t ≤ l.length :=
  (min_width_le hl hb).trans (List.takeWhile_prefix isBlank).length_le

theorem isBlank_of_mem_margin : ∀ c ∈ l.take (margin t), isBlank c = true ∧ c ≠ '\n' := by
  intro c hc
  refine ⟨?_, by rintro rfl; exact newline_not_mem_lines t l hl (List.mem_of_mem_take hc)⟩
  have hpre := List.prefix_of_prefix_length_le (List.take_prefix (margin t) l)
    (List.takeWhile_prefix isBlank) ((List.length_take_le _ _).trans (min_width_le hl hb))
  exact List.mem_takeWhile_imp (hpre.subset hc)

theorem allBlank_drop_margin : allBlank (l.drop (margin t)) = false := by
  have hfront : allBlank (l.take (margin t)) = true :=
    List.all_eq_true.mpr fun c hc => (isBlank_of_mem_margin hl hb c hc).1
  rw [← List.take_append_drop (margin t) l, allBlank_append, hfront] at hb
  simpa using hb

end Margin

end Text

open Text

/-- A statement is laid out line by line. -/
theorem Statement.layout_eq (unit : Text) (s : Statement) : s.layout unit =
    joinLines ((lines (s.indent ++ s.text)).map fun l =>
      if allBlank l then [] else unit ++ l.drop (margin (s.indent ++ s.text))) := by
  set t := s.indent ++ s.text
  have hcut : ∀ l ∈ lines t, '\n' ∉ if allBlank l then [] else l.drop (margin t) := by
    intro l hl hmem
    split at hmem
    · cases hmem
    · exact newline_not_mem_lines t l hl (List.mem_of_mem_drop hmem)
  have hdedent : dedent t = joinLines ((lines t).map fun l =>
    if allBlank l then [] else l.drop (margin t)) := rfl
  rw [layout, hdedent, lines_joinLines (by simpa using lines_ne_nil t) (by simpa using hcut),
    List.map_map]
  congr 1
  refine List.map_congr_left fun l hl => ?_
  cases hb : allBlank l with
  | true => simp only [Function.comp_apply, hb, if_true, show allBlank [] = true from rfl]
  | false => simp [hb, allBlank_drop_margin hl hb]

/-- A statement is moved as a block. -/
theorem Statement.layout_reindented {unit : Text} (hunit : ∀ c ∈ unit, isIndent c = true)
    (s : Statement) : Reindented (s.indent ++ s.text) (s.layout unit) := by
  have hshift : (lines (s.indent ++ s.text)).Forall₂ Shifted
      ((lines (s.indent ++ s.text)).map fun l =>
        if allBlank l then [] else unit ++ l.drop (margin (s.indent ++ s.text))) := by
    rw [List.forall₂_map_right_iff, List.forall₂_same]
    intro l hl
    cases hb : allBlank l with
    | true =>
      exact ⟨l, [], [], by simp, rfl, isBlank_of_allBlank hb (newline_not_mem_lines _ l hl), by simp⟩
    | false =>
      exact ⟨_, unit, _, (List.take_append_drop _ l).symm, by simp, isBlank_of_mem_margin hl hb, hunit⟩
  have := reindented_joinLines hshift
  rwa [joinLines_lines, ← Statement.layout_eq] at this

namespace Edit

theorem indented_reindented {indent : Text} (h : ∀ c ∈ indent, isIndent c = true) (t : Text) :
    Reindented t (indented indent t) := by
  have hshift : (lines t).Forall₂ Shifted
      ((lines t).map fun l => if l.isEmpty then [] else indent ++ l) := by
    rw [List.forall₂_map_right_iff, List.forall₂_same]
    intro l _
    cases l with
    | nil => exact .refl []
    | cons c l => exact ⟨[], indent, c :: l, rfl, rfl, by simp, h⟩
  have := reindented_joinLines hshift
  rwa [joinLines_lines] at this

/-- The first line of a replacement stays where it is. -/
theorem indentContinuation_relined {indent : Text} (h : ∀ c ∈ indent, isIndent c = true) (t : Text) :
    Relined t (indentContinuation indent t) := by
  obtain ⟨first, rest, hl⟩ := List.exists_cons_of_ne_nil (lines_ne_nil t)
  have hshift : rest.Forall₂ Shifted
      (rest.map fun l => if allBlank l then l else indent ++ l) := by
    rw [List.forall₂_map_right_iff, List.forall₂_same]
    intro l _
    split
    · exact .refl l
    · exact ⟨[], indent, l, rfl, rfl, by simp, h⟩
  have := relined_joinLines first hshift
  rw [← hl, joinLines_lines] at this
  simpa only [indentContinuation, hl] using this

end Edit

end SwiftMacros
