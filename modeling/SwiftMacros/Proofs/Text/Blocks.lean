import Mathlib
import SwiftMacros.Proofs.Text.Lines

/-! Blocks of lines that have been moved to an indent. To move such a block to the same indent again
changes nothing, and blocks one under the other are one block. -/

namespace SwiftMacros

namespace Text

/-- White space is taken from the front up to what is not blank. -/
theorem takeWhile_isBlank_eq {w x : Text} (hw : ∀ c ∈ w, isBlank c = true)
    (hx : ∀ c ∈ x.head?, isBlank c = false) : (w ++ x).takeWhile isBlank = w := by
  rw [List.takeWhile_append_of_pos hw]
  cases x with
  | nil => simp
  | cons c x => simp [hx c rfl]

/-- Lines that have been moved to an indent: each is empty or starts with it, and some line has no more
white space in front than that. -/
structure Indented (unit t : Text) : Prop where
  every : ∀ l ∈ lines t, l = [] ∨ allBlank l = false ∧ unit <+: l
  tight : ∃ l ∈ lines t, allBlank l = false ∧ (l.takeWhile isBlank).length = unit.length

/-- Lines that have been moved to an indent, from one that is not blank on. No white space is at the end. -/
structure Block (unit t : Text) : Prop extends Indented unit t where
  first : '\n' ∉ t.takeWhile isBlank
  last : ∃ c ∈ t.getLast?, isBlank c = false

section Blocks

variable {unit t u : Text} {bs : List Text}

theorem Block.ne_nil (h : Block unit t) : t ≠ [] := by
  obtain ⟨c, hc, -⟩ := h.last
  rintro rfl
  cases hc

/-- The white space in front of a block is that of its first line. -/
theorem Block.takeWhile_append (h : Block unit t) (u : Text) :
    (t ++ u).takeWhile isBlank = t.takeWhile isBlank := by
  rw [List.takeWhile_append, if_neg]
  intro hlen
  obtain ⟨c, hc, hblank⟩ := h.last
  have hall := List.takeWhile_eq_self_iff.mp ((List.takeWhile_prefix isBlank).eq_of_length hlen)
  simp [hall c (List.mem_of_getLast? hc)] at hblank

theorem Indented.append (h : Indented unit t) (h' : Indented unit u) : Indented unit (t ++ '\n' :: u) where
  every l hl := by
    rw [lines_append, List.mem_append] at hl
    exact hl.elim (h.every l) (h'.every l)
  tight := by
    obtain ⟨l, hl, hb⟩ := h.tight
    exact ⟨l, by simp [lines_append, hl], hb⟩

theorem Block.append (h : Block unit t) (h' : Block unit u) : Block unit (t ++ '\n' :: u) where
  toIndented := h.toIndented.append h'.toIndented
  first := h.takeWhile_append _ ▸ h.first
  last := by
    rw [List.getLast?_append_cons, List.getLast?_cons_of_ne_nil h'.ne_nil]
    exact h'.last

theorem Block.joinLines (hne : bs ≠ []) (h : ∀ b ∈ bs, Block unit b) : Block unit (joinLines bs) := by
  induction bs with
  | nil => contradiction
  | cons b bs ih =>
    obtain ⟨hb, hbs⟩ := List.forall_mem_cons.mp h
    cases bs with
    | nil => exact hb
    | cons c bs =>
      rw [joinLines_cons]
      exact hb.append (ih (by simp) hbs)

variable (hunit : ∀ c ∈ unit, isBlank c = true)
include hunit

theorem length_takeWhile_unit (x : Text) :
    ((unit ++ x).takeWhile isBlank).length = unit.length + (x.takeWhile isBlank).length := by
  rw [List.takeWhile_append_of_pos hunit, List.length_append]

/-- The margin of moved lines is their indent. -/
theorem Indented.margin_eq (h : Indented unit t) : margin t = unit.length := by
  have hmin : (((lines t).filter fun l => !allBlank l).map fun l => (l.takeWhile isBlank).length).min? =
      some unit.length := by
    refine List.min?_eq_some_iff.mpr ⟨?_, fun n hn => ?_⟩
    · obtain ⟨l, hl, hb, hlen⟩ := h.tight
      exact List.mem_map.mpr ⟨l, List.mem_filter.mpr ⟨hl, by simp [hb]⟩, hlen⟩
    · obtain ⟨l, hl, rfl⟩ := List.mem_map.mp hn
      obtain ⟨hl, hb⟩ := List.mem_filter.mp hl
      rcases h.every l hl with rfl | ⟨-, x, rfl⟩
      · simp [allBlank] at hb
      · rw [length_takeWhile_unit hunit]
        omega
  rw [margin, hmin]
  rfl

/-- Lines that are moved to their own indent stay as they are. -/
theorem Indented.layout_eq {s : Statement} (h : Indented unit (s.indent ++ s.text)) :
    s.layout unit = s.indent ++ s.text := by
  rw [Statement.layout_eq, h.margin_eq hunit]
  conv_rhs => rw [← joinLines_lines (s.indent ++ s.text)]
  congr 1
  refine (List.map_congr_left fun l hl => ?_).trans (List.map_id _)
  rcases h.every l hl with rfl | ⟨hb, x, rfl⟩
  · simp [allBlank]
  · simp [hb]

end Blocks

end Text

open Text

/-- The lines of a statement are moved to the indent. -/
theorem Statement.indented_layout {unit : Text} (hunit : ∀ c ∈ unit, isBlank c = true ∧ c ≠ '\n') (s : Statement)
    (hs : ∃ l ∈ lines (s.indent ++ s.text), allBlank l = false) : Indented unit (s.layout unit) := by
  have hblank : ∀ c ∈ unit, isBlank c = true := fun c hc => (hunit c hc).1
  set t := s.indent ++ s.text with ht
  have hlines : lines (s.layout unit) =
      (lines t).map fun l => if allBlank l then [] else unit ++ l.drop (margin t) := by
    rw [Statement.layout_eq, ← ht, lines_joinLines (by simpa using lines_ne_nil t)]
    intro l hl
    obtain ⟨m, hm, rfl⟩ := List.mem_map.mp hl
    split
    · simp
    · simp only [List.mem_append, not_or]
      exact ⟨fun hc => (hunit _ hc).2 rfl, fun hc => newline_not_mem_lines t m hm (List.mem_of_mem_drop hc)⟩
  have hmoved : ∀ l ∈ lines t, allBlank l = false → allBlank (unit ++ l.drop (margin t)) = false := by
    intro l hl hb
    rw [allBlank_append, allBlank_drop_margin hl hb, Bool.and_false]
  constructor
  · rw [hlines, List.forall_mem_map]
    intro l hl
    cases hb : allBlank l with
    | true => exact .inl rfl
    | false => exact .inr ⟨hmoved l hl hb, List.prefix_append _ _⟩
  · -- the line that sets the margin
    obtain ⟨l, hl, hb⟩ := hs
    have hmem : (l.takeWhile isBlank).length ∈
        ((lines t).filter fun l => !allBlank l).map fun l => (l.takeWhile isBlank).length :=
      List.mem_map_of_mem (List.mem_filter.mpr ⟨hl, by simp [hb]⟩)
    obtain ⟨n, hn⟩ := Option.isSome_iff_exists.mp (List.isSome_min?_of_mem hmem)
    obtain ⟨m, hm, rfl⟩ := List.mem_map.mp (List.min?_eq_some_iff.mp hn).1
    obtain ⟨hm, hb⟩ := List.mem_filter.mp hm
    have hmargin : margin t = (m.takeWhile isBlank).length := by rw [margin, hn]; rfl
    have hb : allBlank m = false := by simpa using hb
    refine ⟨unit ++ m.drop (margin t), ?_, hmoved m hm hb, ?_⟩
    · rw [hlines]
      exact List.mem_map.mpr ⟨m, hm, by simp [hb]⟩
    · have hdrop : m.drop (m.takeWhile isBlank).length = m.dropWhile isBlank :=
        (congrArg (List.drop _) List.takeWhile_append_dropWhile.symm).trans List.drop_left
      have hstop : (m.dropWhile isBlank).takeWhile isBlank = [] := by
        have hhead := List.head?_dropWhile_not isBlank m
        cases hm : m.dropWhile isBlank with
        | nil => rfl
        | cons c x =>
          rw [hm] at hhead
          simpa using hhead
      rw [length_takeWhile_unit hblank, hmargin, hdrop, hstop]
      rfl

end SwiftMacros
