import Mathlib
import SwiftMacros.Proofs.Grammar.Rejoined
import SwiftMacros.Proofs.Text.Blocks
import SwiftMacros.Proofs.Token.Moved

/-! Laying out a body again. Its statements are blocks of lines, and some that follow each other may be
read as one now. Each of them is laid out as it stands, so that the lines stay the same. -/

namespace SwiftMacros

open Text (Block isBlank stack)

namespace Text

theorem joinLines_append_newline {bs : List Text} (h : bs ≠ []) : joinLines bs ++ ['\n'] = stack bs := by
  induction bs with
  | nil => contradiction
  | cons b bs ih =>
    cases bs with
    | nil => simp [joinLines, join, stack]
    | cons c bs =>
      rw [joinLines_cons, stack_cons, ← ih (by simp), List.append_assoc, List.cons_append]

theorem trimEnd_append_blank {t w : Text} (ht : ∀ c ∈ t.getLast?, isBlank c = false)
    (hw : ∀ c ∈ w, isBlank c = true) : trimEnd (t ++ w) = t := by
  have hdrop : t.reverse.dropWhile isBlank = t.reverse := by
    cases hr : t.reverse with
    | nil => rfl
    | cons c x => simp [ht c (by rw [← List.head?_reverse, hr]; rfl)]
  rw [trimEnd, dropWhileEnd, List.reverse_append, List.dropWhile_append_of_pos fun c hc => hw c (List.mem_reverse.mp hc),
    hdrop, List.reverse_reverse]

/-- What is no line end stands on a line. -/
theorem exists_mem_lines {c : Char} {t : Text} (hc : c ∈ t) (hline : c ≠ '\n') : ∃ l ∈ lines t, c ∈ l := by
  induction t with
  | nil => cases hc
  | cons d t ih =>
    obtain ⟨l, ls, hl, hd⟩ := lines_cons d t
    rw [hd]
    rcases List.mem_cons.mp hc with rfl | hc
    · exact ⟨c :: l, by simp [hline], by simp⟩
    · obtain ⟨m, hm, hmem⟩ := ih hc
      rw [hl] at hm
      split
      · exact ⟨m, List.mem_cons_of_mem _ hm, hmem⟩
      · rcases List.mem_cons.mp hm with rfl | hm
        · exact ⟨d :: m, by simp, List.mem_cons_of_mem _ hmem⟩
        · exact ⟨m, List.mem_cons_of_mem _ hm, hmem⟩

end Text

/-- A statement that starts and ends with no white space is laid out as a block. -/
theorem Statement.block_layout {unit : Text} (hunit : ∀ c ∈ unit, Text.isIndent c = true) (st : Statement)
    (hindent : ∀ c ∈ st.indent, Token.isGap c = true ∧ c ≠ '\n') (hfirst : ∀ c ∈ st.text.head?, isBlank c = false)
    (hlast : ∃ c ∈ st.text.getLast?, isBlank c = false) : Block unit (st.layout unit) := by
  obtain ⟨d, hd, hblank⟩ := hlast
  obtain ⟨y, hy⟩ := List.getLast?_eq_some_iff.mp hd
  have hline : d ≠ '\n' := by
    rintro rfl
    cases hblank
  have hindented : Text.Indented unit (st.layout unit) := by
    refine st.indented_layout (fun c hc => ⟨Token.isBlank_of_isIndent (hunit c hc), ?_⟩) ?_
    · rintro rfl
      simpa [Text.isIndent] using hunit _ hc
    · obtain ⟨l, hl, hmem⟩ := Text.exists_mem_lines (t := st.indent ++ st.text) (c := d) (by simp [hy]) hline
      refine ⟨l, hl, ?_⟩
      by_contra hall
      have := List.all_eq_true.mp (Bool.not_eq_false _ ▸ hall) d hmem
      simp [hblank] at this
  obtain ⟨ws, x, hlayout, hws, hx⟩ := st.layout_split hunit hindent hfirst
  have hhead : ∀ c ∈ x.head?, isBlank c = false := fun c hc => hfirst c (hx.head?_eq ▸ hc)
  refine ⟨hindented, ?_, d, ?_, hblank⟩
  · rw [hlayout, Text.takeWhile_isBlank_eq (fun c hc => Token.isBlank_of_isGap (hws c hc).1) hhead]
    exact fun hmem => (hws _ hmem).2 rfl
  · obtain ⟨x', rfl, -⟩ := (hy ▸ hx).of_concat hblank
    rw [hlayout, ← List.append_assoc]
    simp

section Stacks

variable {unit P R t w : Text} {J : Text}

/-- A block at the start of a line, up to what is white space, is read as one statement. -/
theorem statementBetween_block (hJ : Block unit J) (ht : t = P ++ (J ++ '\n' :: w ++ R)) (hP : P.getLast? = some '\n')
    (hw : ∀ c ∈ w, isBlank c = true) :
    Grammar.statementBetween t (P.length + (J.takeWhile isBlank).length) (P.length + (J.length + 1 + w.length)) =
      [⟨J.dropWhile isBlank, J.takeWhile isBlank⟩] := by
  set lead := J.takeWhile isBlank with hlead
  set rest := J.dropWhile isBlank with hrest
  have hsplit : J = lead ++ rest := List.takeWhile_append_dropWhile.symm
  have hlen : J.length = lead.length + rest.length := by rw [hsplit, List.length_append]
  obtain ⟨d, hd, hblank⟩ := hJ.last
  have hne : rest ≠ [] := by
    intro hnil
    have hall : ∀ c ∈ J, isBlank c = true := List.dropWhile_eq_nil_iff.mp hnil
    simp [hall d (List.mem_of_getLast? hd)] at hblank
  have hslice : Text.slice t (P.length + lead.length) (P.length + (J.length + 1 + w.length)) = rest ++ '\n' :: w := by
    have ht' : t = (P ++ lead) ++ ((rest ++ '\n' :: w) ++ R) := by
      rw [ht, hsplit]
      simp
    have hcount : P.length + (J.length + 1 + w.length) - (P.length + lead.length) = (rest ++ '\n' :: w).length := by
      simp only [List.length_append, List.length_cons]
      omega
    rw [Text.slice, hcount, ht', ← List.length_append, List.drop_left, List.take_left]
  have hindent : Text.slice t P.length (P.length + lead.length) = lead := by
    have ht' : t = P ++ (lead ++ (rest ++ '\n' :: w ++ R)) := by
      rw [ht, hsplit]
      simp
    rw [Text.slice, Nat.add_sub_cancel_left, ht', List.drop_left, List.take_left]
  have hstart : Text.lineStart t (P.length + lead.length) = P.length := by
    have hfirst : '\n' ∉ Text.slice t P.length (P.length + lead.length) := by
      rw [hindent]
      exact hJ.first
    rw [Text.lineStart_eq (Nat.le_add_right _ _) (by simp [ht, hlen]; omega) hfirst, Text.lineStart]
    obtain ⟨Q, rfl⟩ := List.getLast?_eq_some_iff.mp hP
    rw [ht, List.take_left]
    simp
  have htrim : Text.trimEnd (rest ++ '\n' :: w) = rest := by
    refine Text.trimEnd_append_blank (fun c hc => ?_) (by simpa [Text.isBlank] using hw)
    rw [hsplit, List.getLast?_append_of_ne_nil _ hne, hc] at hd
    exact Option.some.inj hd ▸ hblank
  have hall : Text.allBlank lead = true := List.all_eq_true.mpr fun c hc => List.mem_takeWhile_imp hc
  rw [Grammar.statementBetween, hslice, htrim, Text.indentAt, hstart, hindent]
  simp only [hall, if_true]

variable {bs xs ys : List Text} {y : Text}

/-- Blocks of a stack that are read as one statement are laid out as they stand. -/
theorem statementBetween_stack (hunit : ∀ c ∈ unit, isBlank c = true) (hblocks : ∀ b ∈ y :: ys, Block unit b)
    (ht : t = P ++ (stack xs ++ (stack (y :: ys) ++ w ++ R))) (hP : P.getLast? = some '\n')
    (hw : ∀ c ∈ w, isBlank c = true) : ∃ st, Grammar.statementBetween t
      (P.length + (stack xs).length + (y.takeWhile isBlank).length)
      (P.length + (stack xs).length + ((stack (y :: ys)).length + w.length)) = [st] ∧
        stack [st.layout unit] = stack (y :: ys) := by
  have hJ := Block.joinLines (List.cons_ne_nil y ys) hblocks
  have hstack := Text.joinLines_append_newline (List.cons_ne_nil y ys)
  have hlead : (Text.joinLines (y :: ys)).takeWhile isBlank = y.takeWhile isBlank := by
    cases ys with
    | nil => rfl
    | cons b bs =>
      rw [Text.joinLines_cons]
      exact (hblocks y (by simp)).takeWhile_append _
  have hline : (P ++ stack xs).getLast? = some '\n' := by
    rcases List.eq_nil_or_concat xs with rfl | ⟨xs, x, rfl⟩
    · simpa [stack] using hP
    · simp [stack]
  have hbetween := statementBetween_block hJ (P := P ++ stack xs) (t := t) (w := w) (R := R)
    (by rw [ht, ← hstack]; simp) hline hw
  have hlen := congrArg List.length hstack
  rw [List.length_append, List.length_singleton] at hlen
  rw [hlead, List.length_append, hlen] at hbetween
  refine ⟨_, hbetween, ?_⟩
  have hwhole : y.takeWhile isBlank ++ (Text.joinLines (y :: ys)).dropWhile isBlank = Text.joinLines (y :: ys) := by
    rw [← hlead, List.takeWhile_append_dropWhile]
  rw [Text.Indented.layout_eq hunit (by rw [hwhole]; exact hJ.toIndented), hwhole, ← hstack]
  simp [stack]

/-- However the blocks of a body are put together to statements, laying those out gives the same lines. -/
theorem Divided.stack_layout {a z : Nat} {ss : List Statement} (hunit : ∀ c ∈ unit, isBlank c = true)
    (h : Divided t (Text.Opens P.length bs) a ss z) (hblocks : ∀ b ∈ bs, Block unit b)
    (ht : t = P ++ (stack bs ++ R)) (hP : P.getLast? = some '\n') (hz : z = P.length + (stack bs).length)
    (hbs : bs = xs ++ y :: ys) (ha : a = P.length + (stack xs).length + (y.takeWhile isBlank).length) :
    stack (ss.map (Statement.layout unit)) = stack (y :: ys) := by
  induction h generalizing xs y ys with
  | @last a z hle =>
    subst hbs ha hz
    have hy : ∀ b ∈ y :: ys, Block unit b := fun b hb => hblocks b (List.mem_append_right _ hb)
    have ht' : t = P ++ (stack xs ++ (stack (y :: ys) ++ [] ++ R)) := by simp [ht, Text.stack_append]
    obtain ⟨st, hst, hlayout⟩ := statementBetween_stack hunit hy ht' hP (by simp)
    rw [Text.stack_append, List.length_append, ← Nat.add_assoc]
    rw [List.length_nil, Nat.add_zero] at hst
    rw [hst, List.map_singleton, hlayout]
  | @next a b z ss hle hb hrest ih =>
    obtain ⟨xs', y', ys', hbs', rfl⟩ := hb
    obtain ⟨rfl, rfl, rfl⟩ | ⟨mid, rfl, rfl⟩ : (xs' = xs ∧ y' = y ∧ ys' = ys) ∨
        ∃ mid, xs' = xs ++ y :: mid ∧ ys = mid ++ y' :: ys' := by
      rcases List.append_eq_append_iff.mp (hbs.symm.trans hbs') with ⟨zs, rfl, hzs⟩ | ⟨zs, rfl, hzs⟩
      · cases zs with
        | nil => exact .inl (by simpa using hzs.symm)
        | cons u mid =>
          obtain ⟨rfl, rfl⟩ := List.cons.inj hzs
          exact .inr ⟨mid, rfl, rfl⟩
      · cases zs with
        | nil => exact .inl (by simpa using hzs)
        | cons u mid =>
          -- the second block would be in front of the first
          obtain ⟨rfl, rfl⟩ := List.cons.inj hzs
          have hlead := (List.takeWhile_prefix isBlank (l := y')).length_le
          simp only [Text.stack_append, Text.stack_cons, List.length_append, List.length_cons] at ha
          omega
    · rw [List.map_append, Text.stack_append, ih hz hbs rfl, ha]
      simp [Grammar.statementBetween, Text.slice, Text.trimEnd, Text.dropWhileEnd, stack]
    · rw [← List.cons_append] at hbs ⊢
      have hy : ∀ b ∈ y :: mid, Block unit b := fun b hb => hblocks b (by
        rw [hbs]
        exact List.mem_append_right _ (List.mem_append_left _ hb))
      have ht' : t = P ++ (stack xs ++ (stack (y :: mid) ++ y'.takeWhile isBlank ++
          (y'.dropWhile isBlank ++ '\n' :: stack ys' ++ R))) := by
        have hy' : y'.takeWhile isBlank ++ y'.dropWhile isBlank = y' := List.takeWhile_append_dropWhile
        rw [ht, hbs, Text.stack_append, Text.stack_append, Text.stack_cons y' ys']
        simp only [List.append_assoc]
        rw [← List.append_assoc (y'.takeWhile isBlank), hy']
      obtain ⟨st, hst, hlayout⟩ := statementBetween_stack hunit hy ht' hP fun c hc => List.mem_takeWhile_imp hc
      rw [List.map_append, Text.stack_append, ih hz hbs' rfl, ha, Text.stack_append, Text.stack_append, List.length_append,
        ← Nat.add_assoc P.length, Nat.add_assoc _ (stack (y :: mid)).length, hst, List.map_singleton, hlayout]

end Stacks

end SwiftMacros
