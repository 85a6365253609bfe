import Mathlib
import SwiftMacros.Expansion.Edit

/-! Edits that keep clear of each other can be applied in any order. Sorted by where they start they
cut a text into the parts that stay; what they make of it is told offset by offset, without an
order. -/

namespace SwiftMacros

theorem Span.overlaps_comm (a b : Span) : a.overlaps b = b.overlaps a := by
  simp only [Span.overlaps, Bool.and_comm]

namespace Edit

variable {code : Text} {d e : Edit} {ds es : List Edit} {n p : Nat}

/-- The ranges that two edits take for themselves do not meet. -/
def Clear (d e : Edit) : Prop := Span.overlaps d.span e.span = false

/-- The edit replaces a range of the text. -/
structure Within (code : Text) (e : Edit) : Prop where
  le : e.start ≤ e.stop
  stop_le : e.stop ≤ code.length

theorem Clear.symm (h : Clear d e) : Clear e d := by rwa [Clear, Span.overlaps_comm]

theorem clear_iff : Clear d e ↔
    max d.stop (d.start + 1) ≤ e.start ∨ max e.stop (e.start + 1) ≤ d.start := by
  simp [Clear, Span.overlaps, span]
  omega

theorem Clear.start_ne (h : Clear d e) : d.start ≠ e.start := by
  have := clear_iff.mp h
  omega

/-- The edit applied later ends before the one applied first. -/
theorem Clear.stop_le (h : Clear d e) (hf : d.comesFirst e = true) : e.stop ≤ d.start := by
  have := clear_iff.mp h
  simp only [comesFirst, Bool.or_eq_true, Bool.and_eq_true, beq_iff_eq, decide_eq_true_eq] at hf
  omega

section Order

theorem comesFirst_total (h : d.comesFirst e = false) : e.comesFirst d = true := by
  simp only [comesFirst, Bool.or_eq_false_iff, Bool.and_eq_false_iff, Bool.or_eq_true,
    Bool.and_eq_true, beq_iff_eq, beq_eq_false_iff_ne, decide_eq_true_eq,
    decide_eq_false_iff_not] at h ⊢
  omega

theorem comesFirst_trans {a b c : Edit} (h : a.comesFirst b = true) (h' : b.comesFirst c = true) :
    a.comesFirst c = true := by
  simp only [comesFirst, Bool.or_eq_true, Bool.and_eq_true, beq_iff_eq, decide_eq_true_eq] at *
  omega

theorem insertOrdered_perm (e : Edit) (ds : List Edit) : (insertOrdered e ds).Perm (e :: ds) := by
  induction ds with
  | nil => rfl
  | cons d ds ih =>
    rw [insertOrdered]
    split
    · exact (ih.cons d).trans (.swap e d ds)
    · rfl

theorem insertOrdered_pairwise (h : ds.Pairwise fun a b => a.comesFirst b = true) :
    (insertOrdered e ds).Pairwise fun a b => a.comesFirst b = true := by
  induction ds with
  | nil => simp [insertOrdered]
  | cons d ds ih =>
    obtain ⟨hd, hds⟩ := List.pairwise_cons.mp h
    rw [insertOrdered]
    split
    · refine List.pairwise_cons.mpr ⟨fun b hb => ?_, ih hds⟩
      rcases List.mem_cons.mp ((insertOrdered_perm e ds).mem_iff.mp hb) with rfl | hb
      · assumption
      · exact hd b hb
    · rename_i hlast
      have he : e.comesFirst d = true := comesFirst_total (by simpa using hlast)
      refine List.pairwise_cons.mpr ⟨fun b hb => ?_, h⟩
      rcases List.mem_cons.mp hb with rfl | hb
      · exact he
      · exact comesFirst_trans he (hd b hb)

theorem ordered_perm (es : List Edit) : (ordered es).Perm es := by
  have h : ∀ ds : List Edit, (es.foldl (fun ds e => insertOrdered e ds) ds).Perm (es ++ ds) := by
    induction es with
    | nil => intro ds; rfl
    | cons e es ih =>
      intro ds
      exact (ih _).trans (((insertOrdered_perm e ds).append_left es).trans List.perm_middle)
  simpa [ordered] using h []

/-- Edits bring in no characters but those of their texts. -/
theorem not_mem_applyAll {code : Text} {es : List Edit} {c : Char} (hc : c ∉ code)
    (h : ∀ e ∈ es, c ∉ e.text) : c ∉ applyAll code es := by
  have hfold : ∀ ds : List Edit, (∀ e ∈ ds, c ∉ e.text) → ∀ t, c ∉ t → c ∉ ds.foldl apply t := by
    intro ds hds
    induction ds with
    | nil => exact fun t ht => ht
    | cons e ds ih =>
      obtain ⟨he, hds⟩ := List.forall_mem_cons.mp hds
      refine fun t ht => ih hds _ ?_
      simp only [apply, List.mem_append, not_or]
      exact ⟨⟨fun hmem => ht (List.mem_of_mem_take hmem), he⟩,
        fun hmem => ht (List.mem_of_mem_drop hmem)⟩
  exact hfold _ (fun e he => h e ((ordered_perm es).subset he)) _ hc

theorem ordered_pairwise (es : List Edit) :
    (ordered es).Pairwise fun a b => a.comesFirst b = true := by
  have h : ∀ ds : List Edit, ds.Pairwise (fun a b => a.comesFirst b = true) →
      (es.foldl (fun ds e => insertOrdered e ds) ds).Pairwise fun a b => a.comesFirst b = true := by
    induction es with
    | nil => exact fun ds h => h
    | cons e es ih => exact fun ds h => ih _ (insertOrdered_pairwise h)
  exact h [] .nil

end Order

section Assembly

/-- The edits replace ranges of a text of length `n`, one after the other from `p` on. -/
def Ascending (n : Nat) : Nat → List Edit → Prop
  | p, [] => p ≤ n
  | p, e :: es => p ≤ e.start ∧ e.start ≤ e.stop ∧ Ascending n e.stop es

/-- The text from `p` on with the ranges of ascending edits replaced. -/
def assemble (code : Text) : Nat → List Edit → Text
  | p, [] => code.drop p
  | p, e :: es => Text.slice code p e.start ++ e.text ++ assemble code e.stop es

theorem Ascending.le (h : Ascending n p es) : p ≤ n := by
  induction es generalizing p with
  | nil => exact h
  | cons e es ih =>
    have := ih h.2.2
    have := h.1
    have := h.2.1
    omega

/-- Edits that are sorted by where they start and keep clear of each other are ascending. -/
theorem ascending_of_pairwise (hw : ∀ e ∈ es, Within code e)
    (hs : es.Pairwise fun a b => a.stop ≤ b.start) (hp : ∀ e ∈ es, p ≤ e.start)
    (hle : p ≤ code.length) : Ascending code.length p es := by
  induction es generalizing p with
  | nil => exact hle
  | cons e es ih =>
    obtain ⟨he, hes⟩ := List.forall_mem_cons.mp hw
    obtain ⟨hs, hss⟩ := List.pairwise_cons.mp hs
    exact ⟨hp e (by simp), he.le, ih hes hss hs he.stop_le⟩

/-- Applied from the last to the first, ascending edits leave what stands before them. -/
theorem foldr_apply (h : Ascending code.length p es) :
    es.foldr (fun e t => apply t e) code = code.take p ++ assemble code p es := by
  induction es generalizing p with
  | nil => simp [assemble]
  | cons e es ih =>
    obtain ⟨hp, he, hes⟩ := h
    have hle := hes.le
    have htake : ∀ x : Text, (code.take e.stop ++ x).take e.start = code.take e.start := by
      intro x
      rw [List.take_append_of_le_length (by rw [List.length_take]; omega), List.take_take,
        Nat.min_eq_left he]
    have hdrop : ∀ x : Text, (code.take e.stop ++ x).drop e.stop = x := by
      intro x
      exact List.drop_left' (by rw [List.length_take]; omega)
    have hsplit : code.take e.start = code.take p ++ Text.slice code p e.start := by
      rw [Text.slice, show e.start = p + (e.start - p) by omega, List.take_add]
      simp
    rw [List.foldr_cons, ih hes, apply, htake, hdrop, assemble, hsplit]
    simp

end Assembly

section Rewriting

/-- What edits leave at an offset: the texts that are put there, and the character itself unless it
is replaced. -/
def leave (code : Text) (es : List Edit) (p : Nat) : Text :=
  (es.filter (·.start = p)).flatMap (·.text) ++
    if es.any fun e => e.start ≤ p && p < e.stop then [] else (code[p]?).toList

/-- The text with the range of each edit replaced by its text, and all else kept. -/
def rewritten (code : Text) (es : List Edit) : Text :=
  (List.range (code.length + 1)).flatMap (leave code es)

theorem leave_of_lt (h : ∀ e ∈ es, p < e.start) : leave code es p = (code[p]?).toList := by
  have hnone : es.filter (·.start = p) = [] := by
    simpa [List.filter_eq_nil_iff] using fun e he => (h e he).ne'
  have hany : (es.any fun e => e.start ≤ p && p < e.stop) = false := by
    simpa using fun e he hle => absurd (h e he) (by omega)
  simp [leave, hnone, hany]

/-- The characters of a text one by one. -/
theorem flatMap_getElem? (code : Text) (p n : Nat) :
    (List.range' p n).flatMap (fun i => (code[i]?).toList) = Text.slice code p (p + n) := by
  induction n generalizing p with
  | zero => simp [Text.slice]
  | succ n ih =>
    rw [List.range'_succ, List.flatMap_cons, ih]
    simp only [Text.slice, Nat.add_sub_cancel_left, show p + 1 + n - (p + 1) = n by omega]
    rcases Nat.lt_or_ge p code.length with hlt | hge
    · rw [List.getElem?_eq_getElem hlt, List.drop_eq_getElem_cons hlt]
      rfl
    · rw [List.getElem?_eq_none hge, List.drop_eq_nil_of_le hge, List.drop_eq_nil_of_le (by omega)]
      simp

theorem leave_cons (h : e.start ≠ p) (hp : p < e.start ∨ e.stop ≤ p) :
    leave code (e :: es) p = leave code es p := by
  have hhold : (decide (e.start ≤ p) && decide (p < e.stop)) = false := by
    simp only [Bool.and_eq_false_iff, decide_eq_false_iff_not]
    omega
  simp [leave, h, hhold]

/-- What an edit and those behind it leave from its start on. -/
theorem flatMap_leave_cons (he : e.start ≤ e.stop) (hle : e.stop ≤ n)
    (hes : ∀ d ∈ es, e.stop ≤ d.start) :
    (List.range' e.start (n + 1 - e.start)).flatMap (leave code (e :: es)) =
      e.text ++ (List.range' e.stop (n + 1 - e.stop)).flatMap (leave code es) := by
  have hrest : ∀ q, e.stop ≤ q → e.start ≠ q → leave code (e :: es) q = leave code es q :=
    fun q hq hne => leave_cons hne (.inr hq)
  rcases he.eq_or_lt with heq | hlt
  · have hfirst : leave code (e :: es) e.stop = e.text ++ leave code es e.stop := by
      simp [leave, heq]
    rw [heq, show n + 1 - e.stop = (n - e.stop) + 1 by omega, List.range'_succ, List.flatMap_cons,
      List.flatMap_cons, hfirst, List.append_assoc]
    congr 2
    refine List.flatMap_congr fun q hq => hrest q ?_ ?_ <;> rw [List.mem_range'_1] at hq <;> omega
  · have hnone : ∀ q, q < e.stop → es.filter (·.start = q) = [] := fun q hq => by
      simpa [List.filter_eq_nil_iff] using fun d hd => (hq.trans_le (hes d hd)).ne'
    have hfirst : leave code (e :: es) e.start = e.text := by
      simp [leave, hnone _ hlt, hlt]
    have hinside : (List.range' (e.start + 1) (e.stop - (e.start + 1))).flatMap
        (leave code (e :: es)) = [] := by
      rw [List.flatMap_eq_nil_iff]
      intro q hq
      rw [List.mem_range'_1] at hq
      simp only [leave, List.filter_cons, hnone q (by omega), List.any_cons,
        show e.start ≤ q by omega, show q < e.stop by omega]
      simp
      omega
    have hsplit : List.range' e.start (n + 1 - e.start) = e.start ::
        (List.range' (e.start + 1) (e.stop - (e.start + 1)) ++
          List.range' e.stop (n + 1 - e.stop)) := by
      rw [show n + 1 - e.start = (n - e.start) + 1 by omega, List.range'_succ,
        show List.range' e.stop (n + 1 - e.stop) =
          List.range' (e.start + 1 + (e.stop - (e.start + 1))) (n + 1 - e.stop) by congr 1; omega,
        List.range'_append_1]
      congr 2
      omega
    rw [hsplit, List.flatMap_cons, List.flatMap_append, hfirst, hinside, List.nil_append]
    congr 1
    refine List.flatMap_congr fun q hq => hrest q ?_ ?_ <;> rw [List.mem_range'_1] at hq <;> omega

theorem Ascending.start_le (h : Ascending n p es) : ∀ e ∈ es, p ≤ e.start := by
  induction es generalizing p with
  | nil => simp
  | cons e es ih =>
    obtain ⟨hp, he, hes⟩ := h
    have := ih hes
    simpa using ⟨hp, fun d hd => (hp.trans he).trans (this d hd)⟩

/-- Offset by offset, ascending edits leave what they assemble. -/
theorem flatMap_leave (h : Ascending code.length p es) :
    (List.range' p (code.length + 1 - p)).flatMap (leave code es) = assemble code p es := by
  induction es generalizing p with
  | nil =>
    have hp : p ≤ code.length := h
    have hnone : leave code [] = fun q => (code[q]?).toList := funext fun q => leave_of_lt (by simp)
    rw [hnone, flatMap_getElem?, assemble, Text.slice, List.take_of_length_le]
    rw [List.length_drop]
    omega
  | cons e es ih =>
    obtain ⟨hp, he, hes⟩ := h
    have hle := hes.le
    have hbefore : (List.range' p (e.start - p)).flatMap (leave code (e :: es)) =
        Text.slice code p e.start := by
      rw [show Text.slice code p e.start = Text.slice code p (p + (e.start - p)) by congr 1; omega,
        ← flatMap_getElem?]
      refine List.flatMap_congr fun q hq => leave_of_lt fun d hd => ?_
      rw [List.mem_range'_1] at hq
      have := hes.start_le
      rcases List.mem_cons.mp hd with rfl | hd
      · omega
      · have := this d hd
        omega
    have hsplit : List.range' p (code.length + 1 - p) =
        List.range' p (e.start - p) ++ List.range' e.start (code.length + 1 - e.start) := by
      rw [show List.range' e.start (code.length + 1 - e.start) =
        List.range' (p + (e.start - p)) (code.length + 1 - e.start) by congr 1; omega,
        List.range'_append_1]
      congr 1
      omega
    rw [hsplit, List.flatMap_append, hbefore, flatMap_leave_cons he hle hes.start_le, assemble,
      ← ih hes, List.append_assoc]

theorem leave_perm (hc : es.Pairwise Clear) (hp : ds.Perm es) : leave code ds p = leave code es p := by
  -- at most one of the edits starts at the offset
  have hone : ∀ fs : List Edit, fs.Pairwise Clear →
      (fs.filter (·.start = p)).Pairwise fun _ _ => False := by
    intro fs hfs
    refine (hfs.filter fun e => e.start = p).imp_of_mem fun hd he h => h.start_ne ?_
    rw [List.mem_filter, decide_eq_true_eq] at hd he
    rw [hd.2, he.2]
  have hfilter : ds.filter (·.start = p) = es.filter (·.start = p) :=
    List.Perm.eq_of_pairwise (fun _ _ _ _ h => h.elim)
      (hone ds ((hp.pairwise_iff fun h => Clear.symm h).mpr hc)) (hone es hc) (hp.filter _)
  rw [leave, leave, hfilter, hp.any_eq]

theorem rewritten_perm (hc : es.Pairwise Clear) (hp : ds.Perm es) :
    rewritten code ds = rewritten code es :=
  List.flatMap_congr fun _ _ => leave_perm hc hp

end Rewriting

section Application

variable (hw : ∀ e ∈ es, Within code e) (hc : es.Pairwise Clear)
include hw hc

/-- In the order of the text, edits that keep clear of each other are ascending. -/
theorem ascending_ordered : Ascending code.length 0 (ordered es).reverse := by
  have hperm := ordered_perm es
  refine ascending_of_pairwise (fun e he => hw e ?_) ?_ (by simp) (Nat.zero_le _)
  · exact hperm.mem_iff.mp (List.mem_reverse.mp he)
  · rw [List.pairwise_reverse]
    have hclear := (hperm.pairwise_iff fun h => Clear.symm h).mpr hc
    exact (hclear.and (ordered_pairwise es)).imp fun h => h.1.stop_le h.2

theorem applyAll_eq_assemble : applyAll code es = assemble code 0 (ordered es).reverse := by
  have := foldr_apply (ascending_ordered hw hc)
  rwa [List.foldr_reverse] at this

/-- Whatever their order, edits that keep clear of each other replace their ranges and no more. -/
theorem applyAll_eq_rewritten : applyAll code es = rewritten code es := by
  have hperm : (ordered es).reverse.Perm es := (List.reverse_perm _).trans (ordered_perm es)
  rw [applyAll_eq_assemble hw hc, ← rewritten_perm hc hperm, ← flatMap_leave (ascending_ordered hw hc),
    rewritten, List.range_eq_range']
  rfl

end Application

end Edit

end SwiftMacros
