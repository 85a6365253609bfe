import Mathlib
import SwiftMacros.Proofs.Token.Reads

/-! The seam that is left when something is taken out of a text. What stands in front of it ends with
neither a word nor an operator character, so that no lexeme there goes on; it is read as before in
front of any text that does not start with a quote or make a point mean something else. -/

namespace SwiftMacros.Token

/-- A text that changes nothing about a point, a delimiter or a stop in front of it. -/
structure Calm (t : Text) : Prop where
  quote : t.head? ≠ some '"'
  point : t.head? ≠ some '.'
  angle : t.head? ≠ some '<'
  pointless : Pointless t

/-- The text ends with neither a word nor an operator character. -/
def Settled (t : Text) : Prop :=
  ∀ d ∈ t.getLast?, Text.isWord d = false ∧ isOperatorChar d = false

section Points

theorem pointless_of_head {c : Char} {t : Text} (hd : Text.isDecimal c = false)
    (hh : isHexPart c = false) : Pointless (c :: t) := by
  simp [Pointless, digitsLength?, nonemptyRun?, runLength_cons, hd, hh]

/-- Hexadecimal digits, and a character behind them that starts no exponent. -/
theorem pointless_run {h : Text} {d : Char} (hh : ∀ c ∈ h, isHexPart c = true)
    (hd : isHexPart d = false) (hp : d ≠ 'p' ∧ d ≠ 'P')
    (hfirst : ∀ c ∈ (h ++ [d]).head?, Text.isDecimal c = false) (t : Text) :
    Pointless (h ++ d :: t) := by
  have hrun : runLength isHexPart (h ++ d :: t) = h.length := by
    rw [runLength_stop (by simpa using hd), runLength, List.takeWhile_eq_self_iff.mpr hh]
  refine ⟨?_, fun n hn => ?_⟩
  · cases h with
    | nil => simp [digitsLength?, hfirst d (by simp)]
    | cons c h => simp [digitsLength?, hfirst c (by simp)]
  · rw [nonemptyRun?, hrun] at hn
    split at hn
    · cases hn
    · cases hn
      rw [List.drop_left]
      simp [binaryExponentLength?, hp.1, hp.2]

theorem Stops.pointless {r : Text} (h : Stops r) : Pointless r := by
  cases r with
  | nil => exact ⟨rfl, by simp [nonemptyRun?]⟩
  | cons c r =>
    have hend := isEnd_of_isStop (h c (by simp))
    exact pointless_of_head (ends_isDecimal c hend) (ends_isHexPart c hend)

/-- Some points in front of a text that starts no fraction. -/
theorem free_points {r : Text} (hr : Pointless r) (n : Nat) :
    Free (List.replicate (n + 1) '.' ++ r) := by
  rintro c t ht
  obtain ⟨rfl, rfl⟩ := List.cons.inj ht
  refine .inr (.inr ⟨rfl, ?_⟩)
  cases n with
  | zero => exact hr
  | succ n => exact pointless_of_head (by decide) (by decide)

theorem apart_points {x r : Text} (hx : x.getLast? ≠ some '.') (hr : Pointless r) (n : Nat) :
    Apart x (List.replicate (n + 1) '.' ++ r) := by
  refine ⟨free_points hr n, fun c hc d hd => ?_⟩
  obtain rfl : '.' = c := by simpa [List.replicate_succ] using hc
  refine ⟨by simp [isMarkChar], ?_⟩
  rintro - rfl
  exact hx hd

theorem operatorLength_point (t : Text) : operatorLength? ('.' :: t) =
    if ['.', '.'].isPrefixOf t ∨ ['.', '<'].isPrefixOf t then some 3 else none := by
  simp [operatorLength?, nonemptyRun?, runLength_cons, isOperatorChar]

theorem lexeme_pointed {t : Text} {l : Kind × Nat}
    (h : firstOf (openClasses.drop 6) ('.' :: t) = some l) : lexeme ('.' :: t) = .ok l :=
  lexeme_of_simple (Quoting.opens?_eq_none (by decide) (by decide) _) rfl (by
    rw [simpleLexeme_eq (by decide) (by decide) rfl,
      firstOf_openClasses_bare (by decide) (by decide), h])

/-- A point is a lexeme of its own, unless it starts a range operator. -/
theorem lexeme_point {t : Text} (h : ¬ (['.', '.'].isPrefixOf t ∨ ['.', '<'].isPrefixOf t)) :
    lexeme ('.' :: t) = .ok (.dot, 1) := by
  refine lexeme_pointed ?_
  simp only [firstOf, openClasses, List.drop_succ_cons, List.drop_zero, List.findSome?_cons,
    operatorLength_point, if_neg h]
  rfl

theorem lexeme_range {t : Text} (h : ['.', '.'].isPrefixOf t ∨ ['.', '<'].isPrefixOf t) :
    lexeme ('.' :: t) = .ok (.operator, 3) := by
  refine lexeme_pointed ?_
  simp only [firstOf, openClasses, List.drop_succ_cons, List.drop_zero, List.findSome?_cons,
    operatorLength_point, if_pos h]
  rfl

end Points

section Calm

theorem calm_cons {c : Char} (hc : c ∉ ['"', '.', '<']) (hd : Text.isDecimal c = false)
    (hh : isHexPart c = false) (t : Text) : Calm (c :: t) := by
  simp only [List.mem_cons, List.not_mem_nil, or_false, not_or] at hc
  exact ⟨by simpa using hc.1, by simpa using hc.2.1, by simpa using hc.2.2, pointless_of_head hd hh⟩

/-- A stop that is no quote. -/
theorem calm_stop {c : Char} (hc : isStop c = true) (hq : c ≠ '"') (t : Text) : Calm (c :: t) := by
  have hend := isEnd_of_isStop hc
  refine calm_cons ?_ (ends_isDecimal c hend) (ends_isHexPart c hend) t
  simp only [List.mem_cons, List.not_mem_nil, or_false, not_or]
  refine ⟨hq, (isStop_iff.mp hc).2.2, ?_⟩
  rintro rfl
  cases isOperatorChar_of_isStop hc

/-- A word in front of which no number goes on: its first character that is no hexadecimal digit is
there and starts no exponent, and its first one is a letter. -/
def isFence (w : Text) : Bool :=
  w.head?.any (fun c => !Text.isDecimal c && c != '"' && c != '.' && c != '<') &&
    (!w.head?.any isHexPart || (w.dropWhile isHexPart).head?.any fun d => d != 'p' && d != 'P')

theorem calm_of_isFence {w : Text} (h : isFence w = true) (t : Text) : Calm (w ++ t) := by
  obtain ⟨c, w, rfl⟩ : ∃ c v, w = c :: v := by
    cases w with
    | nil => cases h
    | cons c w => exact ⟨c, w, rfl⟩
  simp only [isFence, List.head?_cons, Option.any_some, Bool.and_eq_true, Bool.not_eq_true',
    Bool.or_eq_true, bne_iff_ne] at h
  obtain ⟨⟨⟨⟨hd, hquote⟩, hpoint⟩, hangle⟩, hrest⟩ := h
  have hc : c ∉ ['"', '.', '<'] := by simp [hquote, hpoint, hangle]
  rcases hrest with hh | hrest
  · exact calm_cons hc hd hh _
  · obtain ⟨d, hd', hp⟩ := (Option.any_eq_true _ _).mp hrest
    obtain ⟨v, hv⟩ := List.head?_eq_some_iff.mp hd'
    have hsplit : c :: w = (c :: w).takeWhile isHexPart ++ d :: v := by
      rw [← hv, List.takeWhile_append_dropWhile]
    have hnot : isHexPart d = false := by
      have := List.head?_dropWhile_not isHexPart (c :: w)
      simpa [hd'] using this
    refine ⟨by simpa using hquote, by simpa using hpoint, by simpa using hangle, ?_⟩
    rw [hsplit, List.append_assoc, List.cons_append]
    refine pointless_run (fun e he => List.mem_takeWhile_imp he) hnot (by simpa using hp) ?_ _
    have hhead : ((c :: w).takeWhile isHexPart ++ [d]).head? = some c := by
      have : ((c :: w).takeWhile isHexPart ++ d :: v).head? = some c := by rw [← hsplit]; rfl
      simpa using this
    simpa [hhead] using hd

end Calm

section Endings

variable {x r : Text} {k : Kind} {n : Nat}

theorem literal_last (h : lexeme (x ++ r) = .ok (.string, x.length)) :
    ∀ d ∈ x.getLast?, d = '"' ∨ d = '#' := by
  intro d hd
  rcases lexeme_cases h with ⟨q, -, -, hl⟩ | ⟨-, -, hc, -⟩ | ⟨-, -, hs⟩
  · obtain ⟨s, rfl⟩ := scanLiteral_suffix rfl
      (show scanLiteral [.literal 0 q] q.opening.length 0 (x ++ r) = .ok (0 + x.length) by
        simpa [literalLength] using hl)
    have hne : q.closing ≠ [] := by
      apply List.ne_nil_of_length_pos
      rw [q.closing_length]
      exact opening_length_pos q
    rw [List.getLast?_append_of_ne_nil s hne] at hd
    have hmem := List.mem_of_getLast? hd
    simp only [Quoting.closing, Quoting.quotes, Quoting.poundText, List.mem_append,
      List.mem_replicate] at hmem
    split at hmem <;> simp at hmem <;> tauto
  · cases hc
  · exact absurd rfl (simpleLexeme_ne_string hs)

/-- A lexeme without delimiters does not take a text that stands apart from what is in front of it.
-/
theorem lexeme_apart {u : Text} (h : lexeme (x ++ u) = .ok (k, n)) (hk : k.isTrivia = false)
    (hx : x ≠ []) (hu : Apart x u) (hs : k ≠ .string) (hb : x.head? ≠ some '`') : n ≤ x.length := by
  obtain ⟨c, x, rfl⟩ := List.exists_cons_of_ne_nil hx
  rcases lexeme_cases h with ⟨q, -, hq, -⟩ | ⟨-, -, hc, -⟩ | ⟨-, -, hl⟩
  · exact absurd hq hs
  · exact absurd hc (not_comment_of_significant hk)
  · obtain ⟨hgap, hline⟩ := simpleLexeme_significant (t := x ++ u) hl hk
    rw [List.cons_append, simpleLexeme_eq hgap (by simpa using hb) hline, ← List.cons_append,
      firstOf_stop local_openClasses hx hu] at hl
    exact (firstOf_le local_openClasses hl).2

theorem lexeme_backquoted {t : Text} {n : Nat} (h : lexeme ('`' :: t) = .ok (k, n)) :
    k = .identifier ∧ backquotedLength? ('`' :: t) = some n := by
  rcases lexeme_cases h with ⟨q, hq, -, -⟩ | ⟨-, hp, -, -⟩ | ⟨-, -, hs⟩
  · simp [Quoting.opens?_eq_none (c := '`') (by decide) (by decide) t] at hq
  · cases hp
  · exact simpleLexeme_backquote hs

theorem lexeme_of_backquoted {t : Text} {n : Nat} (h : backquotedLength? ('`' :: t) = some n) :
    lexeme ('`' :: t) = .ok (.identifier, n) :=
  lexeme_of_simple (Quoting.opens?_eq_none (by decide) (by decide) _) rfl
    (simpleLexeme_of_backquoted h)

/-- A single stop is a lexeme in front of any text, or of none. -/
theorem lexeme_stop {d : Char} (hd : isStop d = true) (h : lexeme (d :: r) = .ok (k, 1))
    (hk : k.isTrivia = false) (r' : Text) : lexeme (d :: r') = .ok (k, 1) := by
  rcases lexeme_cases h with ⟨q, -, -, hl⟩ | ⟨-, -, hc, -⟩ | ⟨hopen, -, hs⟩
  · have := (literalLength_bounds hl).1
    have := opening_length_pos q
    omega
  · exact absurd hc (not_comment_of_significant hk)
  have hslash : d ≠ '/' := by
    rintro rfl
    cases isOperatorChar_of_isStop hd
  have hpoint : d ≠ '.' := (isStop_iff.mp hd).2.2
  obtain ⟨hgap, hline⟩ := simpleLexeme_significant hs hk
  have hback : d ≠ '`' := by
    rintro rfl
    have hlength := (simpleLexeme_backquote hs).2
    simp only [backquotedLength?] at hlength
    split at hlength <;> cases hlength
  -- as a lexeme it is told by itself
  rw [simpleLexeme_eq hgap hback hline] at hs
  have halone := firstOf_keep local_openClasses (x := [d]) hs le_rfl
  have hsigil : ∀ c ∈ ['"', '#', '@', '$'], d ≠ c := by
    have hnone : ∀ c ∈ ['"', '#', '@', '$'], firstOf openClasses [c] = none := by
      simp only [List.forall_mem_cons]
      exact ⟨by decide, by decide, by decide, by decide, by simp⟩
    rintro c hc rfl
    rw [hnone d hc] at halone
    cases halone
  simp only [List.forall_mem_cons] at hsigil
  obtain ⟨hquote, hpound, hat, hdollar, -⟩ := hsigil
  have hminus : d ≠ '-' := by
    rintro rfl
    cases isOperatorChar_of_isStop hd
  have hoperator : ∀ t, operatorLength? (d :: t) = none := fun t => by
    simp [operatorLength?, Ne.symm hpoint, nonemptyRun?, runLength_cons, isOperatorChar_of_isStop hd]
  have hfirst : firstOf openClasses (d :: r') = firstOf openClasses [d] := by
    rw [firstOf_openClasses_bare (isStop_iff.mp hd).1 ⟨hpound, hat, hdollar, hminus⟩,
      firstOf_openClasses_bare (isStop_iff.mp hd).1 ⟨hpound, hat, hdollar, hminus⟩]
    simp only [firstOf, openClasses, List.drop_succ_cons, List.drop_zero, List.findSome?_cons,
      List.findSome?_nil, hoperator, charLength?]
  have hline' : ∀ t, lineComment.isPrefixOf (d :: t) = false := fun t => by
    simp [lineComment, List.isPrefixOf, Ne.symm hslash]
  refine lexeme_of_simple (Quoting.opens?_eq_none hpound hquote _) ?_ ?_
  · simp [blockOpen, List.isPrefixOf, Ne.symm hslash]
  · rw [simpleLexeme_eq hgap hback (hline' r'), hfirst, halone]

/-- The points at the end of a text. -/
theorem exists_points (t : Text) :
    ∃ x n, t = x ++ List.replicate n '.' ∧ x.getLast? ≠ some '.' := by
  induction t using List.reverseRecOn with
  | nil => exact ⟨[], 0, rfl, by simp⟩
  | append_singleton t d ih =>
    by_cases hd : d = '.'
    · obtain ⟨x, n, rfl, hx⟩ := ih
      exact ⟨x, n + 1, by rw [hd, List.append_assoc, List.replicate_succ'], hx⟩
    · exact ⟨t ++ [d], 0, by simp, by simpa using hd⟩

theorem lexeme_points {n : Nat} (hr : r.head? ≠ some '.' ∧ r.head? ≠ some '<') {r' : Text}
    (hr' : r'.head? ≠ some '.' ∧ r'.head? ≠ some '<') :
    lexeme ('.' :: (List.replicate n '.' ++ r)) = lexeme ('.' :: (List.replicate n '.' ++ r')) := by
  have hstart : ∀ {t : Text}, t.head? ≠ some '.' ∧ t.head? ≠ some '<' →
      (['.', '.'].isPrefixOf (List.replicate n '.' ++ t) ∨
        ['.', '<'].isPrefixOf (List.replicate n '.' ++ t) ↔ 2 ≤ n) := by
    intro t ⟨hpoint, hangle⟩
    match n, t with
    | 0, [] | 1, [] => simp
    | 0, c :: t =>
      have hc : ('.' == c) = false := beq_eq_false_iff_ne.mpr fun h => hpoint (by rw [h]; rfl)
      simp [List.isPrefixOf, hc]
    | 1, c :: t =>
      have hc : ('.' == c) = false := beq_eq_false_iff_ne.mpr fun h => hpoint (by rw [h]; rfl)
      have hc' : ('<' == c) = false := beq_eq_false_iff_ne.mpr fun h => hangle (by rw [h]; rfl)
      simp [List.isPrefixOf, hc, hc']
    | n + 2, t => simp [List.replicate_succ]
  by_cases hn : 2 ≤ n
  · rw [lexeme_range ((hstart hr).mpr hn), lexeme_range ((hstart hr').mpr hn)]
  · rw [lexeme_point (mt (hstart hr).mp hn), lexeme_point (mt (hstart hr').mp hn)]

section Seam

variable {y v r' : Text} (h : lexeme (y ++ (v ++ r)) = .ok (k, y.length)) (hk : k.isTrivia = false)
  (hr : Stops r) (hr' : Calm r')
include h hk

/-- What stands in front of a text that stands apart is left as it is. -/
theorem lexeme_front {x w : Text} (hw : y ++ v = x ++ w) (hle : y.length ≤ x.length)
    (hapart : Apart x (w ++ r')) (hquote : (w ++ r').head? = some '"' → (w ++ r).head? = some '"') :
    lexeme (y ++ (v ++ r')) = .ok (k, y.length) := by
  rw [← List.append_assoc, hw, List.append_assoc] at h ⊢
  exact lexeme_append h hle hk (.inl hapart) hquote

include hr'

/-- A lexeme that ends with a stop. -/
theorem lexeme_seam_stop {d : Char} {z : Text} (hd : isStop d = true) (hz : y ++ v = z ++ [d]) :
    lexeme (y ++ (v ++ r')) = .ok (k, y.length) := by
  rcases Nat.lt_or_ge z.length y.length with hlt | hle
  · have hlength := congrArg List.length hz
    simp only [List.length_append, List.length_singleton] at hlength
    obtain rfl : v = [] := List.length_eq_zero_iff.mp (by omega)
    rw [List.append_nil] at hz
    subst hz
    rw [List.nil_append] at h ⊢
    by_cases hs : k = .string
    · subst hs
      exact lexeme_append_literal h fun hq => absurd hq hr'.quote
    by_cases hb : (z ++ [d]).head? = some '`'
    · obtain ⟨x, hx⟩ := List.head?_eq_some_iff.mp hb
      rw [hx] at h ⊢
      obtain ⟨rfl, hback⟩ := lexeme_backquoted h
      exact lexeme_of_backquoted (backquoted_append (x := '`' :: x) hback le_rfl r').1
    rcases eq_or_ne z [] with rfl | hne
    · exact lexeme_stop hd h hk r'
    · rw [List.append_assoc] at h
      have hb' : z.head? ≠ some '`' := by
        obtain ⟨c, z, rfl⟩ := List.exists_cons_of_ne_nil hne
        exact hb
      have := lexeme_apart h hk hne ((stops_cons hd).apart z) hs hb'
      simp at this
  · exact lexeme_front h hk hz hle ((stops_cons hd).apart z) id

include hr

/-- A lexeme that ends with a point is one, or a range operator. -/
theorem lexeme_seam_points {x : Text} {n : Nat} (hz : y ++ v = x ++ List.replicate (n + 1) '.')
    (hx : x.getLast? ≠ some '.') : lexeme (y ++ (v ++ r')) = .ok (k, y.length) := by
  rcases Nat.lt_or_ge x.length y.length with hlt | hle
  · obtain ⟨w, rfl, hw⟩ : ∃ w, y = x ++ w ∧ List.replicate (n + 1) '.' = w ++ v := by
      rcases List.append_eq_append_iff.mp hz with ⟨w, rfl, -⟩ | ⟨w, hy, hw⟩
      · simp only [List.length_append] at hlt
        omega
      · exact ⟨w, hy, hw⟩
    have hne : w ≠ [] := by
      rintro rfl
      simp at hlt
    have hpoints : ∀ c ∈ w, c = '.' := fun c hc =>
      List.eq_of_mem_replicate (hw.symm ▸ List.mem_append_left v hc : c ∈ List.replicate (n + 1) '.')
    have hlast : (x ++ w).getLast? = some '.' := by
      rw [List.getLast?_append_of_ne_nil _ hne, List.getLast?_eq_some_getLast hne,
        hpoints _ (List.getLast_mem hne)]
    -- no literal and no name in backquotes ends with a point
    have hs : k ≠ .string := by
      rintro rfl
      rcases literal_last h _ hlast with h | h <;> cases h
    have hb : (x ++ w).head? ≠ some '`' := by
      intro hb
      obtain ⟨u, hu⟩ := List.head?_eq_some_iff.mp hb
      rw [hu] at h hlast
      have := (backquoted_append (x := '`' :: u) (lexeme_backquoted h).2 le_rfl r').2.2
      rw [← List.getLast?_eq_getElem?, hlast] at this
      cases this
    rcases eq_or_ne x [] with rfl | hx'
    · rw [List.nil_append] at h ⊢
      have hall : ∀ t, w ++ (v ++ t) = '.' :: (List.replicate n '.' ++ t) := fun t => by
        rw [← List.append_assoc, ← hw]
        rfl
      rw [hall] at h ⊢
      rw [← lexeme_points ⟨?_, ?_⟩ ⟨hr'.point, hr'.angle⟩, h]
      all_goals
        intro hhead
        exact absurd (hr _ hhead) (by decide)
    · have hb' : x.head? ≠ some '`' := by
        obtain ⟨c, x, rfl⟩ := List.exists_cons_of_ne_nil hx'
        exact hb
      have hapart : Apart x (w ++ (v ++ r)) := by
        rw [← List.append_assoc, ← hw]
        exact apart_points hx hr.pointless n
      rw [List.append_assoc] at h
      have := lexeme_apart h hk hx' hapart hs hb'
      omega
  · exact lexeme_front h hk hz hle (apart_points hx hr'.pointless n) (by simp [List.replicate_succ])

/-- A lexeme within a settled text stands if the stop behind the text is replaced by a calm text. -/
theorem lexeme_seam (hlast : Settled (y ++ v)) : lexeme (y ++ (v ++ r')) = .ok (k, y.length) := by
  have hy : y ≠ [] := List.ne_nil_of_length_pos (lexeme_bounds h hk).1
  obtain ⟨x, n, hz, hx⟩ := exists_points (y ++ v)
  cases n with
  | succ n => exact lexeme_seam_points h hk hr hr' hz hx
  | zero =>
    rw [List.replicate_zero, List.append_nil] at hz
    obtain ⟨z, d, rfl⟩ : ∃ z d, x = z ++ [d] := by
      rcases List.eq_nil_or_concat x with rfl | ⟨z, d, hz⟩
      · exact absurd (List.append_eq_nil_iff.mp hz).1 hy
      · exact ⟨z, d, by rw [hz, List.concat_eq_append]⟩
    obtain ⟨hword, hoperator⟩ := hlast d (by rw [hz]; simp)
    exact lexeme_seam_stop h hk hr' (isStop_iff.mpr ⟨hword, hoperator, by simpa using hx⟩) hz

end Seam

end Endings

/-- A text that is settled is read as before if the stop behind it is replaced by a calm text. -/
theorem Reads.seam {t x r : Text} {ls : List Word} (h : Reads t ls r) (ht : t = x ++ r)
    (hx : Settled x) (hr : Stops r) {r' : Text} (hr' : Calm r') : Reads (x ++ r') ls r' := by
  induction h generalizing x with
  | done r =>
    obtain rfl : x = [] := by simpa using ht
    exact .done _
  | @chunk y u r a ls hc hrest ih =>
    obtain ⟨v, rfl⟩ := hrest.suffix
    obtain rfl : x = y ++ v := by simpa [← List.append_assoc] using ht.symm
    have hv : Settled v := by
      intro d hd
      refine hx d ?_
      rw [List.getLast?_append_of_ne_nil y (by rintro rfl; simp at hd)]
      exact hd
    rw [List.append_assoc]
    refine .chunk ?_ (ih rfl hv hr)
    cases hc with
    | gap hg => exact .gap hg
    | lineComment hy => exact .lineComment hy
    | blockComment hp hl => exact .blockComment hp (lexeme_blockComment hp hl _).2
    | lexeme hl hk => exact .lexeme (lexeme_seam hl hk hr hr' hx) hk

end SwiftMacros.Token
