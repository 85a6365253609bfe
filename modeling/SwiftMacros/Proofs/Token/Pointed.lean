import Mathlib
import SwiftMacros.Proofs.Cursor.Slice
import SwiftMacros.Proofs.Token.Seam

/-! Lexemes in front of a point. A name ends there whatever follows. Digits go on over the point if
digits stand behind it, so that two numbers with a point between them are one floating literal. -/

namespace SwiftMacros.Token

variable {c : Char} {n m t r x : Text}

/-- What starts with a word character or a dollar sign is read by the open classes. -/
theorem lexeme_of_firstOf {k : Kind} {l : Nat} (hc : Text.isWord c = true ∨ c = '$')
    (h : firstOf openClasses (c :: t) = some (k, l)) : lexeme (c :: t) = .ok (k, l) := by
  have hne : ∀ d ∈ ['"', '#', '`', '/', ' ', '\t', '\x0c', '\r', '\n'], c ≠ d := by
    rintro d hd rfl
    fin_cases hd <;> exact absurd hc (by decide)
  simp only [List.forall_mem_cons] at hne
  obtain ⟨hquote, hpound, hback, hslash, hspace, htab, hfeed, hreturn, hline, -⟩ := hne
  have hgap : isGap c = false := by simp [isGap, isSpaceChar, hspace, htab, hfeed, hreturn, hline]
  refine lexeme_of_simple (Quoting.opens?_eq_none hpound hquote _) ?_ ?_
  · simp [blockOpen, List.isPrefixOf, Ne.symm hslash]
  · rw [simpleLexeme_eq hgap hback, h]
    simp [lineComment, List.isPrefixOf, Ne.symm hslash]

theorem runLength_all {p : Char → Bool} (hx : ∀ d ∈ x, p d = true) (hr : ∀ d ∈ r.head?, p d = false) :
    runLength p (x ++ r) = x.length := by
  rw [runLength_stop hr, runLength, List.takeWhile_eq_self_iff.mpr hx]

/-- A text that is a run of `p` and one character behind it. -/
theorem mem_of_runLength {p : Char → Bool} {d e : Char} (hlen : runLength p x + 1 = x.length)
    (hhead : (x.drop (runLength p x)).head? = some e) (hd : d ∈ x) : p d = true ∨ d = e := by
  have hsplit := List.takeWhile_append_dropWhile (p := p) (l := x)
  obtain ⟨y, hy⟩ := List.head?_eq_some_iff.mp hhead
  have hdrop : x.drop (runLength p x) = x.dropWhile p :=
    (congrArg (List.drop (runLength p x)) hsplit.symm).trans List.drop_left
  rw [hdrop] at hy
  have hone := congrArg List.length hsplit
  rw [List.length_append, hy, List.length_cons] at hone
  obtain rfl : y = [] := List.eq_nil_of_length_eq_zero (by rw [runLength] at hlen; omega)
  rw [← hsplit, hy, List.mem_append, List.mem_singleton] at hd
  exact hd.imp_left List.mem_takeWhile_imp

section Names

/-- The three ways to write a name. -/
theorem IsName.cases (h : IsName n) : backquotedLength? n = some n.length ∨
    ∃ c x, n = c :: x ∧ (∀ d ∈ x, Text.isWord d = true) ∧
      (c = '$' ∧ x ≠ [] ∨ Text.isNameStart c = true) := by
  obtain ⟨r, hr⟩ := h
  obtain ⟨f, hm, hf⟩ := lexeme_class hr rfl (by decide)
  obtain rfl : f = identifierLength? := by simpa [classes] using hm
  obtain ⟨c, x, rfl⟩ := List.exists_cons_of_length_pos (lexeme_bounds hr rfl).1
  simp only [identifierLength?, Option.or_eq_some_iff] at hf
  rcases hf with hf | ⟨-, hf | ⟨-, hf⟩⟩
  · exact .inl (by simpa using (backquoted_append hf le_rfl []).1)
  · rw [List.cons_append, dollarLength?.eq_def] at hf
    split at hf
    next t ht =>
      obtain ⟨rfl, rfl⟩ := List.cons.inj ht
      obtain ⟨l, hl, hlen⟩ := Option.map_eq_some_iff.mp hf
      have hrun := nonemptyRun_eq_some hl
      rw [List.length_cons] at hlen
      refine .inr ⟨'$', x, rfl, (of_runLength_eq (u := r) (by omega)).1, .inl ⟨rfl, ?_⟩⟩
      rintro rfl
      rw [List.length_nil] at hlen
      omega
    next => cases hf
  · rw [List.cons_append, nameLength?_eq, Option.ite_none_right_eq_some, Option.some.injEq,
      List.length_cons] at hf
    exact .inr ⟨c, x, rfl, (of_runLength_eq (u := r) (by omega)).1, .inr hf.1⟩

/-- A name is read in front of anything that no word goes on with. -/
theorem IsName.lexeme_eq (h : IsName n) (hr : ∀ d ∈ r.head?, Text.isWord d = false) :
    lexeme (n ++ r) = .ok (.identifier, n.length) := by
  rcases h.cases with hback | ⟨c, x, rfl, hx, hc⟩
  · have hlength := (backquoted_append (x := n) (r := []) (by rwa [List.append_nil]) le_rfl r).1
    obtain ⟨c, x, rfl⟩ := List.exists_cons_of_length_pos (l := n) (by
      obtain ⟨u, hu⟩ := h
      exact (lexeme_bounds hu rfl).1)
    obtain rfl : c = '`' := by
      by_contra hc
      rw [backquoted_of_ne hc] at hback
      cases hback
    exact lexeme_of_backquoted hlength
  · have hrun := runLength_all hx hr
    have hcopen : Text.isWord c = true ∨ c = '$' := by
      rcases hc with ⟨rfl, -⟩ | hc
      · exact .inr rfl
      · rw [Text.isNameStart, Bool.and_eq_true] at hc
        exact .inl hc.1
    have hdecimal : Text.isDecimal c = false := by
      rcases hc with ⟨rfl, -⟩ | hc
      · rfl
      · rw [Text.isNameStart, Bool.and_eq_true, Bool.not_eq_true'] at hc
        exact hc.2
    have hzero : c ≠ '0' := by
      rintro rfl
      exact absurd hdecimal (by decide)
    have hsigil : c ≠ '#' ∧ c ≠ '@' := by
      constructor <;> rintro rfl <;> exact absurd hcopen (by decide)
    refine lexeme_of_firstOf hcopen ?_
    have hname : (dollarLength? (c :: (x ++ r))).or (nameLength? (c :: (x ++ r))) =
        some (c :: x).length := by
      rcases hc with ⟨rfl, hne⟩ | hc
      · have hpos := List.length_pos_iff.mpr hne
        simp [dollarLength?, nonemptyRun?, hrun, hne, Nat.add_comm]
      · have hdollar : c ≠ '$' := by
          rintro rfl
          exact absurd hc (by decide)
        simp [dollarLength?, hdollar, nameLength?, hc, hrun, Nat.add_comm]
    simp [firstOf, openClasses, floatLength?, hexFloatLength?, decimalFloatLength?, integerLength?,
      digitsLength?, hdecimal, markedLength?_eq, hzero, sigilNameLength?, hsigil, hname]

/-- A name starts with neither a digit nor a point. -/
theorem IsName.exists_cons (h : IsName n) : ∃ c x, n = c :: x ∧ Text.isDecimal c = false ∧ c ≠ '.' := by
  rcases h.cases with hback | ⟨c, x, rfl, -, hc⟩
  · rcases n with _ | ⟨c, x⟩
    · cases hback
    · obtain rfl : c = '`' := by
        by_contra hc
        rw [backquoted_of_ne hc] at hback
        cases hback
      exact ⟨_, _, rfl, rfl, by decide⟩
  · rcases hc with ⟨rfl, -⟩ | hc
    · exact ⟨_, _, rfl, rfl, by decide⟩
    · refine ⟨c, x, rfl, ?_, ?_⟩
      · rw [Text.isNameStart, Bool.and_eq_true, Bool.not_eq_true'] at hc
        exact hc.2
      · rintro rfl
        exact absurd hc (by decide)

/-- No line ends within a name. -/
theorem IsName.newline_not_mem (h : IsName n) : '\n' ∉ n := by
  rcases h.cases with hback | ⟨c, x, rfl, hx, hc⟩
  · rcases n with _ | ⟨c, x⟩
    · cases hback
    · obtain rfl : c = '`' := by
        by_contra hc
        rw [backquoted_of_ne hc] at hback
        cases hback
      simp only [backquotedLength?] at hback
      split at hback
      next hhead =>
        rw [List.length_cons, Option.some.injEq] at hback
        intro hmem
        rcases mem_of_runLength (by omega) hhead.2 (show '\n' ∈ x by simpa using hmem) with h | h
        · simp at h
        · cases h
      next => cases hback
  · rw [List.mem_cons, not_or]
    refine ⟨?_, fun hmem => ?_⟩
    · rintro rfl
      rcases hc with ⟨h, -⟩ | hc
      · cases h
      · exact absurd hc (by decide)
    · exact absurd (hx _ hmem) (by decide)

end Names

section Digits

/-- A number written with decimal digits only. -/
structure IsDigits (m : Text) : Prop where
  ne_nil : m ≠ []
  digits : ∀ c ∈ m, Text.isDecimal c = true

instance (m : Text) : Decidable (IsDigits m) :=
  decidable_of_iff (m.isEmpty = false ∧ m.all Text.isDecimal = true)
    ⟨fun h => ⟨List.isEmpty_eq_false_iff.mp h.1, List.all_eq_true.mp h.2⟩,
      fun h => ⟨List.isEmpty_eq_false_iff.mpr h.1, List.all_eq_true.mpr h.2⟩⟩

namespace IsDigits

theorem digitsLength?_eq (hm : IsDigits m) (hr : ∀ d ∈ r.head?, d = '.') :
    digitsLength? (m ++ r) = some m.length := by
  obtain ⟨c, x, rfl⟩ := List.exists_cons_of_ne_nil hm.ne_nil
  have hrun : runLength Text.isDigitPart (x ++ r) = x.length :=
    runLength_all (fun d hd => by simp [Text.isDigitPart, hm.digits d (by simp [hd])])
      fun d hd => by rw [hr d hd]; rfl
  simp [digitsLength?, hm.digits c (by simp), hrun, Nat.add_comm]

/-- Digits are no number with a marker such as `0x`. -/
theorem markedLength?_eq (hm : IsDigits m) (hr : ∀ d ∈ r.head?, d = '.') {mark : Char}
    (hmark : Text.isDecimal mark = false ∧ mark ≠ '.') (p : Char → Bool) :
    markedLength? mark p (m ++ r) = none := by
  obtain ⟨c, x, rfl⟩ := List.exists_cons_of_ne_nil hm.ne_nil
  suffices markedTail? mark p (x ++ r) = none by
    rw [List.cons_append, Token.markedLength?_eq, this, Option.map_none, ite_self]
  cases hx : x ++ r with
  | nil => rfl
  | cons d y =>
    have hd : d ≠ mark := by
      rintro rfl
      cases x with
      | nil => exact hmark.2 (hr d (by simpa using congrArg List.head? hx))
      | cons e x =>
        obtain ⟨rfl, -⟩ := List.cons.inj hx
        simp [hm.digits e (by simp)] at hmark
    simp [markedTail?, hd]

theorem isWord (hm : IsDigits m) : ∃ c x, m = c :: x ∧ Text.isWord c = true := by
  obtain ⟨c, x, rfl⟩ := List.exists_cons_of_ne_nil hm.ne_nil
  exact ⟨c, x, rfl, isWord_of_isDigitPart (by simp [Text.isDigitPart, hm.digits c (by simp)])⟩

/-- A floating literal goes on over the point only if digits stand behind it. -/
theorem floatLength?_eq (hm : IsDigits m) (hr : ∀ d ∈ r.head?, d = '.') : floatLength? (m ++ r) =
    (digitsLength? r.tail).map fun l => m.length + (1 + (l + (exponentLength? (r.tail.drop l)).getD 0)) := by
  have hhex : hexFloatLength? (m ++ r) = none := by
    rw [hexFloatLength?, hm.markedLength?_eq hr (by decide)]
    rfl
  rw [floatLength?, hhex, Option.none_or, decimalFloatLength?_eq, hm.digitsLength?_eq hr, Option.bind_some,
    List.drop_left]
  cases r with
  | nil => rfl
  | cons d t =>
    obtain rfl := hr d rfl
    simp [decimalTail?, Function.comp_def]

/-- Digits are an integer literal in front of a point without digits behind it. -/
theorem lexeme_integer (hm : IsDigits m) (hr : ∀ d ∈ r.head?, d = '.') (ht : digitsLength? r.tail = none) :
    lexeme (m ++ r) = .ok (.integer, m.length) := by
  have hfloat := hm.floatLength?_eq hr
  rw [ht, Option.map_none] at hfloat
  have hinteger : integerLength? (m ++ r) = some m.length := by
    rw [integerLength?, hm.markedLength?_eq hr (by decide), hm.markedLength?_eq hr (by decide),
      hm.markedLength?_eq hr (by decide), hm.digitsLength?_eq hr]
    rfl
  obtain ⟨c, x, rfl, hc⟩ := hm.isWord
  refine lexeme_of_firstOf (.inl hc) ?_
  rw [List.cons_append] at hfloat hinteger
  simp [firstOf, openClasses, hfloat, hinteger]

/-- Two numbers with a point between them are one floating literal. -/
theorem lexeme_float (hm : IsDigits m) (hn : IsDigits n) (hr : ∀ d ∈ r.head?, d = '.') :
    lexeme (m ++ '.' :: (n ++ r)) = .ok (.float, (m ++ '.' :: n).length) := by
  have hexponent : exponentLength? r = none := by
    cases r with
    | nil => rfl
    | cons d t =>
      obtain rfl := hr d rfl
      rfl
  have hfloat := hm.floatLength?_eq (r := '.' :: (n ++ r)) (by simp)
  rw [List.tail_cons, hn.digitsLength?_eq hr, Option.map_some, List.drop_left, hexponent, Option.getD_none,
    Nat.add_zero] at hfloat
  obtain ⟨c, x, rfl, hc⟩ := hm.isWord
  refine lexeme_of_firstOf (.inl hc) ?_
  rw [List.cons_append] at hfloat
  simp [firstOf, openClasses, hfloat]
  omega

end IsDigits

end Digits

end SwiftMacros.Token
