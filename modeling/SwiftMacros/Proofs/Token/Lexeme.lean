import Mathlib
import SwiftMacros.Proofs.Token.Classes
import SwiftMacros.Proofs.Token.Enclosed

/-! Maximal munch is local. The lexeme at the front of a text is still the first one when the text
behind it is replaced, as long as what comes next is a stop. It neither starts nor ends with white
space. -/

namespace SwiftMacros.Token

/-- The first of some classes that fits, with its length. -/
def firstOf (l : List (Kind × (Text → Option Nat))) (t : Text) : Option (Kind × Nat) :=
  l.findSome? fun (kind, length?) => (length? t).map (kind, ·)

section FirstOf

variable {l : List (Kind × (Text → Option Nat))} (hl : ∀ p ∈ l, Local Apart p.2)
include hl

theorem firstOf_le {t : Text} {k : Kind} {n : Nat} (h : firstOf l t = some (k, n)) :
    0 < n ∧ n ≤ t.length := by
  obtain ⟨⟨k', f⟩, hm, hf⟩ := List.exists_of_findSome?_eq_some h
  simp only [Option.map_eq_some_iff, Prod.mk.injEq] at hf
  obtain ⟨m, hm', -, rfl⟩ := hf
  exact (hl _ hm).le hm'

theorem firstOf_stop {x r : Text} (hx : x ≠ []) (hr : Apart x r) :
    firstOf l (x ++ r) = firstOf l x := by
  induction l with
  | nil => rfl
  | cons p l ih =>
    have hp := (hl p (by simp)).stop hx hr
    have hrest := ih fun q hq => hl q (by simp [hq])
    simp only [firstOf, List.findSome?_cons, hp] at hrest ⊢
    rw [hrest]

theorem firstOf_keep {x r : Text} {k : Kind} {n : Nat} (h : firstOf l (x ++ r) = some (k, n))
    (hn : n ≤ x.length) : firstOf l x = some (k, n) := by
  induction l with
  | nil => simp [firstOf] at h
  | cons p l ih =>
    have hp := hl p (by simp)
    simp only [firstOf, List.findSome?_cons] at h ih ⊢
    cases hf : p.2 (x ++ r) with
    | some n =>
      simp only [hf, Option.map_some, Option.some.injEq, Prod.mk.injEq] at h
      obtain ⟨rfl, rfl⟩ := h
      simp [hp.keep hf hn]
    | none =>
      simp only [hf, Option.map_none] at h
      simp only [hp.eq_none_of_append hf, Option.map_none]
      exact ih (fun q hq => hl q (by simp [hq])) h

end FirstOf

/-- The classes of significant lexemes, without the names in backquotes. -/
def openClasses : List (Kind × (Text → Option Nat)) :=
  [(.float, floatLength?), (.integer, integerLength?), (.poundName, sigilNameLength? '#'),
    (.atName, sigilNameLength? '@'), (.identifier, fun t => (dollarLength? t).or (nameLength? t)),
    (.arrow, arrowLength?), (.symbol, charLength? isSymbolChar), (.operator, operatorLength?),
    (.dot, charLength? (· == '.')), (.backslash, charLength? (· == '\\'))]

theorem local_openClasses : ∀ p ∈ openClasses, Local Apart p.2 := by
  simp only [openClasses, List.mem_cons, List.not_mem_nil, or_false, forall_eq_or_imp, forall_eq]
  exact ⟨local_float, local_integer, local_sigilName _, local_sigilName _,
    .or local_dollar local_name, local_arrow, .char _, local_operator, .char _, .char _⟩

/-- White space and line ends, the characters that stand between lexemes. -/
def isGap (c : Char) : Bool := isSpaceChar c || c == '\n'

def lineComment : Text := ['/', '/']

def blockOpen : Text := ['/', '*']

theorem backquoted_of_ne {c : Char} (hc : c ≠ '`') (t : Text) : backquotedLength? (c :: t) = none := by
  simp only [backquotedLength?]
  split
  · simp_all
  · rfl

/-- What starts with neither white space nor a line comment nor a backquote is read by the open
classes. -/
theorem simpleLexeme_eq {c : Char} {t : Text} (hgap : isGap c = false) (hq : c ≠ '`')
    (hline : lineComment.isPrefixOf (c :: t) = false) :
    simpleLexeme? (c :: t) = firstOf openClasses (c :: t) := by
  simp only [isGap, Bool.or_eq_false_iff, beq_eq_false_iff_ne, ne_eq] at hgap
  have h1 : lineCommentLength? (c :: t) = none := by
    simp only [lineCommentLength?, show "//".toList = lineComment by decide, hline,
      Bool.false_eq_true, if_false]
  have h2 : newlineLength? (c :: t) = none := by
    simp only [newlineLength?]
    split
    · simp_all
    · simp_all [isSpaceChar]
    · rfl
  have h3 : nonemptyRun? isSpaceChar (c :: t) = none := by
    simp [nonemptyRun?, runLength_cons, hgap.1]
  have h4 : identifierLength? (c :: t) = (dollarLength? (c :: t)).or (nameLength? (c :: t)) := by
    simp [identifierLength?, backquoted_of_ne hq]
  simp only [simpleLexeme?, classes, firstOf, openClasses, List.findSome?_cons, h1, h2, h3, h4,
    Option.map_none]

/-- A significant lexeme of these classes starts neither with white space nor as a comment. -/
theorem simpleLexeme_significant {c : Char} {t : Text} {k : Kind} {n : Nat}
    (h : simpleLexeme? (c :: t) = some (k, n)) (hk : k.isTrivia = false) :
    isGap c = false ∧ lineComment.isPrefixOf (c :: t) = false := by
  simp only [simpleLexeme?, classes, List.findSome?_cons] at h
  have hline : lineCommentLength? (c :: t) = none := by
    cases hf : lineCommentLength? (c :: t) with
    | none => rfl
    | some m =>
      simp only [hf, Option.map_some, Option.some.injEq, Prod.mk.injEq] at h
      simp [← h.1, Kind.isTrivia] at hk
  have hnew : newlineLength? (c :: t) = none := by
    cases hf : newlineLength? (c :: t) with
    | none => rfl
    | some m =>
      simp only [hline, hf, Option.map_none, Option.map_some, Option.some.injEq,
        Prod.mk.injEq] at h
      simp [← h.1, Kind.isTrivia] at hk
  have hspace : nonemptyRun? isSpaceChar (c :: t) = none := by
    cases hf : nonemptyRun? isSpaceChar (c :: t) with
    | none => rfl
    | some m =>
      simp only [hline, hnew, hf, Option.map_none, Option.map_some, Option.some.injEq,
        Prod.mk.injEq] at h
      simp [← h.1, Kind.isTrivia] at hk
  constructor
  · simp only [isGap, Bool.or_eq_false_iff, beq_eq_false_iff_ne, ne_eq]
    constructor
    · by_contra hc
      simp only [Bool.not_eq_false] at hc
      simp only [nonemptyRun?, runLength_cons, hc, if_true, Nat.add_comm 1] at hspace
      cases hspace
    · rintro rfl
      simp [newlineLength?] at hnew
  · simp only [lineCommentLength?, show "//".toList = lineComment by decide] at hline
    by_contra hc
    rw [Bool.not_eq_false] at hc
    rw [if_pos hc] at hline
    cases hline

/-- Where a name in backquotes ends is told by its own characters. -/
theorem backquoted_append {x r : Text} {n : Nat} (h : backquotedLength? (x ++ r) = some n)
    (hn : n ≤ x.length) (r' : Text) :
    backquotedLength? (x ++ r') = some n ∧ 0 < n ∧ x[n - 1]? = some '`' := by
  cases x with
  | nil =>
    obtain rfl : n = 0 := by simpa using hn
    simp only [backquotedLength?] at h
    split at h
    · split at h <;> simp at h
    · simp at h
  | cons c x =>
    by_cases hc : c = '`'
    · subst hc
      simp only [List.cons_append, backquotedLength?] at h ⊢
      split at h
      · rename_i hhead
        simp only [Option.some.injEq] at h
        simp only [List.length_cons] at hn
        have hlt : runLength (fun c => c ≠ '`' && c ≠ '\n') (x ++ r) < x.length := by omega
        have hkeep := runLength_keep hlt.le
        have hkeep' := runLength_append_of_lt (hkeep ▸ hlt) r'
        rw [hkeep] at hhead h
        have hdrop : ∀ u, ((x ++ u).drop (runLength (fun c => c ≠ '`' && c ≠ '\n') x)).head? =
            x[runLength (fun c => c ≠ '`' && c ≠ '\n') x]? := fun u => by
          rw [List.head?_drop, List.getElem?_append_left (by omega)]
        rw [hdrop] at hhead
        rw [hkeep', hdrop, if_pos hhead]
        refine ⟨by rw [h], by omega, ?_⟩
        rw [← h, Nat.add_succ_sub_one, List.getElem?_cons_succ, hhead.2]
      · simp at h
    · simp [backquoted_of_ne hc] at h

/-- What starts with neither a word character nor a sigil nor an arrow is none of the classes before
the symbols. -/
theorem firstOf_openClasses_bare {c : Char} (hc : Text.isWord c = false)
    (hne : c ≠ '#' ∧ c ≠ '@' ∧ c ≠ '$' ∧ c ≠ '-') (t : Text) :
    firstOf openClasses (c :: t) = firstOf (openClasses.drop 6) (c :: t) := by
  obtain ⟨hpound, hat, hdollar, hminus⟩ := hne
  have hdecimal : Text.isDecimal c = false := by
    by_contra h
    rw [Bool.not_eq_false] at h
    simp [isWord_of_isDigitPart (c := c) (by simp [Text.isDigitPart, h])] at hc
  have h0 : c ≠ '0' := by
    rintro rfl
    cases hdecimal
  have hdigit : digitsLength? (c :: t) = none := by simp [digitsLength?, hdecimal]
  have hname : nameLength? (c :: t) = none := by simp [nameLength?, Text.isNameStart, hc]
  have hmarked : ∀ m p, markedLength? m p (c :: t) = none := fun m p => by
    simp [markedLength?_eq, h0]
  have harrow : arrowLength? (c :: t) = none := by simp [arrowLength?, Ne.symm hminus]
  have hdollar' : dollarLength? (c :: t) = none := by
    simp only [dollarLength?]
    split
    · simp_all
    · rfl
  have hfloat : floatLength? (c :: t) = none := by
    simp [floatLength?, hexFloatLength?, decimalFloatLength?, hmarked, hdigit]
  have hinteger : integerLength? (c :: t) = none := by simp [integerLength?, hmarked, hdigit]
  have hsigil : ∀ d, c ≠ d → sigilNameLength? d (c :: t) = none := fun d hd => by
    simp [sigilNameLength?, hd]
  simp only [firstOf, openClasses, List.drop_succ_cons, List.drop_zero, List.findSome?_cons, hfloat,
    hinteger, hsigil _ hpound, hsigil _ hat, hdollar', hname, harrow, Option.none_or, Option.map_none]

/-- What an end other than a point or a sigil starts: a symbol, or else an operator. -/
theorem firstOf_openClasses_end {c : Char} (hc : isEnd c = true)
    (hne : c ≠ '.' ∧ c ≠ '#' ∧ c ≠ '@' ∧ c ≠ '\\' ∧ c ≠ '$') (t : Text) :
    firstOf openClasses (c :: t) =
      if isSymbolChar c then some (.symbol, 1)
      else (nonemptyRun? isOperatorChar (c :: t)).map (.operator, ·) := by
  have hminus := ends_of (p := (· == '-')) (by simp; decide) c hc
  obtain ⟨hpoint, hpound, hat, hbackslash, hdollar⟩ := hne
  have hoperator : operatorLength? (c :: t) = nonemptyRun? isOperatorChar (c :: t) := by
    simp [operatorLength?, Ne.symm hpoint]
  rw [firstOf_openClasses_bare (ends_isWord c hc) ⟨hpound, hat, hdollar, by simpa using hminus⟩]
  simp only [firstOf, openClasses, List.drop_succ_cons, List.drop_zero, List.findSome?_cons,
    hoperator, charLength?]
  cases hs : isSymbolChar c with
  | true => simp
  | false => cases hr : nonemptyRun? isOperatorChar (c :: t) <;> simp [hpoint, hbackslash]

/-- A stop that is neither a symbol nor a sigil starts no lexeme of the open classes. -/
theorem firstOf_openClasses_stop {c : Char} (hs : isStop c = true) (hsymbol : isSymbolChar c = false)
    (hsigil : c ≠ '#' ∧ c ≠ '@' ∧ c ≠ '\\' ∧ c ≠ '$') (t : Text) :
    firstOf openClasses (c :: t) = none := by
  have hpoint : c ≠ '.' := by
    rintro rfl
    exact not_mark_of_isStop hs (by decide)
  simp [firstOf_openClasses_end (isEnd_of_isStop hs) ⟨hpoint, hsigil⟩, hsymbol, nonemptyRun?,
    runLength_cons, isOperatorChar_of_isStop hs]

/-- The only class that a backquote starts is that of names in backquotes. -/
theorem simpleLexeme_backquote {t : Text} {k : Kind} {n : Nat}
    (h : simpleLexeme? ('`' :: t) = some (k, n)) :
    k = .identifier ∧ backquotedLength? ('`' :: t) = some n := by
  have hnone := firstOf_openClasses_stop (c := '`') (by decide) (by decide) (by decide) t
  have h1 : lineCommentLength? ('`' :: t) = none := by simp [lineCommentLength?]
  have h2 : newlineLength? ('`' :: t) = none := rfl
  have h3 : nonemptyRun? isSpaceChar ('`' :: t) = none := rfl
  simp only [firstOf, openClasses, List.findSome?_eq_none_iff, List.forall_mem_cons,
    Option.map_eq_none_iff] at hnone
  obtain ⟨hfloat, hint, hpound, hat, hname, harrow, hsymbol, hoperator, hdot, hbackslash, -⟩ := hnone
  simp only [simpleLexeme?, classes, List.findSome?_cons, h1, h2, h3, hfloat, hint, hpound, hat,
    identifierLength?, hname, harrow, hsymbol, hoperator, hdot, hbackslash, Option.map_none,
    Option.or_none] at h
  cases hb : backquotedLength? ('`' :: t) with
  | none => simp [hb] at h
  | some m =>
    simp only [hb, Option.map_some, Option.some.injEq, Prod.mk.injEq] at h
    exact ⟨h.1.symm, by rw [h.2]⟩

theorem simpleLexeme_of_backquoted {t : Text} {n : Nat} (h : backquotedLength? ('`' :: t) = some n) :
    simpleLexeme? ('`' :: t) = some (.identifier, n) := by
  have hnone := firstOf_openClasses_stop (c := '`') (by decide) (by decide) (by decide) t
  have h1 : lineCommentLength? ('`' :: t) = none := by simp [lineCommentLength?]
  have h2 : newlineLength? ('`' :: t) = none := rfl
  have h3 : nonemptyRun? isSpaceChar ('`' :: t) = none := rfl
  simp only [firstOf, openClasses, List.findSome?_eq_none_iff, List.forall_mem_cons,
    Option.map_eq_none_iff] at hnone
  obtain ⟨hfloat, hint, hpound, hat, -⟩ := hnone
  simp only [simpleLexeme?, classes, List.findSome?_cons, h1, h2, h3, hfloat, hint, hpound, hat,
    identifierLength?, h, Option.some_or, Option.map_none, Option.map_some]

/-- What can stand in place of `r` behind `x`: a text that stands apart, or one that starts with the
same mark. -/
def Follows (x r r' : Text) : Prop :=
  Apart x r' ∨ ∃ c, isMarkChar c = true ∧ r.head? = some c ∧ r'.head? = some c

namespace Follows

variable {x y r r' : Text}

theorem free (h : Follows x r r') : Free r' := by
  rcases h with h | ⟨c, hc, -, hr'⟩
  · exact h.1
  · rintro d t rfl
    cases hr'
    exact .inr (.inl hc)

theorem of_suffix (h : Follows x r r') (hy : y <:+ x) : Follows y r r' :=
  h.imp (·.of_suffix hy) id

end Follows

/-- The class `f` fits no better at the front of `t'` than at the front of `t`, and takes there what
it takes at the front of `t` within the first `m` characters. -/
def Tells (f : Text → Option Nat) (m : Nat) (t t' : Text) : Prop :=
  (f t = none → f t' = none) ∧ ∀ n ≤ m, f t = some n → f t' = some n

theorem Tells.of_eq {f : Text → Option Nat} {t t' : Text} (h : f t = f t') (m : Nat) :
    Tells f m t t' := ⟨fun hf => h ▸ hf, fun _ _ hf => h ▸ hf⟩

theorem firstOf_tells {l : List (Kind × (Text → Option Nat))} {t t' : Text} {m : Nat}
    (hl : ∀ p ∈ l, Tells p.2 m t t') {k : Kind} {n : Nat} (h : firstOf l t = some (k, n))
    (hn : n ≤ m) : firstOf l t' = some (k, n) := by
  induction l with
  | nil => cases h
  | cons p l ih =>
    have hp := hl p (by simp)
    simp only [firstOf, List.findSome?_cons] at h ih ⊢
    cases hf : p.2 t with
    | some m' =>
      simp only [hf, Option.map_some, Option.some.injEq, Prod.mk.injEq] at h
      obtain ⟨rfl, rfl⟩ := h
      simp [hp.2 _ hn hf]
    | none =>
      simp only [hf, Option.map_none] at h
      simp only [hp.1 hf, Option.map_none]
      exact ih (fun q hq => hl q (by simp [hq])) h

section SameMark

variable {x : Text} (hx : x ≠ []) {c : Char} (hc : isMarkChar c = true) (m : Nat) (s s' : Text)
include hx hc

theorem tells_of_local {f : Text → Option Nat} (hf : Local (fun _ r => Free r) f) :
    Tells f m (x ++ c :: s) (x ++ c :: s') := by
  have hfree : ∀ s, Free (c :: s) := fun s d t ht => by
    cases ht
    exact .inr (.inl hc)
  exact .of_eq ((hf.stop hx (hfree s)).trans (hf.stop hx (hfree s')).symm) m

omit hc in
theorem arrow_tells : Tells arrowLength? m (x ++ c :: s) (x ++ c :: s') := by
  apply Tells.of_eq
  match x, hx with
  | [a], _ => simp [arrowLength?]
  | a :: b :: x, _ => simp [arrowLength?]

theorem operator_tells : Tells operatorLength? x.length (x ++ c :: s) (x ++ c :: s') := by
  have hop : isOperatorChar c = true := by
    simp only [isMarkChar, Bool.or_eq_true, beq_iff_eq] at hc
    rcases hc with ((rfl | rfl) | rfl) | rfl <;> decide
  have hpoint : ('.' == c) = false := by
    rw [beq_eq_false_iff_ne]
    rintro rfl
    cases hc
  have hrange : ∀ d, ['.', '.', d].isPrefixOf (x ++ c :: s) = ['.', '.', d].isPrefixOf (x ++ c :: s') := by
    intro d
    rcases x with _ | ⟨a, _ | ⟨b, _ | ⟨e, x⟩⟩⟩
    · simp at hx
    · simp [List.isPrefixOf, hpoint]
    · simp [List.isPrefixOf]
    · simp [List.isPrefixOf]
  have hrun : Tells (nonemptyRun? isOperatorChar) x.length (x ++ c :: s) (x ++ c :: s') := by
    by_cases hall : runLength isOperatorChar (x ++ c :: s) < x.length
    · have hkeep := runLength_keep hall.le
      rw [hkeep] at hall
      refine .of_eq ?_ _
      rw [nonemptyRun?, nonemptyRun?, hkeep, runLength_append_of_lt hall]
    · -- the run goes on with the mark, so it is longer than `x`
      have hlong : x.length < runLength isOperatorChar (x ++ c :: s) := by
        have hrun := (of_runLength_eq (p := isOperatorChar) (Nat.le_of_not_lt hall)).1
        rw [runLength, List.takeWhile_append_of_pos hrun, List.takeWhile_cons_of_pos hop]
        simp
      constructor
      · intro h
        simp only [nonemptyRun?] at h
        split at h
        · omega
        · cases h
      · intro n hn h
        have := (nonemptyRun_eq_some h).1
        omega
  simp only [Tells, operatorLength?, show "...".toList = ['.', '.', '.'] by decide,
    show "..<".toList = ['.', '.', '<'] by decide, hrange]
  split
  · exact ⟨id, fun _ _ => id⟩
  · exact hrun

end SameMark

/-- The open classes take the same from the front of a text if what stands behind is replaced. -/
theorem firstOf_append {x r r' : Text} {k : Kind} {n : Nat} (hx : x ≠ []) (hr : Follows x r r')
    (h : firstOf openClasses (x ++ r) = some (k, n)) (hn : n ≤ x.length) :
    firstOf openClasses (x ++ r') = some (k, n) := by
  rcases hr with hr | ⟨c, hc, hs, hs'⟩
  · rw [firstOf_stop local_openClasses hx hr, firstOf_keep local_openClasses h hn]
  · obtain ⟨s, rfl⟩ := List.head?_eq_some_iff.mp hs
    obtain ⟨s', rfl⟩ := List.head?_eq_some_iff.mp hs'
    refine firstOf_tells (m := x.length) ?_ h hn
    have hlocal := fun f => tells_of_local (f := f) hx hc x.length s s'
    simp only [openClasses, List.mem_cons, List.not_mem_nil, or_false, forall_eq_or_imp, forall_eq]
    exact ⟨hlocal _ local_float, hlocal _ local_integer, hlocal _ (local_sigilName _),
      hlocal _ (local_sigilName _), hlocal _ (.or local_dollar local_name),
      arrow_tells hx x.length s s', hlocal _ (.char _), operator_tells hx hc s s',
      hlocal _ (.char _), hlocal _ (.char _)⟩

/-- Two characters of which the second is no end do not come about by what follows. -/
theorem pair_isPrefixOf_stop {a b : Char} (hb : isEnd b = false) {x r r' : Text} (hx : x ≠ [])
    (h : [a, b].isPrefixOf (x ++ r) = false) (hr : Free r') :
    [a, b].isPrefixOf (x ++ r') = false := by
  have hlocal := Local.pair (A := fun _ r => Free r) a b hb
  have h1 := hlocal.eq_none_of_append (x := x) (r := r) (by simp only [h]; rfl)
  have h2 := hlocal.stop hx hr
  rw [h1] at h2
  cases hp : [a, b].isPrefixOf (x ++ r') with
  | false => rfl
  | true => simp only [hp, if_true] at h2; cases h2

theorem simpleLexeme_append {x r : Text} {k : Kind} {n : Nat}
    (h : simpleLexeme? (x ++ r) = some (k, n)) (hn : n ≤ x.length) (hk : k.isTrivia = false)
    (hx : x ≠ []) {r' : Text} (hr : Follows x r r') : simpleLexeme? (x ++ r') = some (k, n) := by
  obtain ⟨c, x, rfl⟩ := List.exists_cons_of_ne_nil hx
  obtain ⟨hgap, hline⟩ := simpleLexeme_significant (t := x ++ r) h hk
  by_cases hc : c = '`'
  · subst hc
    obtain ⟨rfl, hb⟩ := simpleLexeme_backquote h
    exact simpleLexeme_of_backquoted (backquoted_append (x := '`' :: x) hb hn r').1
  · have hline' : lineComment.isPrefixOf (c :: x ++ r') = false :=
      pair_isPrefixOf_stop (by decide) hx hline hr.free
    rw [List.cons_append, simpleLexeme_eq hgap hc hline] at h
    rw [List.cons_append, simpleLexeme_eq (t := x ++ r') hgap hc hline']
    exact firstOf_append (x := c :: x) hx hr h hn

theorem simpleLexeme_ne_string {t : Text} {k : Kind} {n : Nat}
    (h : simpleLexeme? t = some (k, n)) : k ≠ .string := by
  obtain ⟨⟨k', f⟩, hm, hf⟩ := List.exists_of_findSome?_eq_some h
  have hkinds : ∀ p ∈ classes.map Prod.fst, p ≠ Kind.string := by decide
  have := hkinds k' (List.mem_map_of_mem hm)
  simp only [Option.map_eq_some_iff, Prod.mk.injEq] at hf
  obtain ⟨m, -, rfl, -⟩ := hf
  exact this

theorem simpleLexeme_pos {t : Text} {k : Kind} {n : Nat} (h : simpleLexeme? t = some (k, n))
    (hk : k.isTrivia = false) : 0 < n ∧ n ≤ t.length := by
  cases t with
  | nil => cases h
  | cons c t =>
    obtain ⟨hgap, hline⟩ := simpleLexeme_significant h hk
    by_cases hc : c = '`'
    · subst hc
      obtain ⟨-, hb⟩ := simpleLexeme_backquote h
      simp only [backquotedLength?] at hb
      split at hb
      · rename_i hn
        cases hb
        have := runLength_le (p := fun c => c ≠ '`' && c ≠ '\n') t
        have hlt : runLength (fun c => c ≠ '`' && c ≠ '\n') t < t.length := by
          by_contra hge
          rw [List.drop_eq_nil_of_le (by omega)] at hn
          simp at hn
        simp only [List.length_cons]
        omega
      · cases hb
    · rw [simpleLexeme_eq hgap hc hline] at h
      exact firstOf_le local_openClasses h

section Lexeme

theorem opening_length_pos (q : Quoting) : 0 < q.opening.length := by
  rw [← q.closing_length, q.closing_length_eq]
  split <;> omega

/-- A literal holds at least its two delimiters. -/
theorem literalLength_bounds {q : Quoting} {t : Text} {n : Nat} (h : literalLength q t = .ok n) :
    2 * q.opening.length ≤ n ∧ n ≤ t.length := by
  have h1 := scanLiteral_needs h
  have h2 := scanLiteral_le h (by simp)
  simp only [needs, Frame.need, List.map_cons, List.map_nil, List.sum_cons, List.sum_nil,
    q.closing_length] at h1
  omega

/-- The three ways in which a lexeme is read: as a literal, as a block comment, or by the classes. -/
theorem lexeme_cases {t : Text} {k : Kind} {n : Nat} (h : lexeme t = .ok (k, n)) :
    (∃ q, Quoting.opens? t = some q ∧ k = .string ∧ literalLength q t = .ok n) ∨
    (Quoting.opens? t = none ∧ blockOpen.isPrefixOf t = true ∧ k = .comment ∧
      commentLength? t = some n) ∨
    (Quoting.opens? t = none ∧ blockOpen.isPrefixOf t = false ∧ simpleLexeme? t = some (k, n)) := by
  simp only [lexeme, show "/*".toList = blockOpen by decide] at h
  cases hq : Quoting.opens? t with
  | some q =>
    cases hl : literalLength q t with
    | error e =>
      simp only [hq, hl, Except.map] at h
      cases h
    | ok m =>
      simp only [hq, hl, Except.map] at h
      cases h
      exact .inl ⟨q, rfl, rfl, hl⟩
  | none =>
    simp only [hq] at h
    refine .inr ?_
    cases hp : blockOpen.isPrefixOf t with
    | true =>
      rw [hp, if_pos rfl] at h
      cases hc : commentLength? t with
      | none => simp [hc] at h
      | some m =>
        rw [hc] at h
        cases h
        exact .inl ⟨rfl, rfl, rfl, rfl⟩
    | false =>
      rw [hp] at h
      cases hs : simpleLexeme? t with
      | none => simp [hs] at h
      | some l =>
        rw [hs] at h
        cases h
        exact .inr ⟨rfl, rfl, rfl⟩

theorem lexeme_of_literal {t : Text} {q : Quoting} {n : Nat} (hq : Quoting.opens? t = some q)
    (hl : literalLength q t = .ok n) : lexeme t = .ok (.string, n) := by
  simp only [lexeme, hq, hl, Except.map]

theorem lexeme_of_simple {t : Text} {k : Kind} {n : Nat} (hq : Quoting.opens? t = none)
    (hp : blockOpen.isPrefixOf t = false) (hs : simpleLexeme? t = some (k, n)) :
    lexeme t = .ok (k, n) := by
  simp only [lexeme, hq, show "/*".toList = blockOpen by decide, hp, hs, Bool.false_eq_true,
    if_false]

theorem not_comment_of_significant {k : Kind} (hk : k.isTrivia = false) : k ≠ .comment := by
  rintro rfl
  cases hk

/-- The lexeme is not empty and lies within the text. -/
theorem lexeme_bounds {t : Text} {k : Kind} {n : Nat} (h : lexeme t = .ok (k, n))
    (hk : k.isTrivia = false) : 0 < n ∧ n ≤ t.length := by
  rcases lexeme_cases h with ⟨q, hq, rfl, hl⟩ | ⟨-, -, hc, -⟩ | ⟨-, -, hs⟩
  · have := literalLength_bounds hl
    have := opening_length_pos q
    omega
  · exact absurd hc (not_comment_of_significant hk)
  · exact simpleLexeme_pos hs hk

/-- A literal is opened in the same way before any text that adds no quote to it. -/
theorem opens?_of_literal {q : Quoting} {x r : Text} (hopen : Quoting.opens? (x ++ r) = some q)
    (hl : literalLength q (x ++ r) = .ok x.length) {r' : Text}
    (hq : r'.head? = some '"' → r.head? = some '"') : Quoting.opens? (x ++ r') = some q := by
  have hbounds := (literalLength_bounds hl).1
  have hlength := q.closing_length_eq
  rw [q.closing_length] at hlength
  have hpounds : poundCount x ≤ q.pounds := by
    rw [Quoting.pounds_of_opens? hopen]
    exact runLength_mono x r
  by_cases hlong : poundCount x + 3 ≤ x.length
  · rw [Quoting.opens?_append r hlong] at hopen
    rw [Quoting.opens?_append r' hlong, hopen]
  · -- only the empty literal of one quote is shorter
    have hsuffix := scanLiteral_suffix rfl
      (show scanLiteral [.literal 0 q] q.opening.length 0 (x ++ r) = .ok (0 + x.length) by
        simpa [literalLength] using hl)
    have hprefix := List.prefix_of_prefix_length_le (Quoting.opens?_prefix hopen)
      (List.prefix_append x r) (by omega)
    obtain ⟨pounds, multiline⟩ := q
    cases multiline with
    | true => simp only [if_true] at hlength hpounds; omega
    | false =>
      simp only [Bool.false_eq_true, if_false] at hlength hpounds
      obtain rfl : pounds = 0 := by omega
      obtain ⟨s, rfl⟩ := hprefix
      obtain ⟨b, rfl⟩ : ∃ b, s = [b] := by
        apply List.length_eq_one_iff.mp
        simp only [List.length_append] at hbounds hlong
        omega
      obtain ⟨u, hu⟩ := hsuffix
      obtain rfl : b = '"' := by
        have := congrArg List.getLast? hu
        simpa [Quoting.closing, Quoting.poundText, Quoting.quotes] using this.symm
      have hempty : ∀ u : Text, Quoting.opens? ('"' :: '"' :: u) = some ⟨0, u.head? = some '"'⟩ := by
        intro u
        cases u with
        | nil => rfl
        | cons c u =>
          by_cases hc : c = '"'
          · subst hc; rfl
          · simp [Quoting.opens?, hc]
      have hopen' := (hempty r).symm.trans hopen
      simp only [Option.some.injEq, Quoting.mk.injEq, decide_eq_false_iff_not, true_and] at hopen'
      have hq' : ¬ r'.head? = some '"' := fun h => hopen' (hq h)
      refine (hempty r').trans ?_
      simp [hq']

/-- Pounds alone are no lexeme. -/
theorem simpleLexeme_pounds {x r : Text} {k : Kind} {n : Nat} (hx : x ≠ [])
    (hall : ∀ c ∈ x, c = '#') (hk : k.isTrivia = false) (hn : n ≤ x.length) :
    simpleLexeme? (x ++ r) ≠ some (k, n) := by
  intro h
  obtain ⟨c, y, rfl⟩ := List.exists_cons_of_ne_nil hx
  obtain rfl : c = '#' := hall c (by simp)
  have happ := simpleLexeme_append h hn hk hx (.inl (stops_nil.apart _))
  rw [List.append_nil] at happ
  obtain ⟨hgap, hline⟩ := simpleLexeme_significant happ hk
  rw [simpleLexeme_eq hgap (by decide) hline] at happ
  have hstop : Stops y := by
    intro c hc
    rw [hall c (by simp [List.mem_of_mem_head? hc])]
    decide
  rw [show '#' :: y = ['#'] ++ y from rfl,
    firstOf_stop local_openClasses (by simp) (hstop.apart _)] at happ
  have hnone : firstOf openClasses ['#'] = none := by decide
  simp [hnone] at happ

/-- A literal stands before any text that adds no quote to it. -/
theorem lexeme_append_literal {x r : Text} (h : lexeme (x ++ r) = .ok (.string, x.length))
    {r' : Text} (hq : r'.head? = some '"' → r.head? = some '"') :
    lexeme (x ++ r') = .ok (.string, x.length) := by
  rcases lexeme_cases h with ⟨q, hopen, -, hl⟩ | ⟨-, -, hc, -⟩ | ⟨-, -, hs⟩
  · have happ := scanLiteral_append
      (show scanLiteral [.literal 0 q] q.opening.length 0 (x ++ r) = .ok (0 + x.length) by
        simpa [literalLength] using hl) r'
    exact lexeme_of_literal (opens?_of_literal hopen hl hq) (by simpa [literalLength] using happ)
  · cases hc
  · exact absurd rfl (simpleLexeme_ne_string hs)

/-- A lexeme within `x` stands if the text behind `x` is replaced by one that can follow. -/
theorem lexeme_append {x r : Text} {k : Kind} {n : Nat} (h : lexeme (x ++ r) = .ok (k, n))
    (hn : n ≤ x.length) (hk : k.isTrivia = false) {r' : Text} (hr : Follows x r r')
    (hq : r'.head? = some '"' → r.head? = some '"') : lexeme (x ++ r') = .ok (k, n) := by
  have hpos := (lexeme_bounds h hk).1
  have hx : x ≠ [] := List.ne_nil_of_length_pos (by omega)
  rcases lexeme_cases h with ⟨q, hopen, rfl, hl⟩ | ⟨-, -, hc, -⟩ | ⟨hopen, hblock, hs⟩
  · obtain ⟨y, u, rfl, rfl⟩ : ∃ y u, x = y ++ u ∧ y.length = n :=
      ⟨x.take n, x.drop n, (List.take_append_drop n x).symm, by simp [hn]⟩
    rw [List.append_assoc] at h ⊢
    refine lexeme_append_literal h fun hhead => ?_
    cases u with
    | nil => exact hq hhead
    | cons c u => exact hhead
  · exact absurd hc (not_comment_of_significant hk)
  · refine lexeme_of_simple ?_ ?_ (simpleLexeme_append hs hn hk hx hr)
    · exact Quoting.opens?_none_append (fun hall => simpleLexeme_pounds hx hall hk hn hs) hopen r'
    · exact pair_isPrefixOf_stop (by decide) hx hblock hr.free

theorem delimiter_not_blank {q : Quoting} {c : Char} (h : c ∈ q.opening ∨ c ∈ q.closing) :
    Text.isBlank c = false := by
  have hc : c = '"' ∨ c = '#' := by
    simp only [Quoting.opening, Quoting.closing, Quoting.quotes, Quoting.poundText,
      List.mem_append, List.mem_replicate] at h
    split at h <;> simp at h <;> tauto
  rcases hc with rfl | rfl <;> decide

theorem lexeme_first {c : Char} {t : Text} {k : Kind} {n : Nat}
    (h : lexeme (c :: t) = .ok (k, n)) (hk : k.isTrivia = false) : Text.isBlank c = false := by
  rcases lexeme_cases h with ⟨q, hq, -, -⟩ | ⟨-, -, hc, -⟩ | ⟨-, -, hs⟩
  · obtain ⟨s, hs⟩ := Quoting.opens?_prefix hq
    refine delimiter_not_blank (q := q) (.inl ?_)
    obtain ⟨d, y, hy⟩ := List.exists_cons_of_length_pos (opening_length_pos q)
    rw [hy, List.cons_append, List.cons.injEq] at hs
    simp [hy, hs.1]
  · exact absurd hc (not_comment_of_significant hk)
  · by_contra hb
    rw [Bool.not_eq_false] at hb
    obtain ⟨hgap, hline⟩ := simpleLexeme_significant hs hk
    have hne : ∀ d, Text.isBlank d = false → c ≠ d := by
      rintro d hd rfl
      simp [hd] at hb
    have hsymbol : isSymbolChar c = false := by
      simpa using of_isBlank (p := fun c => !isSymbolChar c) (by decide) hb
    rw [simpleLexeme_eq hgap (hne _ (by decide)) hline, firstOf_openClasses_stop
      (isStop_of_isBlank hb) hsymbol ⟨hne _ (by decide), hne _ (by decide), hne _ (by decide),
        hne _ (by decide)⟩] at hs
    cases hs

theorem lexeme_last {x r : Text} {k : Kind} (h : lexeme (x ++ r) = .ok (k, x.length))
    (hk : k.isTrivia = false) {c : Char} (hc : x.getLast? = some c) : Text.isBlank c = false := by
  rcases lexeme_cases h with ⟨q, hopen, -, hl⟩ | ⟨-, -, hc, -⟩ | ⟨-, -, hs⟩
  · obtain ⟨s, rfl⟩ := scanLiteral_suffix rfl
      (show scanLiteral [.literal 0 q] q.opening.length 0 (x ++ r) = .ok (0 + x.length) by
        simpa [literalLength] using hl)
    have hne : q.closing ≠ [] := by
      apply List.ne_nil_of_length_pos
      rw [q.closing_length]
      exact opening_length_pos q
    rw [List.getLast?_append_of_ne_nil s hne] at hc
    exact delimiter_not_blank (q := q) (.inr (List.mem_of_getLast? hc))
  · exact absurd hc (not_comment_of_significant hk)
  · by_contra hb
    rw [Bool.not_eq_false] at hb
    obtain ⟨y, rfl⟩ := List.getLast?_eq_some_iff.mp hc
    cases y with
    | nil =>
      have := lexeme_first (t := r) h hk
      simp [hb] at this
    | cons d y =>
      obtain ⟨hgap, hline⟩ := simpleLexeme_significant (t := y ++ [c] ++ r) hs hk
      by_cases hd : d = '`'
      · subst hd
        have := (backquoted_append (x := '`' :: y ++ [c]) (simpleLexeme_backquote hs).2 le_rfl []).2.2
        rw [← List.getLast?_eq_getElem?, List.getLast?_concat] at this
        cases this
        revert hb
        decide
      · -- a blank behind `d :: y` would not have been taken
        rw [List.cons_append, List.cons_append, simpleLexeme_eq hgap hd hline] at hs
        have hkeep := firstOf_keep local_openClasses (x := d :: y ++ [c]) hs le_rfl
        rw [firstOf_stop local_openClasses (by simp)
          ((stops_cons (isStop_of_isBlank hb)).apart _)] at hkeep
        have := (firstOf_le local_openClasses hkeep).2
        simp only [List.length_append, List.length_cons, List.length_nil] at this
        omega

end Lexeme

section Ending

theorem simpleLexeme_class {t : Text} {k : Kind} {n : Nat} (h : simpleLexeme? t = some (k, n)) :
    ∃ f, (k, f) ∈ classes ∧ f t = some n := by
  obtain ⟨⟨k', f⟩, hm, hf⟩ := List.exists_of_findSome?_eq_some h
  simp only [Option.map_eq_some_iff, Prod.mk.injEq] at hf
  obtain ⟨m, hf, rfl, rfl⟩ := hf
  exact ⟨f, hm, hf⟩

/-- The class of a lexeme that is neither a literal nor a comment. -/
theorem lexeme_class {t : Text} {k : Kind} {n : Nat} (h : lexeme t = .ok (k, n))
    (hk : k.isTrivia = false) (hs : k ≠ .string) : ∃ f, (k, f) ∈ classes ∧ f t = some n := by
  rcases lexeme_cases h with ⟨q, -, hq, -⟩ | ⟨-, -, hc, -⟩ | ⟨-, -, hl⟩
  · exact absurd hq hs
  · exact absurd hc (not_comment_of_significant hk)
  · exact simpleLexeme_class hl

theorem lexeme_symbol {t : Text} {n : Nat} (h : lexeme t = .ok (.symbol, n)) :
    ∃ c u, t = c :: u ∧ isSymbolChar c = true ∧ n = 1 := by
  obtain ⟨f, hm, hf⟩ := lexeme_class h rfl (by decide)
  obtain rfl : f = charLength? isSymbolChar := by simpa [classes] using hm
  cases t with
  | nil => cases hf
  | cons c u =>
    simp only [charLength?, Option.ite_none_right_eq_some, Option.some.injEq] at hf
    exact ⟨c, u, rfl, hf.1, hf.2.symm⟩

/-- The name of a macro is a sigil, told by its kind, and a name. -/
theorem lexeme_sigilName {x r : Text} {k : Kind} {sigil : Char}
    (hk : (k, sigil) ∈ [(Kind.atName, '@'), (.poundName, '#')])
    (h : lexeme (x ++ r) = .ok (k, x.length)) :
    ∃ c y, x = sigil :: c :: y ∧ Text.isNameStart c = true ∧ ∀ d ∈ y, Text.isWord d = true := by
  have hf : sigilNameLength? sigil (x ++ r) = some x.length := by
    simp only [List.mem_cons, Prod.mk.injEq, List.not_mem_nil, or_false] at hk
    rcases hk with ⟨rfl, rfl⟩ | ⟨rfl, rfl⟩
    · obtain ⟨f, hm, hf⟩ := lexeme_class h rfl (by decide)
      obtain rfl : f = sigilNameLength? '@' := by simpa [classes] using hm
      exact hf
    · obtain ⟨f, hm, hf⟩ := lexeme_class h rfl (by decide)
      obtain rfl : f = sigilNameLength? '#' := by simpa [classes] using hm
      exact hf
  cases x with
  | nil =>
    cases r with
    | nil => cases hf
    | cons c r =>
      simp only [List.nil_append, sigilNameLength?, Option.ite_none_right_eq_some,
        Option.map_eq_some_iff] at hf
      obtain ⟨-, n, -, hn⟩ := hf
      simp at hn
  | cons c x =>
    simp only [List.cons_append, sigilNameLength?, Option.ite_none_right_eq_some,
      Option.map_eq_some_iff, List.length_cons] at hf
    obtain ⟨rfl, n, hn, hlength⟩ := hf
    obtain rfl : n = x.length := by omega
    cases x with
    | nil =>
      cases r with
      | nil => cases hn
      | cons d r =>
        simp only [List.nil_append, nameLength?, Option.ite_none_right_eq_some, Option.some.injEq,
          List.length_nil] at hn
        omega
    | cons d y =>
      simp only [List.cons_append, nameLength?, Option.ite_none_right_eq_some, Option.some.injEq,
        List.length_cons] at hn
      have hrun : y.length ≤ runLength Text.isWord (y ++ r) := by omega
      exact ⟨d, y, rfl, hn.1, (of_runLength_eq hrun).1⟩

/-- The name of a macro starts with the sigil of its kind. -/
theorem lexeme_sigil {x r : Text} {k : Kind} {sigil : Char}
    (hk : (k, sigil) ∈ [(Kind.atName, '@'), (.poundName, '#')])
    (h : lexeme (x ++ r) = .ok (k, x.length)) : x.head? = some sigil := by
  obtain ⟨c, y, rfl, -⟩ := lexeme_sigilName hk h
  rfl

/-- An operator is made of operator characters and points. -/
theorem lexeme_operator {x r : Text} (h : lexeme (x ++ r) = .ok (.operator, x.length)) :
    ∀ c ∈ x, isOperatorChar c = true ∨ c = '.' := by
  obtain ⟨f, hm, hf⟩ := lexeme_class h rfl (by decide)
  obtain rfl : f = operatorLength? := by simpa [classes] using hm
  simp only [operatorLength?, show "...".toList = ['.', '.', '.'] by decide,
    show "..<".toList = ['.', '.', '<'] by decide] at hf
  split at hf
  · rename_i hp
    rw [Option.some.injEq] at hf
    have hrange : x = ['.', '.', '.'] ∨ x = ['.', '.', '<'] := by
      simp only [List.isPrefixOf_iff_prefix, List.prefix_iff_eq_take] at hp
      simpa [List.take_left' hf.symm, eq_comm] using hp
    rcases hrange with rfl | rfl <;> simp [isOperatorChar]
  · have hrun := (nonemptyRun_eq_some hf).1
    exact fun c hc => .inl ((of_runLength_eq hrun.le).1 c hc)

theorem isWord_not_operator {c : Char} (h : Text.isWord c = true) :
    isOperatorChar c = false ∧ c ≠ '.' := by
  have hall : ("/=-+!*%<>&|^~?".toList ++ ['.']).all (fun d => !Text.isWord d) = true := by
    decide
  rw [List.all_eq_true] at hall
  constructor
  · by_contra hop
    rw [Bool.not_eq_false, isOperatorChar, List.contains_iff_mem] at hop
    have := hall c (List.mem_append_left _ hop)
    simp [h] at this
  · rintro rfl
    have := hall '.' (List.mem_append_right _ (by simp))
    simp [h] at this

/-- A name ends with a word character or a backquote. -/
theorem lexeme_identifier {x r : Text} (h : lexeme (x ++ r) = .ok (.identifier, x.length)) :
    ∀ d ∈ x.getLast?, isOperatorChar d = false ∧ d ≠ '.' := by
  intro d hd
  obtain ⟨f, hm, hf⟩ := lexeme_class h rfl (by decide)
  obtain rfl : f = identifierLength? := by simpa [classes] using hm
  simp only [identifierLength?, Option.or_eq_some_iff] at hf
  rcases hf with hf | ⟨-, hf | ⟨-, hf⟩⟩
  · have := (backquoted_append hf le_rfl []).2.2
    rw [← List.getLast?_eq_getElem?, Option.mem_def.mp hd, Option.some.injEq] at this
    subst this
    decide
  · -- the characters behind the dollar sign
    apply isWord_not_operator
    cases x with
    | nil => cases hd
    | cons c x =>
      simp only [List.cons_append, dollarLength?] at hf
      split at hf
      · rename_i t ht
        obtain ⟨n, hn, hlen⟩ := Option.map_eq_some_iff.mp hf
        cases ht
        have hrun := nonemptyRun_eq_some hn
        rw [List.length_cons] at hlen
        have hall := (of_runLength_eq (p := Text.isWord) (x := x) (u := r) (by omega)).1
        have hx : x ≠ [] := by
          rintro rfl
          rw [List.length_nil] at hlen
          omega
        rw [List.getLast?_cons_of_ne_nil hx] at hd
        exact hall d (List.mem_of_mem_getLast? hd)
      · cases hf
  · apply isWord_not_operator
    cases x with
    | nil => cases hd
    | cons c x =>
      simp only [List.cons_append, nameLength?_eq, Option.ite_none_right_eq_some,
        Option.some.injEq, List.length_cons] at hf
      obtain ⟨hc, hlen⟩ := hf
      have hall := (of_runLength_eq (p := Text.isWord) (x := x) (u := r) (by omega)).1
      rcases List.mem_cons.mp (List.mem_of_mem_getLast? hd) with rfl | hmem
      · rw [Text.isNameStart, Bool.and_eq_true] at hc
        exact hc.1
      · exact hall d hmem

end Ending

section Trivia

/-- The trivia among the classes: a line comment, or white space and line ends. -/
theorem simpleLexeme_trivia {t : Text} {k : Kind} {n : Nat} (h : simpleLexeme? t = some (k, n))
    (hk : k.isTrivia = true) :
    (lineComment <+: t ∧ n = runLength (· ≠ '\n') t) ∨ (0 < n ∧ n ≤ runLength isGap t) := by
  rw [simpleLexeme?, show classes = (.comment, lineCommentLength?) :: (.newline, newlineLength?) ::
    (.whitespace, nonemptyRun? isSpaceChar) :: classes.drop 3 from rfl] at h
  simp only [List.findSome?_cons] at h
  cases h1 : lineCommentLength? t with
  | some m =>
    simp only [h1, Option.map_some, Option.some.injEq, Prod.mk.injEq] at h
    obtain ⟨-, rfl⟩ := h
    simp only [lineCommentLength?, List.isPrefixOf_iff_prefix, Option.ite_none_right_eq_some,
      Option.some.injEq] at h1
    exact .inl ⟨h1.1, h1.2.symm⟩
  | none =>
    refine .inr ?_
    cases h2 : newlineLength? t with
    | some m =>
      simp only [h1, h2, Option.map_none, Option.map_some, Option.some.injEq, Prod.mk.injEq] at h
      obtain ⟨-, rfl⟩ := h
      simp only [newlineLength?] at h2
      split at h2 <;> cases h2 <;> simp [runLength_cons, isGap, isSpaceChar]
      omega
    | none =>
      cases h3 : nonemptyRun? isSpaceChar t with
      | some m =>
        simp only [h1, h2, h3, Option.map_none, Option.map_some, Option.some.injEq,
          Prod.mk.injEq] at h
        obtain ⟨-, rfl⟩ := h
        have hle : runLength isSpaceChar t ≤ runLength isGap t := by
          clear h1 h2 h3
          induction t with
          | nil => simp
          | cons c t ih =>
            simp only [runLength_cons, isGap, Bool.or_eq_true] at ih ⊢
            by_cases hc : isSpaceChar c = true
            · simp only [hc, if_true, true_or]
              omega
            · simp [hc]
        have := nonemptyRun_eq_some h3
        omega
      | none =>
        simp only [h1, h2, h3, Option.map_none] at h
        obtain ⟨⟨k', f⟩, hm, hf⟩ := List.exists_of_findSome?_eq_some h
        have hkinds : ∀ p ∈ (classes.drop 3).map Prod.fst, p.isTrivia = false := by decide
        have hk' := hkinds k' (List.mem_map_of_mem hm)
        simp only [Option.map_eq_some_iff, Prod.mk.injEq] at hf
        obtain ⟨m, -, rfl, -⟩ := hf
        simp [hk] at hk'

/-- What is passed over between lexemes: white space, line ends and comments. -/
theorem lexeme_trivia {t : Text} {k : Kind} {n : Nat} (h : lexeme t = .ok (k, n))
    (hk : k.isTrivia = true) :
    (0 < n ∧ n ≤ runLength isGap t) ∨ (lineComment <+: t ∧ n = runLength (· ≠ '\n') t) ∨
      (blockOpen <+: t ∧ commentLength? t = some n) := by
  rcases lexeme_cases h with ⟨q, -, rfl, -⟩ | ⟨-, hp, -, hc⟩ | ⟨-, -, hs⟩
  · cases hk
  · exact .inr (.inr ⟨List.isPrefixOf_iff_prefix.mp hp, hc⟩)
  · rcases simpleLexeme_trivia hs hk with h | h
    · exact .inr (.inl h)
    · exact .inl h

theorem lexeme_blockComment {x u : Text} (hx : blockOpen <+: x)
    (h : commentLength? (x ++ u) = some x.length) (u' : Text) :
    lexeme (x ++ u') = .ok (.comment, x.length) ∧ commentLength? (x ++ u') = some x.length := by
  have hc : commentLength? (x ++ u') = some x.length := by
    simpa [commentLength?] using scanComment_append
      (show scanComment 1 2 0 (x ++ u) = some (0 + x.length) by simpa [commentLength?] using h) u'
  obtain ⟨y, rfl⟩ := hx
  have hopen : Quoting.opens? (blockOpen ++ y ++ u') = none :=
    Quoting.opens?_eq_none (by decide) (by decide) _
  have hblock : blockOpen.isPrefixOf (blockOpen ++ y ++ u') = true := by
    simp [List.append_assoc]
  refine ⟨?_, hc⟩
  simp only [lexeme, hopen, show "/*".toList = blockOpen by decide, hblock, if_true, hc]

end Trivia

end SwiftMacros.Token
