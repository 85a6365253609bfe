import Mathlib
import SwiftMacros.Proofs.Token.Reads

/-! Lexemes that end between characters of different kinds. Behind a word no lexeme goes on with a
character that belongs to no number, and behind an operator character none goes on with a letter. So
what is read in front of such a place does not depend on what stands behind it. -/

namespace SwiftMacros.Token

/-- A text that no number or name goes on with: it starts with neither a word character nor one that
stands in a number. -/
def Foreign (r : Text) : Prop :=
  ∀ c ∈ r.head?, Text.isWord c = false ∧ c ≠ '.' ∧ c ≠ '+' ∧ c ≠ '-'

/-- A text that neither an operator nor a signed exponent goes on with. -/
def Inert (r : Text) : Prop :=
  ∀ c ∈ r.head?, Text.isDecimal c = false ∧ c ≠ '_' ∧ isOperatorChar c = false ∧ c ≠ '.'

/-- The end of `x` and the start of `r` belong to different lexemes. -/
def Severed (x r : Text) : Prop :=
  ∃ d ∈ x.getLast?, (Text.isWord d = true ∧ Foreign r) ∨ (isOperatorChar d = true ∧ Inert r)

section Severed

variable {x r : Text} {c : Char}

theorem Severed.ne_nil (h : Severed x r) : x ≠ [] := by
  rintro rfl
  obtain ⟨d, hd, -⟩ := h
  cases hd

theorem Severed.of_append {y : Text} (h : Severed (y ++ x) r) (hx : x ≠ []) : Severed x r := by
  obtain ⟨d, hd, h⟩ := h
  exact ⟨d, by rwa [List.getLast?_append_of_ne_nil y hx] at hd, h⟩

theorem Severed.of_cons (h : Severed (c :: x) r) (hx : x ≠ []) : Severed x r :=
  Severed.of_append (y := [c]) h hx

theorem Severed.drop {n : Nat} (h : Severed x r) (hn : n < x.length) : Severed (x.drop n) r := by
  rw [← List.take_append_drop n x] at h
  exact h.of_append (by simpa using hn)

theorem Severed.foreign {d : Char} (h : Severed x r) (hd : x.getLast? = some d)
    (hop : isOperatorChar d = false) : Foreign r := by
  obtain ⟨e, he, h⟩ := h
  rw [hd, Option.mem_some_iff] at he
  subst he
  rcases h with ⟨-, h⟩ | ⟨h, -⟩
  · exact h
  · rw [h] at hop
    cases hop

/-- A run of word characters stays as it is. -/
theorem Severed.run {p : Char → Bool} (h : Severed x r) (hp : ∀ c, p c = true → Text.isWord c = true) :
    runLength p (x ++ r) = runLength p x := by
  have hnot : ∀ c, Text.isWord c = false → p c = false := fun c hc => by
    by_contra hpc
    rw [hp c (by simpa using hpc)] at hc
    cases hc
  obtain ⟨d, hd, ⟨-, hforeign⟩ | ⟨hop, -⟩⟩ := h
  · exact runLength_stop (fun c hc => hnot c (hforeign c hc).1) x
  · refine runLength_last hd (hnot d ?_) r
    by_contra hd
    rw [(isWord_not_operator (by simpa using hd)).1] at hop
    cases hop

theorem foreign_run {p : Char → Bool} (hp : ∀ c, p c = true → Text.isWord c = true) (hr : Foreign r) :
    nonemptyRun? p r = none := by
  have : runLength p r = 0 := by
    cases r with
    | nil => rfl
    | cons c r =>
      have hc := (hr c (by simp)).1
      rw [runLength_cons, if_neg fun hpc => by simp [hp c hpc] at hc]
  simp [nonemptyRun?, this]

end Severed

/-- The class `f` takes the same in front of a text that what it stands in does not go on with, and
nothing in front of a text that no number goes on with. -/
structure Steady (f : Text → Option Nat) : Prop where
  severed {x r : Text} : Severed x r → f (x ++ r) = f x
  foreign {r : Text} : Foreign r → f r = none

namespace Steady

variable {f g h : Text → Option Nat} {x r : Text}

theorem nil (hf : Steady f) : f [] = none := hf.foreign (by simp [Foreign])

theorem run {p : Char → Bool} (hp : ∀ c, p c = true → Text.isWord c = true) :
    Steady (nonemptyRun? p) where
  severed hx := by rw [nonemptyRun?, nonemptyRun?, hx.run hp]
  foreign := foreign_run hp

theorem or (hf : Steady f) (hg : Steady g) : Steady fun t => (f t).or (g t) where
  severed hx := by simp only [hf.severed hx, hg.severed hx]
  foreign hr := by simp only [hf.foreign hr, hg.foreign hr, Option.or_none]

omit x r in
/-- A first character that is no operator character, and what `g` takes behind it. -/
theorem sigil_severed {q : Char → Bool} (hq : ∀ c, q c = true → isOperatorChar c = false)
    (hg : Steady g) (hcons : ∀ c t, f (c :: t) = if q c then (g t).map (1 + ·) else none)
    {x r : Text} (hx : Severed x r) : f (x ++ r) = f x := by
  obtain ⟨c, x, rfl⟩ := List.exists_cons_of_ne_nil hx.ne_nil
  rw [List.cons_append, hcons, hcons]
  by_cases hc : q c = true
  · cases x with
    | nil => rw [List.nil_append, hg.nil, hg.foreign (hx.foreign rfl (hq c hc))]
    | cons d x => rw [hg.severed (hx.of_cons (by simp))]
  · rw [if_neg hc, if_neg hc]

/-- A first character that no foreign text starts with, and what `g` takes behind it. -/
theorem sigil {q : Char → Bool} (hq : ∀ c, q c = true → isOperatorChar c = false) (hg : Steady g)
    (hnil : f [] = none) (hcons : ∀ c t, f (c :: t) = if q c then (g t).map (1 + ·) else none)
    (hforeign : ∀ c t, Foreign (c :: t) → q c = false) : Steady f where
  severed hx := sigil_severed hq hg hcons hx
  foreign {r} hr := by
    cases r with
    | nil => exact hnil
    | cons c r =>
      rw [hcons, hforeign c r hr]
      rfl

/-- A first character that satisfies `q`, and the run of `p` that it belongs to. -/
theorem lead {q p : Char → Bool} (hqp : ∀ c, q c = true → p c = true)
    (hp : ∀ c, p c = true → Text.isWord c = true) (hnil : f [] = none)
    (hcons : ∀ c t, f (c :: t) = if q c then some (1 + runLength p t) else none) : Steady f where
  severed {x r} hx := by
    obtain ⟨c, x, rfl⟩ := List.exists_cons_of_ne_nil hx.ne_nil
    have hrun := hx.run hp
    rw [List.cons_append] at hrun ⊢
    rw [hcons, hcons]
    by_cases hc : q c = true
    · rw [runLength_cons, runLength_cons, if_pos (hqp c hc), if_pos (hqp c hc)] at hrun
      rw [if_pos hc, if_pos hc, hrun]
    · rw [if_neg hc, if_neg hc]
  foreign {r} hr := by
    cases r with
    | nil => exact hnil
    | cons c r =>
      rw [hcons, if_neg fun hc => ?_]
      have := (hr c (by simp)).1
      rw [hp c (hqp c hc)] at this
      cases this

/-- A first character that is a word character, and what `g` takes behind it. -/
theorem word {q : Char → Bool} (hq : ∀ c, q c = true → Text.isWord c = true) (hg : Steady g)
    (hnil : f [] = none) (hcons : ∀ c t, f (c :: t) = if q c then (g t).map (1 + ·) else none) :
    Steady f := by
  refine sigil (fun c hc => (isWord_not_operator (hq c hc)).1) hg hnil hcons fun c t hr => ?_
  by_contra hc
  have := (hr c (by simp)).1
  rw [hq c (by simpa using hc)] at this
  cases this

/-- One of two classes, chosen by the first character. -/
theorem choose {q : Char → Bool} (hg : Steady g) (hh : Steady h) (hnil : f [] = none)
    (hcons : ∀ c t, f (c :: t) = if q c then g (c :: t) else h (c :: t)) : Steady f where
  severed {x r} hx := by
    obtain ⟨c, x, rfl⟩ := List.exists_cons_of_ne_nil hx.ne_nil
    have hg' := hg.severed hx
    have hh' := hh.severed hx
    rw [List.cons_append] at *
    rw [hcons, hcons, hg', hh']
  foreign {r} hr := by
    cases r with
    | nil => exact hnil
    | cons c r => rw [hcons, hg.foreign hr, hh.foreign hr, ite_self]

/-- A point, and what `g` takes behind it. -/
theorem point (hg : Steady g) (hnil : f [] = none)
    (hcons : ∀ c t, f (c :: t) = if c == '.' then (g t).map (1 + ·) else none) : Steady f := by
  refine sigil (q := fun c => c == '.') (fun c hc => ?_) hg hnil hcons fun c t hr => ?_
  · rw [beq_iff_eq.mp hc]
    decide
  · exact beq_eq_false_iff_ne.mpr (hr c (by simp)).2.1

/-- What `f` takes and `g` behind it, where `f` ends with a word character. -/
theorem andThen (hf : Steady f) (hg : Steady g) {j : Nat → Option Nat → Option Nat}
    (hle : ∀ x n, f x = some n → n ≤ x.length)
    (hlast : ∀ x, f x = some x.length → ∀ d ∈ x.getLast?, isOperatorChar d = false)
    (heq : ∀ t, h t = (f t).bind fun n => j n (g (t.drop n))) : Steady h where
  severed {x r} hx := by
    rw [heq, heq, hf.severed hx]
    cases hn : f x with
    | none => rfl
    | some n =>
      rw [Option.bind_some, Option.bind_some]
      rcases (hle x n hn).lt_or_eq with hlt | rfl
      · rw [List.drop_append_of_le_length hlt.le, hg.severed (hx.drop hlt)]
      · obtain ⟨d, hd⟩ : ∃ d, x.getLast? = some d := ⟨_, List.getLast?_eq_some_getLast hx.ne_nil⟩
        rw [List.drop_left, List.drop_length, hg.nil, hg.foreign (hx.foreign hd (hlast x hn d hd))]
  foreign hr := by rw [heq, hf.foreign hr, Option.bind_none]

end Steady

section Numbers

theorem isDecimal_of_isDigit {c : Char} (h : c.isDigit = true) : Text.isDecimal c = true := by
  have hascii : c.toNat < 128 := by
    simp only [Char.isDigit, Bool.and_eq_true, decide_eq_true_eq, ge_iff_le,
      UInt32.le_iff_toNat_le] at h
    simp only [Char.toNat]
    exact h.2.trans_lt (by decide)
  simp only [Text.isDecimal, hascii, if_true, h]

theorem steady_digits : Steady digitsLength? :=
  .lead (fun c hc => by simp [Text.isDigitPart, hc]) (fun _ => isWord_of_isDigitPart) rfl
    digitsLength?_eq

/-- A sign or none, and what `f` takes behind it. -/
theorem steady_signed {f : Text → Option Nat} (hf : Steady f) (hinert : ∀ r, Inert r → f r = none) :
    Steady (signed f) where
  severed {x r} hx := by
    obtain ⟨c, x, rfl⟩ := List.exists_cons_of_ne_nil hx.ne_nil
    rw [List.cons_append, signed, signed]
    by_cases hc : (c == '+' || c == '-') = true
    · rw [if_pos hc, if_pos hc]
      cases x with
      | cons d x => rw [hf.severed (hx.of_cons (by simp))]
      | nil =>
        -- behind a sign no digits follow
        obtain ⟨d, hd, ⟨hword, -⟩ | ⟨-, hr⟩⟩ := hx
        · obtain rfl : c = d := by simpa using hd
          have hop : isOperatorChar c = true := by
            simp only [Bool.or_eq_true, beq_iff_eq] at hc
            rcases hc with rfl | rfl <;> decide
          rw [(isWord_not_operator hword).1] at hop
          cases hop
        · rw [List.nil_append, hf.nil, hinert r hr]
    · rw [if_neg hc, if_neg hc]
      exact hf.severed hx
  foreign {r} hr := by
    cases r with
    | nil => rfl
    | cons c r =>
      obtain ⟨-, -, hplus, hminus⟩ := hr c (by simp)
      simp only [signed, hplus, hminus, beq_iff_eq, Bool.or_eq_true, or_self, if_false]
      exact hf.foreign hr

theorem steady_exponent : Steady exponentLength? := by
  refine .word (q := fun c => c == 'e' || c == 'E') (fun c hc => ?_)
    (steady_signed steady_digits fun r hr => ?_) rfl exponentLength?_eq
  · simp only [Bool.or_eq_true, beq_iff_eq] at hc
    rcases hc with rfl | rfl <;> decide
  · cases r with
    | nil => rfl
    | cons c r => rw [digitsLength?_eq, if_neg (by simp [(hr c (by simp)).1])]

theorem steady_binaryExponent : Steady binaryExponentLength? := by
  refine .word (q := fun c => c == 'p' || c == 'P') (fun c hc => ?_)
    (steady_signed (.run fun _ => isWord_of_exponentDigit) fun r hr => ?_) rfl binaryExponentLength?_eq
  · simp only [Bool.or_eq_true, beq_iff_eq] at hc
    rcases hc with rfl | rfl <;> decide
  · cases r with
    | nil => rfl
    | cons c r =>
      obtain ⟨hdecimal, hunderscore, -⟩ := hr c (by simp)
      have hdigit : c.isDigit = false := by
        by_contra hd
        rw [isDecimal_of_isDigit (by simpa using hd)] at hdecimal
        cases hdecimal
      simp [nonemptyRun?, runLength_cons, hdigit, hunderscore]

theorem steady_marked {mark : Char} {p : Char → Bool} (hmark : Text.isWord mark = true)
    (hp : ∀ c, p c = true → Text.isWord c = true) : Steady (markedLength? mark p) := by
  have htail : Steady (markedTail? mark p) := by
    refine .word (q := fun c => c == mark) (fun c hc => ?_) (.run hp) rfl fun _ _ => rfl
    rw [beq_iff_eq.mp hc, hmark]
  refine .word (q := fun c => c == '0') (fun c hc => ?_) htail rfl (markedLength?_eq mark p)
  rw [beq_iff_eq.mp hc]
  decide

/-- A run that takes a whole text ends with a character of its kind. -/
theorem last_of_run {p : Char → Bool} {x : Text} (h : x.length ≤ runLength p x) :
    ∀ d ∈ x.getLast?, p d = true := by
  have hall := (of_runLength_eq (p := p) (x := x) (u := []) (by simpa using h)).1
  exact fun d hd => hall d (List.mem_of_getLast? hd)

theorem not_operator_of_word {p : Char → Bool} (hp : ∀ c, p c = true → Text.isWord c = true) {x : Text}
    (h : x.length ≤ runLength p x) : ∀ d ∈ x.getLast?, isOperatorChar d = false :=
  fun d hd => (isWord_not_operator (hp d (last_of_run h d hd))).1

theorem digits_last (x : Text) (h : digitsLength? x = some x.length) :
    ∀ d ∈ x.getLast?, isOperatorChar d = false := by
  cases x with
  | nil => simp
  | cons c x =>
    rw [digitsLength?_eq, Option.ite_none_right_eq_some] at h
    refine not_operator_of_word (p := Text.isDigitPart) (fun _ => isWord_of_isDigitPart) ?_
    have hpart : Text.isDigitPart c = true := by simp [Text.isDigitPart, h.1]
    rw [runLength_cons, if_pos hpart, Option.some.inj h.2]

theorem marked_last {mark : Char} {p : Char → Bool} (hp : ∀ c, p c = true → Text.isWord c = true)
    (x : Text) (h : markedLength? mark p x = some x.length) :
    ∀ d ∈ x.getLast?, isOperatorChar d = false := by
  simp only [markedLength?] at h
  split at h
  next c t =>
    simp only [Option.ite_none_right_eq_some, Option.some.injEq, List.length_cons] at h
    obtain ⟨⟨-, hpos⟩, hlength⟩ := h
    have hne : t ≠ [] := by
      rintro rfl
      simp at hpos
    rw [List.getLast?_cons_cons, List.getLast?_cons_of_ne_nil hne]
    exact not_operator_of_word hp (by omega)
  next => cases h

/-- What `inner` reads behind a point. -/
def pointed (inner : Text → Option Nat) : Text → Option Nat
  | c :: t => if c == '.' then (inner t).map (1 + ·) else none
  | [] => none

theorem steady_hexTail : Steady hexTail? := by
  let inner (t : Text) : Option Nat :=
    (nonemptyRun? isHexPart t).bind fun n => (binaryExponentLength? (t.drop n)).map (n + ·)
  have hinner : Steady inner := by
    refine .andThen (j := fun n => Option.map (n + ·)) (.run fun _ => isWord_of_isHexPart)
      steady_binaryExponent (fun x n hn => ?_) (fun x hx => ?_) fun _ => rfl
    · exact (nonemptyRun_eq_some hn).1 ▸ runLength_le x
    · exact not_operator_of_word (fun _ => isWord_of_isHexPart) (nonemptyRun_eq_some hx).1.le
  refine .choose (q := fun c => c == '.') (.point hinner (f := pointed inner) rfl fun _ _ => rfl)
    steady_binaryExponent rfl fun c t => ?_
  simp only [hexTail?, pointed, inner]
  split <;> rfl

theorem steady_hexFloat : Steady hexFloatLength? :=
  .andThen (j := fun n => Option.map (n + ·))
    (steady_marked (by decide) fun _ => isWord_of_isHexPart) steady_hexTail
    (fun _ _ hn => ((local_marked (m := 'x') (A := Apart) (by decide) ends_isHexPart).le hn).2)
    (marked_last fun _ => isWord_of_isHexPart) hexFloatLength?_eq

theorem steady_decimalTail : Steady decimalTail? := by
  let inner (t : Text) : Option Nat :=
    (digitsLength? t).map fun n => n + (exponentLength? (t.drop n)).getD 0
  have hinner : Steady inner := by
    refine .andThen (j := fun n m => some (n + m.getD 0)) steady_digits steady_exponent
      (fun x n hn => ((local_digits (A := Apart)).le hn).2) digits_last fun t => ?_
    simp only [inner]
    cases digitsLength? t <;> rfl
  refine .choose (q := fun c => c == '.') (.point hinner (f := pointed inner) rfl fun _ _ => rfl)
    steady_exponent rfl fun c t => ?_
  simp only [decimalTail?, pointed, inner]
  split <;> rfl

theorem steady_decimalFloat : Steady decimalFloatLength? :=
  .andThen (j := fun n => Option.map (n + ·)) steady_digits steady_decimalTail
    (fun _ _ hn => ((local_digits (A := Apart)).le hn).2) digits_last decimalFloatLength?_eq

theorem steady_float : Steady floatLength? := .or steady_hexFloat steady_decimalFloat

theorem steady_integer : Steady integerLength? :=
  .or (steady_marked (by decide) fun _ => isWord_of_isHexPart) <|
  .or (steady_marked (by decide) fun _ => isWord_of_isOctalPart) <|
  .or (steady_marked (by decide) fun _ => isWord_of_isBinaryPart) steady_digits

theorem steady_name : Steady nameLength? :=
  .lead (fun c hc => by simp_all [Text.isNameStart]) (fun _ => id) rfl nameLength?_eq

end Numbers

section Severed

variable {x r : Text} (h : Severed x r)
include h

theorem Severed.sigilName {s : Char} (hs : isOperatorChar s = false) :
    sigilNameLength? s (x ++ r) = sigilNameLength? s x := by
  refine Steady.sigil_severed (q := fun d => d == s) (fun c hc => ?_) steady_name (fun d t => ?_) h
  · rw [beq_iff_eq.mp hc, hs]
  · simp only [sigilNameLength?, beq_iff_eq]

theorem Severed.dollar : dollarLength? (x ++ r) = dollarLength? x := by
  refine Steady.sigil_severed (q := fun d => d == '$') (fun c hc => ?_)
    (.run (p := Text.isWord) fun _ => id) (fun d t => ?_) h
  · rw [beq_iff_eq.mp hc]
    decide
  · by_cases hd : d = '$'
    · subst hd
      simp [dollarLength?]
    · simp only [dollarLength?, beq_iff_eq, hd, if_false]
      split
      · simp_all
      · rfl

theorem Severed.char (p : Char → Bool) : charLength? p (x ++ r) = charLength? p x := by
  obtain ⟨c, x, rfl⟩ := List.exists_cons_of_ne_nil h.ne_nil
  rfl

/-- A fixed text of operator characters and points is not completed by what follows. -/
theorem Severed.isPrefixOf {w : Text} (hw : w.all (fun c => isOperatorChar c || c == '.') = true) :
    w.isPrefixOf (x ++ r) = w.isPrefixOf x := by
  simp only [List.all_eq_true, Bool.or_eq_true, beq_iff_eq] at hw
  have hiff : w <+: x ++ r ↔ w <+: x := by
    refine ⟨fun hp => ?_, fun hp => hp.trans (List.prefix_append x r)⟩
    rcases List.prefix_or_prefix_of_prefix hp (List.prefix_append x r) with hp' | ⟨v, rfl⟩
    · exact hp'
    · cases v with
      | nil => simp
      | cons c v =>
        obtain ⟨s, rfl⟩ := (List.prefix_append_right_inj x).mp hp
        obtain ⟨d, hd, ⟨hword, -⟩ | ⟨-, hinert⟩⟩ := h
        · have hd := hw d (List.mem_append_left _ (List.mem_of_getLast? hd))
          have := isWord_not_operator hword
          simp_all
        · obtain ⟨-, -, hop, hpoint⟩ := hinert c rfl
          have := hw c (by simp)
          simp_all
  rw [Bool.eq_iff_iff, List.isPrefixOf_iff_prefix, List.isPrefixOf_iff_prefix, hiff]

theorem Severed.arrow : arrowLength? (x ++ r) = arrowLength? x := by
  rw [arrowLength?, arrowLength?, h.isPrefixOf (by decide)]

theorem Severed.operator : operatorLength? (x ++ r) = operatorLength? x := by
  have hrun : runLength isOperatorChar (x ++ r) = runLength isOperatorChar x := by
    obtain ⟨d, hd, ⟨hword, -⟩ | ⟨-, hinert⟩⟩ := id h
    · exact runLength_last hd (isWord_not_operator hword).1 r
    · exact runLength_stop (fun c hc => (hinert c hc).2.2.1) x
  rw [operatorLength?, operatorLength?, h.isPrefixOf (by decide), h.isPrefixOf (by decide), nonemptyRun?,
    nonemptyRun?, hrun]

theorem Severed.firstOf : firstOf openClasses (x ++ r) = firstOf openClasses x := by
  simp only [Token.firstOf, openClasses, List.findSome?_cons, List.findSome?_nil,
    steady_float.severed h, steady_integer.severed h, h.sigilName (s := '#') (by decide),
    h.sigilName (s := '@') (by decide), h.dollar, steady_name.severed h, h.arrow, h.char, h.operator]

end Severed

section Lexemes

variable {x r r' : Text} {k : Kind} {n : Nat}

/-- A lexeme in front of a place where different lexemes meet does not depend on what stands there. -/
theorem lexeme_severed (hl : lexeme (x ++ r) = .ok (k, n)) (hn : n ≤ x.length) (hk : k.isTrivia = false)
    (h : Severed x r) (h' : Severed x r') (hq : r'.head? ≠ some '"') : lexeme (x ++ r') = .ok (k, n) := by
  have hblock : ∀ {s}, Severed x s → blockOpen.isPrefixOf (x ++ s) = blockOpen.isPrefixOf x := fun h =>
    h.isPrefixOf (by decide)
  have hline : ∀ {s}, Severed x s → lineComment.isPrefixOf (x ++ s) = lineComment.isPrefixOf x := fun h =>
    h.isPrefixOf (by decide)
  rcases lexeme_cases hl with ⟨q, hopen, rfl, hl'⟩ | ⟨-, -, hc, -⟩ | ⟨hopen, hb, hs⟩
  · obtain ⟨y, u, rfl, rfl⟩ : ∃ y u, x = y ++ u ∧ y.length = n :=
      ⟨x.take n, x.drop n, (List.take_append_drop n x).symm, by simp [hn]⟩
    rw [List.append_assoc] at hl ⊢
    refine lexeme_append_literal hl fun hhead => ?_
    cases u with
    | nil => exact absurd hhead hq
    | cons c u => exact hhead
  · exact absurd hc (not_comment_of_significant hk)
  · obtain ⟨c, y, rfl⟩ := List.exists_cons_of_ne_nil h.ne_nil
    have hsimple : simpleLexeme? (c :: y ++ r') = some (k, n) := by
      by_cases hc : c = '`'
      · subst hc
        obtain ⟨rfl, hback⟩ := simpleLexeme_backquote hs
        exact simpleLexeme_of_backquoted (backquoted_append (x := '`' :: y) hback hn r').1
      · obtain ⟨hgap, hline₁⟩ := simpleLexeme_significant (t := y ++ r) hs hk
        have hline₂ : lineComment.isPrefixOf (c :: (y ++ r')) = false := by
          rw [← List.cons_append, hline h', ← hline h]
          exact hline₁
        rw [List.cons_append, simpleLexeme_eq hgap hc hline₁, ← List.cons_append, h.firstOf] at hs
        rw [List.cons_append, simpleLexeme_eq hgap hc hline₂, ← List.cons_append, h'.firstOf, hs]
    refine lexeme_of_simple ?_ ?_ hsimple
    · exact Quoting.opens?_none_append (fun hall => simpleLexeme_pounds (by simp) hall hk hn hs) hopen r'
    · rw [hblock h', ← hblock h]
      exact hb

/-- Where different lexemes meet, what stands behind can be replaced by what meets them as well. -/
theorem Reads.severed {t : Text} {ls : List Word} (hread : Reads t ls r) (ht : t = x ++ r)
    (h : x ≠ [] → Severed x r) (h' : x ≠ [] → Severed x r') (hq : r'.head? ≠ some '"') :
    Reads (x ++ r') ls r' := by
  induction hread generalizing x with
  | done r =>
    obtain rfl : x = [] := by simpa using ht
    exact .done _
  | @chunk y u r a ls hc hrest ih =>
    obtain ⟨v, rfl⟩ := hrest.suffix
    obtain rfl : x = y ++ v := by simpa [← List.append_assoc] using ht.symm
    rw [List.append_assoc]
    have hne : y ++ v ≠ [] := by simp [hc.ne_nil]
    refine .chunk ?_ (ih rfl (fun hv => (h hne).of_append hv) fun hv => (h' hne).of_append hv)
    cases hc with
    | gap hg => exact .gap hg
    | lineComment hy => exact .lineComment hy
    | blockComment hp hl => exact .blockComment hp (lexeme_blockComment hp hl _).2
    | lexeme hl hk =>
      have := lexeme_severed (x := y ++ v) (by rwa [List.append_assoc]) (by simp) hk (h hne) (h' hne) hq
      exact .lexeme (by rwa [List.append_assoc] at this) hk

end Lexemes

end SwiftMacros.Token
