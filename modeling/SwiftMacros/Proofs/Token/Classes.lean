import Mathlib
import SwiftMacros.Proofs.Token.Local

/-! The lexeme classes are local: numbers, names, operators and the single characters. Names in
backquotes take stops, but end with a delimiter of their own. -/

namespace SwiftMacros.Token

variable {A : Text → Text → Prop} [Sep A]

/-- A class that fits only in front of a character that is no end fits no free text. -/
theorem eq_none_of_free {f : Text → Option Nat} {q : Char → Bool} (hq : Ends q)
    (hnil : f [] = none) (hcons : ∀ c t, q c = false → f (c :: t) = none) {r : Text}
    (hr : Free r) : f r = none := by
  cases r with
  | nil => exact hnil
  | cons c r => exact hcons c r (hq c hr.isEnd)

omit [Sep A] in
/-- A fixed text that is nowhere cut apart. -/
theorem Local.fixed (w : Text) (hne : w ≠ [])
    (hw : ∀ x c r, x ≠ [] → w = x ++ c :: r → ∀ s, ¬ A x (c :: s)) :
    Local A fun t => if w.isPrefixOf t then some w.length else none where
  le {t n} h := by
    simp only [List.isPrefixOf_iff_prefix, Option.ite_none_right_eq_some, Option.some.injEq] at h
    obtain ⟨hp, rfl⟩ := h
    exact ⟨List.length_pos_iff.mpr hne, hp.length_le⟩
  keep {x r n} h hn := by
    simp only [List.isPrefixOf_iff_prefix, Option.ite_none_right_eq_some, Option.some.injEq] at h ⊢
    obtain ⟨hp, rfl⟩ := h
    exact ⟨List.prefix_of_prefix_length_le hp (List.prefix_append x r) hn, rfl⟩
  grow {x n} r h := by
    simp only [List.isPrefixOf_iff_prefix, Option.ite_none_right_eq_some] at h
    refine ⟨w.length, ?_⟩
    simp only [List.isPrefixOf_iff_prefix, h.1.trans (List.prefix_append x r), if_true]
  stop {x r} hx hr := by
    have hiff : w <+: x ++ r ↔ w <+: x := by
      refine ⟨fun hp => ?_, fun hp => hp.trans (List.prefix_append x r)⟩
      rcases List.prefix_or_prefix_of_prefix hp (List.prefix_append x r) with hp' | ⟨v, rfl⟩
      · exact hp'
      · cases v with
        | nil => simp
        | cons c v =>
          obtain ⟨s, rfl⟩ := (List.prefix_append_right_inj x).mp hp
          exact absurd hr (hw x c v hx rfl (v ++ s))
    simp only [List.isPrefixOf_iff_prefix, hiff]

/-- A fixed text of two characters, of which the second is no end. -/
theorem Local.pair (a b : Char) (hb : isEnd b = false) :
    Local A fun t => if [a, b].isPrefixOf t then some 2 else none := by
  refine .fixed [a, b] (by simp) fun x c r hx h s ha => ?_
  have hc := (Sep.free ha).isEnd
  match x, hx with
  | [_], _ =>
    simp only [List.cons_append, List.nil_append, List.cons.injEq] at h
    rw [← h.2.1] at hc
    simp [hb] at hc
  | _ :: _ :: _, _ => simp at h

section Numbers

theorem digitsLength?_eq (c : Char) (t : Text) : digitsLength? (c :: t) =
    if Text.isDecimal c then some (1 + runLength Text.isDigitPart t) else none := rfl

theorem local_digits : Local A digitsLength? :=
  .leadRun ends_isDigitPart rfl digitsLength?_eq

theorem digits_free {r : Text} (hr : Free r) : digitsLength? r = none :=
  eq_none_of_free ends_isDecimal rfl (fun c t h => by simp [digitsLength?, h]) hr

/-- Digits that end before the text does are not changed by what follows. -/
theorem digits_stay (x r : Text) (n : Nat) (h : digitsLength? x = some n) (hn : n < x.length) :
    digitsLength? (x ++ r) = some n := by
  cases x with
  | nil => simp at hn
  | cons c x =>
    simp only [digitsLength?, Option.ite_none_right_eq_some, Option.some.injEq] at h
    obtain ⟨hc, rfl⟩ := h
    simp only [List.length_cons] at hn
    simp only [List.cons_append, digitsLength?, hc, if_true]
    rw [runLength_append_of_lt (by omega)]

theorem nonemptyRun_free {p : Char → Bool} (hp : Ends p) {r : Text} (hr : Free r) :
    nonemptyRun? p r = none := by
  refine eq_none_of_free hp rfl (fun c t h => ?_) hr
  simp [nonemptyRun?, runLength_cons, h]

theorem nonemptyRun_eq_some {p : Char → Bool} {t : Text} {n : Nat} (h : nonemptyRun? p t = some n) :
    n = runLength p t ∧ 0 < n := by
  simp only [nonemptyRun?] at h
  split at h
  · cases h
  · rename_i hne
    cases h
    exact ⟨rfl, Nat.pos_of_ne_zero hne⟩

theorem nonemptyRun_stay {p : Char → Bool} (x r : Text) (n : Nat) (h : nonemptyRun? p x = some n)
    (hn : n < x.length) : nonemptyRun? p (x ++ r) = some n := by
  have hx := (nonemptyRun_eq_some h).1
  rw [nonemptyRun?, runLength_append_of_lt (by omega)]
  exact h

/-- A marker such as `x` and the digits behind it. -/
def markedTail? (mark : Char) (p : Char → Bool) : Text → Option Nat
  | c :: t => if c == mark then (nonemptyRun? p t).map (1 + ·) else none
  | [] => none

theorem markedLength?_eq (mark : Char) (p : Char → Bool) (c : Char) (t : Text) :
    markedLength? mark p (c :: t) =
      if c == '0' then (markedTail? mark p t).map (1 + ·) else none := by
  by_cases hc : c = '0'
  · subst hc
    cases t with
    | nil => rfl
    | cons d t =>
      simp only [markedLength?, markedTail?, nonemptyRun?, beq_self_eq_true, if_true, beq_iff_eq]
      by_cases hd : d = mark
      · cases hn : runLength p t with
        | zero => simp [hd]
        | succ n => simp [hd]; omega
      · simp [hd]
  · simp only [markedLength?, beq_iff_eq, hc, if_false]
    split
    · simp_all
    · rfl

theorem local_marked {m : Char} {p : Char → Bool} (hm : isEnd m = false) (hp : Ends p) :
    Local A (markedLength? m p) := by
  have htail : Local A (markedTail? m p) :=
    .sigil (.run hp) (fun _ => nonemptyRun_free hp) rfl fun _ _ => rfl
  refine .sigil htail (fun r hr => ?_) rfl (markedLength?_eq m p)
  refine eq_none_of_free (q := fun c => c == m) (fun c hc => ?_) rfl (fun c t h => ?_) hr
  · by_contra hne
    simp only [beq_eq_false_iff_ne, ne_eq, not_not] at hne
    simp [hne ▸ hc] at hm
  · simp only [beq_eq_false_iff_ne, ne_eq] at h
    simp [markedTail?, h]

theorem marked_stay {mark : Char} {p : Char → Bool} (x r : Text) (n : Nat)
    (h : markedLength? mark p x = some n) (hn : n < x.length) :
    markedLength? mark p (x ++ r) = some n := by
  simp only [markedLength?] at h
  split at h
  · rename_i c t
    simp only [Option.ite_none_right_eq_some, Option.some.injEq] at h
    obtain ⟨hc, rfl⟩ := h
    simp only [List.length_cons] at hn
    simp only [List.cons_append, markedLength?]
    rw [runLength_append_of_lt (by omega), if_pos hc]
  · simp at h

/-- A sign or none, and what `f` takes behind it. -/
def signed (f : Text → Option Nat) : Text → Option Nat
  | c :: t => if c == '+' || c == '-' then (f t).map (1 + ·) else f (c :: t)
  | [] => none

theorem local_signed {f : Text → Option Nat} (hf : Local A f) (hfree : ∀ r, Free r → f r = none) :
    Local A (signed f) := by
  let sign (t : Text) : Option Nat := match t with
    | c :: t => if c == '+' || c == '-' then (f t).map (1 + ·) else none
    | [] => none
  have hsign : Local A sign :=
    .sigil (q := fun c => c == '+' || c == '-') hf hfree rfl fun _ _ => rfl
  refine .choose (q := fun c => c == '+' || c == '-') hsign hf rfl fun c t => ?_
  simp only [signed, sign]
  split <;> rfl

theorem signed_free {f : Text → Option Nat} (hfree : ∀ r, Free r → f r = none) {r : Text}
    (hr : Free r) : signed f r = none := by
  cases r with
  | nil => rfl
  | cons c r =>
    have hsign : Ends fun c => c == '+' || c == '-' := ends_of (by simp; decide)
    simp only [signed, hsign c hr.isEnd]
    exact hfree _ hr

theorem signed_eq (f : Text → Option Nat) (hnil : f [] = none) (t : Text) :
    signed f t = (f (t.drop (signLength t))).map (signLength t + ·) := by
  cases t with
  | nil => simp [signed, signLength, hnil]
  | cons c t =>
    by_cases hc : c = '+' ∨ c = '-'
    · simp [signed, signLength, hc]
    · simp only [not_or] at hc
      simp [signed, signLength, hc]

theorem exponentLength?_eq (c : Char) (t : Text) : exponentLength? (c :: t) =
    if c == 'e' || c == 'E' then (signed digitsLength? t).map (1 + ·) else none := by
  simp only [exponentLength?, signed_eq digitsLength? rfl, Option.map_map, Bool.or_eq_true,
    beq_iff_eq]
  congr 2
  funext n
  simp only [Function.comp_apply]
  omega

theorem local_exponent : Local A exponentLength? :=
  .sigil (q := fun c => c == 'e' || c == 'E') (local_signed local_digits fun _ => digits_free)
    (fun _ => signed_free fun _ => digits_free) rfl exponentLength?_eq

theorem exponent_free {r : Text} (hr : Free r) : exponentLength? r = none :=
  eq_none_of_free (q := fun c => c == 'e' || c == 'E') (ends_of (by simp; decide)) rfl
    (fun c t h => by simp only [exponentLength?_eq, h]; rfl) hr

theorem binaryExponentLength?_eq (c : Char) (t : Text) : binaryExponentLength? (c :: t) =
    if c == 'p' || c == 'P' then
      (signed (nonemptyRun? fun d => d.isDigit || d == '_') t).map (1 + ·) else none := by
  have hsigned := signed_eq (nonemptyRun? fun d => d.isDigit || d == '_') rfl
  simp only [binaryExponentLength?, hsigned, Option.map_map, Bool.or_eq_true, beq_iff_eq]
  congr 1
  simp only [nonemptyRun?]
  cases runLength (fun d => d.isDigit || d == '_') (t.drop (signLength t)) with
  | zero => rfl
  | succ n => simp

theorem local_binaryExponent : Local A binaryExponentLength? :=
  .sigil (q := fun c => c == 'p' || c == 'P')
    (local_signed (.run ends_exponentDigit) fun _ => nonemptyRun_free ends_exponentDigit)
    (fun _ => signed_free fun _ => nonemptyRun_free ends_exponentDigit) rfl
    binaryExponentLength?_eq

theorem binaryExponent_free {r : Text} (hr : Free r) : binaryExponentLength? r = none :=
  eq_none_of_free (q := fun c => c == 'p' || c == 'P') (ends_of (by simp; decide)) rfl
    (fun c t h => by simp only [binaryExponentLength?_eq, h]; rfl) hr

/-- What follows the whole part of a hexadecimal float: a fraction or none, and an exponent. -/
def hexTail? : Text → Option Nat
  | c :: t =>
    if c == '.' then
      ((nonemptyRun? isHexPart t).bind fun n =>
        (binaryExponentLength? (t.drop n)).map (n + ·)).map (1 + ·)
    else binaryExponentLength? (c :: t)
  | [] => none

theorem local_hexTail : Local A hexTail? := by
  let inner (t : Text) : Option Nat :=
    (nonemptyRun? isHexPart t).bind fun n => (binaryExponentLength? (t.drop n)).map (n + ·)
  let pointed (t : Text) : Option Nat := match t with
    | c :: t => if c == '.' then (inner t).map (1 + ·) else none
    | [] => none
  have hinner : Local A inner :=
    .andThen (.run ends_isHexPart) local_binaryExponent nonemptyRun_stay
      (fun _ => binaryExponent_free) fun _ => rfl
  have hpointed : Local A pointed := by
    refine .sigil (q := fun c => c == '.') hinner (fun r hr => ?_) rfl fun _ _ => rfl
    simp only [inner, nonemptyRun_free ends_isHexPart hr, Option.bind_none]
  refine .choose (q := fun c => c == '.') hpointed local_binaryExponent rfl fun c t => ?_
  simp only [hexTail?, pointed, inner]
  split <;> rfl

theorem hexTail_free {r : Text} (hr : Free r) : hexTail? r = none := by
  cases r with
  | nil => rfl
  | cons c r =>
    by_cases hc : c = '.'
    · subst hc
      obtain ⟨-, hhex⟩ := hr.pointless
      simp only [hexTail?, beq_self_eq_true, if_true]
      cases hn : nonemptyRun? isHexPart r with
      | none => rfl
      | some n => simp [hhex n hn]
    · simp only [hexTail?, beq_iff_eq, hc, if_false]
      exact binaryExponent_free hr

theorem hexTail?_eq (t : Text) : hexTail? t =
    (binaryExponentLength? (t.drop (hexFractionLength t))).map (hexFractionLength t + ·) := by
  cases t with
  | nil => rfl
  | cons c t =>
    by_cases hc : c = '.'
    · subst hc
      simp only [hexTail?, hexFractionLength, nonemptyRun?, beq_self_eq_true, if_true]
      cases hn : runLength isHexPart t with
      | zero => simp [binaryExponentLength?]
      | succ n =>
        simp only [Option.bind_some, Option.map_map]
        rw [Nat.add_comm 1, List.drop_succ_cons]
        congr 1
        funext k
        simp only [Function.comp_apply]
        omega
    · simp [hexTail?, hexFractionLength, hc]

theorem hexFloatLength?_eq (t : Text) : hexFloatLength? t =
    (markedLength? 'x' isHexPart t).bind fun n => (hexTail? (t.drop n)).map (n + ·) := by
  simp only [hexFloatLength?, hexTail?_eq, Option.bind_eq_bind]
  congr 1
  funext n
  simp only [List.drop_drop, Option.map_map]
  cases binaryExponentLength? (t.drop (n + hexFractionLength (t.drop n))) with
  | none => rfl
  | some k => simp [Nat.add_assoc]

theorem local_hexFloat : Local A hexFloatLength? :=
  .andThen (local_marked (m := 'x') (by decide) ends_isHexPart) local_hexTail marked_stay
    (fun _ => hexTail_free) hexFloatLength?_eq

/-- What follows the whole part of a decimal float: a fraction with an exponent or none, or an
exponent alone. -/
def decimalTail? : Text → Option Nat
  | c :: t =>
    if c == '.' then
      ((digitsLength? t).map fun n => n + (exponentLength? (t.drop n)).getD 0).map (1 + ·)
    else exponentLength? (c :: t)
  | [] => none

theorem local_decimalTail : Local A decimalTail? := by
  let inner (t : Text) : Option Nat :=
    (digitsLength? t).map fun n => n + (exponentLength? (t.drop n)).getD 0
  let pointed (t : Text) : Option Nat := match t with
    | c :: t => if c == '.' then (inner t).map (1 + ·) else none
    | [] => none
  have hinner : Local A inner :=
    .andMaybe local_digits local_exponent (fun _ => exponent_free) fun _ => rfl
  have hpointed : Local A pointed := by
    refine .sigil (q := fun c => c == '.') hinner (fun r hr => ?_) rfl fun _ _ => rfl
    simp only [inner, digits_free hr, Option.map_none]
  refine .choose (q := fun c => c == '.') hpointed local_exponent rfl fun c t => ?_
  simp only [decimalTail?, pointed, inner]
  split <;> rfl

theorem decimalTail_free {r : Text} (hr : Free r) : decimalTail? r = none := by
  cases r with
  | nil => rfl
  | cons c r =>
    by_cases hc : c = '.'
    · subst hc
      simp [decimalTail?, hr.pointless.1]
    · simp only [decimalTail?, beq_iff_eq, hc, if_false]
      exact exponent_free hr

theorem decimalFloatLength?_eq (t : Text) : decimalFloatLength? t =
    (digitsLength? t).bind fun n => (decimalTail? (t.drop n)).map (n + ·) := by
  simp only [decimalFloatLength?, Option.bind_eq_bind]
  congr 1
  funext n
  cases hr : t.drop n with
  | nil => rfl
  | cons c r =>
    by_cases hc : c = '.'
    · subst hc
      simp only [decimalTail?, beq_self_eq_true, if_true]
      have hdrop : ∀ k, t.drop (n + 1 + k) = r.drop k := fun k => by
        rw [Nat.add_assoc, ← List.drop_drop, hr, Nat.add_comm, List.drop_succ_cons]
      cases digitsLength? r with
      | none => rfl
      | some k => simp only [Option.map_some, hdrop]; congr 1; omega
    · simp [decimalTail?, hc]

theorem local_decimalFloat : Local A decimalFloatLength? :=
  .andThen local_digits local_decimalTail digits_stay (fun _ => decimalTail_free)
    decimalFloatLength?_eq

theorem local_float : Local A floatLength? := .or local_hexFloat local_decimalFloat

theorem local_integer : Local A integerLength? :=
  .or (local_marked (by decide) ends_isHexPart) <|
  .or (local_marked (by decide) ends_isOctalPart) <|
  .or (local_marked (by decide) ends_isBinaryPart) local_digits

end Numbers

section Names

theorem nameLength?_eq (c : Char) (t : Text) : nameLength? (c :: t) =
    if Text.isNameStart c then some (1 + runLength Text.isWord t) else none := rfl

theorem local_name : Local A nameLength? := .leadRun ends_isWord rfl nameLength?_eq

theorem name_free {r : Text} (hr : Free r) : nameLength? r = none :=
  eq_none_of_free ends_isWord rfl (fun c t h => by simp [nameLength?, Text.isNameStart, h]) hr

theorem local_sigilName (c : Char) : Local A (sigilNameLength? c) := by
  refine .sigil (q := fun d => d == c) local_name (fun _ => name_free) rfl fun d t => ?_
  simp only [sigilNameLength?, beq_iff_eq]

theorem local_dollar : Local A dollarLength? := by
  refine .sigil (q := fun d => d == '$') (.run ends_isWord) (fun _ => nonemptyRun_free ends_isWord)
    rfl fun d t => ?_
  by_cases hd : d = '$'
  · subst hd
    simp [dollarLength?]
  · simp only [dollarLength?, beq_iff_eq, hd, if_false]
    split
    · simp_all
    · rfl

end Names

section Marks

/-- Behind a text that ends with an operator character or a point, no mark stands apart. -/
theorem not_apart_mark {x r : Text} {c d : Char} (hd : x.getLast? = some d)
    (hop : isOperatorChar d = true ∨ d = '.') (hc : isMarkChar c = true) : ¬ Apart x (c :: r) := by
  intro h
  have := (h.2 c (by simp) d hd).1 hc
  rcases hop with hop | rfl
  · simp [this.1] at hop
  · exact this.2 rfl

theorem not_apart_point {x r : Text} (hx : x.getLast? = some '.') : ¬ Apart x ('.' :: r) :=
  fun h => (h.2 '.' (by simp) '.' hx).2 rfl rfl

theorem local_arrow : Local Apart arrowLength? := by
  refine .fixed "->".toList (by decide) fun x c r hx h s => ?_
  match x, hx with
  | [_], _ =>
    cases h
    exact not_apart_mark rfl (.inl (by decide)) (by decide)
  | [_, _], _ => cases h
  | _ :: _ :: _ :: _, _ => cases h

/-- The range operators, of three characters that start with two points. -/
theorem local_range (d : Char) (hd : d = '.' ∨ isMarkChar d = true) :
    Local Apart fun t => if ['.', '.', d].isPrefixOf t then some 3 else none := by
  refine .fixed ['.', '.', d] (by simp) fun x c r hx h s => ?_
  match x, hx with
  | [_], _ =>
    cases h
    exact not_apart_point rfl
  | [_, _], _ =>
    cases h
    rcases hd with rfl | hd
    · exact not_apart_point rfl
    · exact not_apart_mark rfl (.inr rfl) hd
  | [_, _, _], _ => cases h
  | _ :: _ :: _ :: _ :: _, _ => cases h

theorem local_operatorRun : Local Apart (nonemptyRun? isOperatorChar) where
  le {t n} h := by
    obtain ⟨rfl, hn⟩ := nonemptyRun_eq_some h
    exact ⟨hn, runLength_le t⟩
  keep {x r n} h hn := by
    obtain ⟨rfl, -⟩ := nonemptyRun_eq_some h
    rw [nonemptyRun?, ← runLength_keep hn]
    exact h
  grow {x n} r h := by
    obtain ⟨rfl, hn⟩ := nonemptyRun_eq_some h
    have := runLength_mono (p := isOperatorChar) x r
    refine ⟨runLength isOperatorChar (x ++ r), ?_⟩
    rw [nonemptyRun?]
    split
    · omega
    · rfl
  stop {x r} hx hr := by
    have hrun : runLength isOperatorChar (x ++ r) = runLength isOperatorChar x := by
      cases r with
      | nil => rw [List.append_nil]
      | cons c r =>
        obtain ⟨d, hd⟩ : ∃ d, x.getLast? = some d := ⟨_, List.getLast?_eq_some_getLast hx⟩
        rcases hr.1 c r rfl with hc | hc | ⟨rfl, -⟩
        · exact runLength_stop (by simpa using isOperatorChar_of_isStop hc) x
        · exact runLength_last hd ((hr.2 c (by simp) d hd).1 hc).1 _
        · exact runLength_stop (by simp [isOperatorChar]) x
    rw [nonemptyRun?, nonemptyRun?, hrun]

theorem operatorLength?_eq (t : Text) : operatorLength? t =
    (if ['.', '.', '.'].isPrefixOf t then some 3 else none).or
      ((if ['.', '.', '<'].isPrefixOf t then some 3 else none).or
        (nonemptyRun? isOperatorChar t)) := by
  rw [operatorLength?, show "...".toList = ['.', '.', '.'] by decide,
    show "..<".toList = ['.', '.', '<'] by decide]
  cases ['.', '.', '.'].isPrefixOf t <;> cases ['.', '.', '<'].isPrefixOf t <;> rfl

theorem local_operator : Local Apart operatorLength? := by
  have h := Local.or (local_range '.' (.inl rfl)) (.or (local_range '<' (.inr rfl)) local_operatorRun)
  rw [show operatorLength? = _ from funext operatorLength?_eq]
  exact h

end Marks

end SwiftMacros.Token
