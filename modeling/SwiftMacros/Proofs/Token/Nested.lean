import Mathlib
import SwiftMacros.Proofs.Token.Laid

/-! String literals within string literals. A literal is a tree: pieces between its delimiters, of which
the interpolations hold further literals, with delimiters of their own. The scan of the text of such a
tree ends where the outermost literal ends, whatever follows, unless the quote that opens a literal of one
line is taken for the first of three. -/

namespace SwiftMacros.Token

mutual

/-- What stands between the delimiters of a literal, piece by piece. -/
inductive Content where
  | nil
  | char (c : Char) (rest : Content)
  | escaped (c : Char) (rest : Content)
  | interpolation (inner : Interior) (rest : Content)

/-- What stands between the parentheses of an interpolation. -/
inductive Interior where
  | nil
  | char (c : Char) (rest : Interior)
  | parens (inner rest : Interior)
  | literal (q : Quoting) (content : Content) (rest : Interior)

end

mutual

/-- The text of the pieces of a literal with the delimiters `q`. -/
def Content.text (q : Quoting) : Content → Text
  | .nil => []
  | .char c rest => c :: rest.text q
  | .escaped c rest => q.escape ++ c :: rest.text q
  | .interpolation inner rest => q.escape ++ '(' :: (inner.text ++ ')' :: rest.text q)

def Interior.text : Interior → Text
  | .nil => []
  | .char c rest => c :: rest.text
  | .parens inner rest => '(' :: (inner.text ++ ')' :: rest.text)
  | .literal q content rest => q.opening ++ (content.text q ++ (q.closing ++ rest.text))

end

mutual

/-- A character stands for itself where the rest of the literal neither closes it nor starts an escape, and
a line end only in a literal of several lines. An escape is of any character but the parenthesis that makes
it an interpolation. -/
def Content.WellFormed (q : Quoting) : Content → Prop
  | .nil => True
  | .char c rest =>
    (c = '\n' → q.multiline = true) ∧ ¬ q.closing <+: c :: (rest.text q ++ q.closing) ∧
      ¬ q.escape <+: c :: (rest.text q ++ q.closing) ∧ rest.WellFormed q
  | .escaped c rest => c ≠ '(' ∧ rest.WellFormed q
  | .interpolation inner rest => inner.WellFormed ∧ rest.WellFormed q

/-- Apart from literals, an interpolation holds parentheses in pairs and characters that open no literal. -/
def Interior.WellFormed : Interior → Prop
  | .nil => True
  | .char c rest =>
    c ≠ '(' ∧ c ≠ ')' ∧ Quoting.opens? (c :: rest.text) = none ∧ rest.WellFormed
  | .parens inner rest => inner.WellFormed ∧ rest.WellFormed
  | .literal q content rest => content.WellFormed q ∧ rest.WellFormed

end

/-- The text `t` behind an opening quote does not make it the first of three. -/
def Quoting.Lone (q : Quoting) (t : Text) : Prop := q.multiline = false → ¬ ['"', '"'] <+: t

mutual

/-- None of the quotes that open a literal of one line is the first of three. -/
def Content.Distinct : Content → Prop
  | .nil => True
  | .char _ rest => rest.Distinct
  | .escaped _ rest => rest.Distinct
  | .interpolation inner rest => inner.Distinct ∧ rest.Distinct

def Interior.Distinct : Interior → Prop
  | .nil => True
  | .char _ rest => rest.Distinct
  | .parens inner rest => inner.Distinct ∧ rest.Distinct
  | .literal q content rest =>
    q.Lone (content.text q ++ (q.closing ++ rest.text)) ∧ content.Distinct ∧ rest.Distinct

end

/-- A string literal with all that is nested in it. -/
structure Literal where
  quoting : Quoting
  content : Content

namespace Literal

def text (l : Literal) : Text := l.quoting.opening ++ (l.content.text l.quoting ++ l.quoting.closing)

def WellFormed (l : Literal) : Prop := l.content.WellFormed l.quoting

/-- Before the text `r`, none of the quotes that open a literal of one line is the first of three. -/
def Distinct (l : Literal) (r : Text) : Prop :=
  l.quoting.Lone (l.content.text l.quoting ++ (l.quoting.closing ++ r)) ∧ l.content.Distinct

end Literal

namespace Quoting

/-- A literal is opened by its own delimiter. -/
theorem opens?_opening {q : Quoting} {t : Text} (h : q.Lone t) : opens? (q.opening ++ t) = some q := by
  obtain ⟨pounds, multiline⟩ := q
  induction pounds with
  | zero =>
    cases multiline with
    | true => rfl
    | false =>
      have hlone : ['"', '"'].isPrefixOf t = false := by
        rw [Bool.eq_false_iff, ne_eq, List.isPrefixOf_iff_prefix]
        exact h rfl
      exact (opens?_quote t).trans (by rw [hlone])
  | succ n ih =>
    rw [opening_succ, List.cons_append, opens?_pound, ih h]
    rfl

/-- A text that opens no literal opens none before a closing parenthesis. -/
theorem opens?_paren {t : Text} (h : opens? t = none) (r : Text) : opens? (t ++ ')' :: r) = none := by
  induction t with
  | nil => exact opens?_eq_none (by decide) (by decide) r
  | cons c t ih =>
    by_cases hp : c = '#'
    · subst hp
      rw [opens?_pound, Option.map_eq_none_iff] at h
      rw [List.cons_append, opens?_pound, ih h]
      rfl
    · by_cases hq : c = '"'
      · subst hq
        rw [opens?_quote] at h
        cases h
      · exact opens?_eq_none hp hq _

/-- Only quotes make an opening quote the first of three. -/
theorem Lone.paren {q : Quoting} {t : Text} (h : q.Lone t) (r : Text) : q.Lone (t ++ ')' :: r) := by
  rintro hline ⟨u, hu⟩
  refine h hline ?_
  match t, hu with
  | [], hu => simp at hu
  | [c], hu => simp at hu
  | c :: d :: t, hu =>
    simp only [List.cons_append, List.nil_append, List.cons.injEq] at hu
    obtain ⟨rfl, rfl, -⟩ := hu
    exact ⟨t, rfl⟩

end Quoting

section Scan

variable {q : Quoting} {stack : List Frame} {start depth offset : Nat}

theorem scanLiteral_skip (stack : List Frame) (offset : Nat) (x r : Text) :
    scanLiteral stack x.length offset (x ++ r) = scanLiteral stack 0 (offset + x.length) r := by
  cases stack with
  | nil => simp [scanLiteral]
  | cons top rest =>
    induction x generalizing offset with
    | nil => rfl
    | cons c x ih =>
      simp only [List.cons_append, List.length_cons, scanLiteral, ih]
      congr 1
      omega

/-- A step that takes `x`. -/
theorem scanLiteral_step {top : Frame} {rest : List Frame} {x r : Text} (hx : x ≠ [])
    (h : top.step rest offset (x ++ r) = .ok (stack, x.length)) :
    scanLiteral (top :: rest) 0 offset (x ++ r) = scanLiteral stack 0 (offset + x.length) r := by
  obtain ⟨c, x, rfl⟩ := List.exists_cons_of_ne_nil hx
  rw [List.cons_append] at h
  simp only [List.cons_append, scanLiteral, h, List.length_cons, Nat.add_sub_cancel, scanLiteral_skip]
  congr 1
  omega

theorem Frame.step_closing (r : Text) :
    (literal start q).step stack offset (q.closing ++ r) = .ok (stack, q.closing.length) := by
  have hcloses : q.closing.isPrefixOf (q.closing ++ r) = true :=
    List.isPrefixOf_iff_prefix.mpr (List.prefix_append _ _)
  simp only [step, hcloses, if_true]

theorem Frame.step_char {c : Char} {t r : Text} (hline : c = '\n' → q.multiline = true)
    (hclosing : ¬ q.closing <+: c :: (t ++ q.closing)) (hescape : ¬ q.escape <+: c :: (t ++ q.closing)) :
    (literal start q).step stack offset (c :: (t ++ (q.closing ++ r))) = .ok (literal start q :: stack, 1) := by
  have hlength := q.closing_length_eq
  have hescapes := q.escape_length
  -- neither delimiter reaches beyond the literal
  have hwithin : ∀ w : Text, w.length ≤ q.closing.length → ¬ w <+: c :: (t ++ q.closing) →
      w.isPrefixOf (c :: (t ++ (q.closing ++ r))) = false := by
    intro w hw hne
    have hle : w.length ≤ (c :: (t ++ q.closing)).length := by
      simp only [List.length_cons, List.length_append]
      omega
    rw [← List.append_assoc, ← List.cons_append, prefix_append_iff_of_le hle, Bool.eq_false_iff, ne_eq,
      List.isPrefixOf_iff_prefix]
    exact hne
  have hnewline : ¬ (c = '\n' ∧ (!q.multiline) = true) := by
    rintro ⟨hc, hm⟩
    rw [hline hc] at hm
    cases hm
  simp only [step, hwithin _ le_rfl hclosing, hwithin _ (by split at hlength <;> omega) hescape, List.head?_cons,
    Option.some.injEq, if_neg hnewline, Bool.false_eq_true, if_false]

/-- A backslash and the pounds of the literal take the next character as well. -/
theorem Frame.step_escape (c : Char) (r : Text) :
    (literal start q).step stack offset (q.escape ++ c :: r) =
      .ok (if c = '(' then interpolation 0 :: literal start q :: stack else literal start q :: stack,
        (q.escape ++ [c]).length) := by
  have hclosing : q.closing.isPrefixOf (q.escape ++ c :: r) = false := by
    cases hm : q.multiline <;> simp [Quoting.closing, Quoting.quotes, Quoting.escape, hm, List.isPrefixOf]
  have hescape : q.escape.isPrefixOf (q.escape ++ c :: r) = true :=
    List.isPrefixOf_iff_prefix.mpr (List.prefix_append _ _)
  have hhead : (q.escape ++ c :: r).head? = some '\\' := rfl
  simp only [step, hclosing, hescape, hhead, List.drop_left, List.head?_cons, Option.some.injEq, List.length_append,
    List.length_singleton]
  by_cases hc : c = '(' <;> simp [hc]

theorem Frame.step_opening {t : Text} (h : q.Lone t) :
    (interpolation depth).step stack offset (q.opening ++ t) =
      .ok (literal offset q :: interpolation depth :: stack, q.opening.length) := by
  simp only [step, Quoting.opens?_opening h]

theorem Frame.step_open (r : Text) :
    (interpolation depth).step stack offset ('(' :: r) = .ok (interpolation (depth + 1) :: stack, 1) := by
  simp only [step, Quoting.opens?_eq_none (c := '(') (by decide) (by decide), List.head?_cons]

/-- A parenthesis closes the innermost one that is open. -/
theorem Frame.step_close (r : Text) :
    (interpolation depth).step stack offset (')' :: r) =
      .ok (if depth = 0 then stack else interpolation (depth - 1) :: stack, 1) := by
  simp only [step, Quoting.opens?_eq_none (c := ')') (by decide) (by decide), List.head?_cons]
  cases depth <;> rfl

theorem Frame.step_other {c : Char} {t : Text} (ho : c ≠ '(') (hc : c ≠ ')')
    (h : Quoting.opens? (c :: t) = none) :
    (interpolation depth).step stack offset (c :: t) = .ok (interpolation depth :: stack, 1) := by
  simp only [step, h, List.head?_cons]
  split <;> simp_all

mutual

/-- From its opening delimiter on, a literal is scanned up to its closing delimiter. -/
theorem Content.scanned {q : Quoting} (b : Content) (hb : b.WellFormed q) (hd : b.Distinct) (stack : List Frame)
    (start offset : Nat) (r : Text) :
    scanLiteral (.literal start q :: stack) 0 offset (b.text q ++ (q.closing ++ r)) =
      scanLiteral stack 0 (offset + (b.text q ++ q.closing).length) r := by
  match b with
  | .nil =>
    have hclosing : q.closing ≠ [] := List.ne_nil_of_length_pos (q.closing_length ▸ opening_length_pos q)
    exact scanLiteral_step hclosing (Frame.step_closing r)
  | .char c rest =>
    obtain ⟨hline, hclosing, hescape, hrest⟩ := hb
    calc scanLiteral (.literal start q :: stack) 0 offset ([c] ++ (rest.text q ++ (q.closing ++ r)))
        = scanLiteral (.literal start q :: stack) 0 (offset + 1) (rest.text q ++ (q.closing ++ r)) :=
          scanLiteral_step (List.cons_ne_nil c []) (Frame.step_char hline hclosing hescape)
      _ = scanLiteral stack 0 (offset + 1 + (rest.text q ++ q.closing).length) r :=
          rest.scanned hrest hd stack start (offset + 1) r
      _ = scanLiteral stack 0 (offset + ((Content.char c rest).text q ++ q.closing).length) r := by
          simp only [Content.text, List.cons_append, List.length_cons, Nat.add_assoc, Nat.add_comm 1]
  | .escaped c rest =>
    obtain ⟨hc, hrest⟩ := hb
    have hstep := @Frame.step_escape q stack start offset c
      (rest.text q ++ (q.closing ++ r))
    rw [if_neg hc, List.append_cons] at hstep
    calc scanLiteral (.literal start q :: stack) 0 offset ((q.escape ++ c :: rest.text q) ++ (q.closing ++ r))
        = scanLiteral (.literal start q :: stack) 0 offset
            ((q.escape ++ [c]) ++ (rest.text q ++ (q.closing ++ r))) := by
          simp only [List.append_assoc, List.cons_append, List.nil_append]
      _ = scanLiteral (.literal start q :: stack) 0 (offset + (q.escape ++ [c]).length)
            (rest.text q ++ (q.closing ++ r)) := scanLiteral_step (List.cons_ne_nil _ _) hstep
      _ = scanLiteral stack 0 (offset + (q.escape ++ [c]).length + (rest.text q ++ q.closing).length) r :=
          rest.scanned hrest hd stack start _ r
      _ = scanLiteral stack 0 (offset + ((Content.escaped c rest).text q ++ q.closing).length) r := by
          congr 1
          simp only [Content.text, List.length_append, List.length_cons, List.length_nil]
          omega
  | .interpolation inner rest =>
    obtain ⟨hinner, hrest⟩ := hb
    have hstep := @Frame.step_escape q stack start offset '('
      (inner.text ++ ')' :: (rest.text q ++ (q.closing ++ r)))
    rw [if_pos rfl, List.append_cons] at hstep
    calc scanLiteral (.literal start q :: stack) 0 offset
          ((q.escape ++ '(' :: (inner.text ++ ')' :: rest.text q)) ++ (q.closing ++ r))
        = scanLiteral (.literal start q :: stack) 0 offset
            ((q.escape ++ ['(']) ++ (inner.text ++ ')' :: (rest.text q ++ (q.closing ++ r)))) := by
          simp only [List.append_assoc, List.cons_append, List.nil_append]
      _ = scanLiteral (.interpolation 0 :: .literal start q :: stack) 0 (offset + (q.escape ++ ['(']).length)
            (inner.text ++ ')' :: (rest.text q ++ (q.closing ++ r))) := scanLiteral_step (List.cons_ne_nil _ _) hstep
      _ = scanLiteral (.interpolation 0 :: .literal start q :: stack) 0
            (offset + (q.escape ++ ['(']).length + inner.text.length)
            ([')'] ++ (rest.text q ++ (q.closing ++ r))) := inner.scanned hinner hd.1 0 _ _ _
      _ = scanLiteral (.literal start q :: stack) 0
            (offset + (q.escape ++ ['(']).length + inner.text.length + 1)
            (rest.text q ++ (q.closing ++ r)) := scanLiteral_step (List.cons_ne_nil _ _) (Frame.step_close _)
      _ = scanLiteral stack 0 (offset + (q.escape ++ ['(']).length + inner.text.length + 1 +
            (rest.text q ++ q.closing).length) r := rest.scanned hrest hd.2 stack start _ r
      _ = scanLiteral stack 0 (offset + ((Content.interpolation inner rest).text q ++ q.closing).length) r := by
          congr 1
          simp only [Content.text, List.length_append, List.length_cons, List.length_nil]
          omega

/-- An interpolation is scanned up to the parenthesis that closes it. -/
theorem Interior.scanned (i : Interior) (hi : i.WellFormed) (hd : i.Distinct) (depth : Nat) (stack : List Frame)
    (offset : Nat) (r : Text) :
    scanLiteral (.interpolation depth :: stack) 0 offset (i.text ++ ')' :: r) =
      scanLiteral (.interpolation depth :: stack) 0 (offset + i.text.length) (')' :: r) := by
  match i with
  | .nil => rfl
  | .char c rest =>
    obtain ⟨ho, hc, hopen, hrest⟩ := hi
    calc scanLiteral (.interpolation depth :: stack) 0 offset ([c] ++ (rest.text ++ ')' :: r))
        = scanLiteral (.interpolation depth :: stack) 0 (offset + 1) (rest.text ++ ')' :: r) :=
          scanLiteral_step (List.cons_ne_nil _ _) (Frame.step_other ho hc (Quoting.opens?_paren hopen r))
      _ = scanLiteral (.interpolation depth :: stack) 0 (offset + 1 + rest.text.length) (')' :: r) :=
          rest.scanned hrest hd depth stack _ r
      _ = scanLiteral (.interpolation depth :: stack) 0 (offset + (Interior.char c rest).text.length) (')' :: r) := by
          simp only [Interior.text, List.length_cons, Nat.add_assoc, Nat.add_comm 1]
  | .parens inner rest =>
    obtain ⟨hinner, hrest⟩ := hi
    calc scanLiteral (.interpolation depth :: stack) 0 offset
          (('(' :: (inner.text ++ ')' :: rest.text)) ++ ')' :: r)
        = scanLiteral (.interpolation depth :: stack) 0 offset
            (['('] ++ (inner.text ++ ')' :: (rest.text ++ ')' :: r))) := by
          simp only [List.append_assoc, List.cons_append, List.nil_append]
      _ = scanLiteral (.interpolation (depth + 1) :: stack) 0 (offset + 1)
            (inner.text ++ ')' :: (rest.text ++ ')' :: r)) :=
          scanLiteral_step (List.cons_ne_nil _ _) (Frame.step_open _)
      _ = scanLiteral (.interpolation (depth + 1) :: stack) 0 (offset + 1 + inner.text.length)
            ([')'] ++ (rest.text ++ ')' :: r)) := inner.scanned hinner hd.1 (depth + 1) stack _ _
      _ = scanLiteral (.interpolation depth :: stack) 0 (offset + 1 + inner.text.length + 1) (rest.text ++ ')' :: r) :=
          scanLiteral_step (List.cons_ne_nil _ _) (Frame.step_close _)
      _ = scanLiteral (.interpolation depth :: stack) 0 (offset + 1 + inner.text.length + 1 + rest.text.length)
            (')' :: r) := rest.scanned hrest hd.2 depth stack _ r
      _ = scanLiteral (.interpolation depth :: stack) 0 (offset + (Interior.parens inner rest).text.length)
            (')' :: r) := by
          congr 1
          simp only [Interior.text, List.length_append, List.length_cons]
          omega
  | .literal q content rest =>
    obtain ⟨hcontent, hrest⟩ := hi
    obtain ⟨hlone, hdistinct, hdistincts⟩ := hd
    calc scanLiteral (.interpolation depth :: stack) 0 offset
          ((q.opening ++ (content.text q ++ (q.closing ++ rest.text))) ++ ')' :: r)
        = scanLiteral (.interpolation depth :: stack) 0 offset
            (q.opening ++ (content.text q ++ (q.closing ++ (rest.text ++ ')' :: r)))) := by
          simp only [List.append_assoc]
      _ = scanLiteral (.literal offset q :: .interpolation depth :: stack) 0 (offset + q.opening.length)
            (content.text q ++ (q.closing ++ (rest.text ++ ')' :: r))) :=
          scanLiteral_step (List.ne_nil_of_length_pos (opening_length_pos q)) (Frame.step_opening (by simpa using hlone.paren r))
      _ = scanLiteral (.interpolation depth :: stack) 0
            (offset + q.opening.length + (content.text q ++ q.closing).length) (rest.text ++ ')' :: r) :=
          content.scanned hcontent hdistinct _ offset _ _
      _ = scanLiteral (.interpolation depth :: stack) 0
            (offset + q.opening.length + (content.text q ++ q.closing).length + rest.text.length) (')' :: r) :=
          rest.scanned hrest hdistincts depth stack _ r
      _ = scanLiteral (.interpolation depth :: stack) 0 (offset + (Interior.literal q content rest).text.length)
            (')' :: r) := by
          congr 1
          simp only [Interior.text, List.length_append]
          omega

end

end Scan

namespace Literal

variable {l : Literal} {r : Text}

theorem opens? (h : l.Distinct r) : Quoting.opens? (l.text ++ r) = some l.quoting := by
  rw [text, List.append_assoc, List.append_assoc]
  exact Quoting.opens?_opening h.1

theorem length (hl : l.WellFormed) (h : l.Distinct r) : literalLength l.quoting (l.text ++ r) = .ok l.text.length := by
  calc literalLength l.quoting (l.text ++ r)
      = scanLiteral [.literal 0 l.quoting] l.quoting.opening.length 0
          (l.quoting.opening ++ (l.content.text l.quoting ++ (l.quoting.closing ++ r))) := by
        simp only [literalLength, text, List.append_assoc]
    _ = scanLiteral [.literal 0 l.quoting] 0 (0 + l.quoting.opening.length)
          (l.content.text l.quoting ++ (l.quoting.closing ++ r)) := scanLiteral_skip _ _ _ _
    _ = scanLiteral [] 0 (0 + l.quoting.opening.length + (l.content.text l.quoting ++ l.quoting.closing).length) r :=
        l.content.scanned hl h.2 [] 0 _ r
    _ = .ok l.text.length := by
        simp only [scanLiteral, text, List.length_append, Nat.zero_add, Nat.add_zero]

end Literal

/-- Every string literal is scanned whole, whatever is nested in it: it is the first token of a text that it
stands in front of, and the other tokens are those of what follows it. -/
theorem tokenize_literal {l : Literal} (hl : l.WellFormed) {r : Text} (h : l.Distinct r) :
    lexeme (l.text ++ r) = .ok (.string, l.text.length) ∧
      tokenize (l.text ++ r) = (tokensFrom (l.text.foldl Place.advance {}) 0 r).map
        (⟨.string, l.text, 1, 0, 0, l.text.length, false, false⟩ :: ·) := by
  have hlexeme := lexeme_of_literal (Literal.opens? h) (Literal.length hl h)
  have hne : l.text ≠ [] := by
    rw [Literal.text]
    exact List.append_ne_nil_of_left_ne_nil (List.ne_nil_of_length_pos (opening_length_pos _)) _
  refine ⟨hlexeme, ?_⟩
  rw [tokenize, tokensFrom_lexeme hne hlexeme, tokenAt, Nat.zero_add]
  rfl

/-- A raw literal that holds a literal of two lines, which holds a literal of one parenthesis; an empty literal
is right behind it. -/
theorem tokenize_literal_nested : ∃ l : Literal,
    l.text = "#\"a\"\\#(f(\"\"\"\n\\(\")\")\"\"\"))\"#".toList ∧ l.WellFormed ∧ l.Distinct ['"', '"'] ∧
      lexeme (l.text ++ ['"', '"']) = .ok (.string, l.text.length) ∧
      tokenize (l.text ++ ['"', '"']) = .ok [⟨.string, l.text, 1, 0, 0, 26, false, false⟩,
        ⟨.string, ['"', '"'], 2, 13, 26, 28, false, false⟩, ⟨.eof, [], 2, 15, 28, 28, false, false⟩] := by
  let inner : Content := .char '\n' (.interpolation (.literal ⟨0, false⟩ (.char ')' .nil) .nil) .nil)
  let l : Literal := ⟨⟨1, false⟩, .char 'a' (.char '"' (.interpolation
    (.char 'f' (.parens (.literal ⟨0, true⟩ inner .nil) .nil)) .nil))⟩
  have hl : l.WellFormed := by
    simp [l, inner, Literal.WellFormed, Content.WellFormed, Interior.WellFormed, Content.text, Interior.text,
      Quoting.closing, Quoting.escape, Quoting.opening, Quoting.quotes, Quoting.poundText, Quoting.opens?_eq_none]
  have hd : l.Distinct ['"', '"'] := by
    simp [l, inner, Literal.Distinct, Content.Distinct, Interior.Distinct, Content.text, Interior.text, Quoting.Lone,
      Quoting.closing, Quoting.escape, Quoting.opening, Quoting.quotes, Quoting.poundText]
  obtain ⟨hlexeme, htokens⟩ := tokenize_literal hl hd
  exact ⟨l, by decide, hl, hd, hlexeme, htokens.trans (by decide +kernel)⟩

end SwiftMacros.Token
