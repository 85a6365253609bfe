import Mathlib
import SwiftMacros.Proofs.Token.Reads

/-! Lines moved sideways. The white space in front of a line can be replaced by another indent: the
text is still read as the same lexemes, except that a lexeme which spans lines has its own lines
moved. -/

namespace SwiftMacros.Token

/-- The second text is the first with other indents for all lines but the first. -/
inductive Relined : Text → Text → Prop
  | nil : Relined [] []
  | char (c : Char) {t u : Text} : Relined t u → Relined (c :: t) (c :: u)
  | line {b g t u : Text} : (∀ c ∈ b, Text.isBlank c = true ∧ c ≠ '\n') →
      (∀ c ∈ g, Text.isIndent c = true) → Relined t u → Relined ('\n' :: (b ++ t)) ('\n' :: (g ++ u))

/-- The second text is the first with other indents for all lines. -/
def Reindented (t u : Text) : Prop :=
  ∃ b g t' u', t = b ++ t' ∧ u = g ++ u' ∧ (∀ c ∈ b, Text.isBlank c = true ∧ c ≠ '\n') ∧
    (∀ c ∈ g, Text.isIndent c = true) ∧ Relined t' u'

/-- The second lexeme is the first with other indents for the lines that it goes on over. -/
def Word.Relined (w w' : Word) : Prop := w.1 = w'.1 ∧ Token.Relined w.2 w'.2

theorem isGap_of_isIndent {c : Char} (h : Text.isIndent c = true) : isGap c = true := by
  simp only [Text.isIndent, Bool.or_eq_true, beq_iff_eq] at h
  rcases h with rfl | rfl <;> decide

theorem isBlank_of_isIndent {c : Char} (h : Text.isIndent c = true) : Text.isBlank c = true :=
  isBlank_of_isGap (isGap_of_isIndent h)

namespace Relined

variable {t u v w x y : Text}

theorem refl (t : Text) : Relined t t := by
  induction t with
  | nil => exact .nil
  | cons c t ih => exact .char c ih

theorem append (h : Relined t u) (h' : Relined v w) : Relined (t ++ v) (u ++ w) := by
  induction h with
  | nil => exact h'
  | char c _ ih => exact .char c ih
  | line hb hg _ ih => simpa using Relined.line hb hg ih

theorem reindented (h : Relined t u) : Reindented t u :=
  ⟨[], [], t, u, rfl, rfl, by simp, by simp, h⟩

/-- Other indents bring in spaces and tabs only. -/
theorem not_mem (h : Relined t u) {c : Char} (hc : Text.isIndent c = false) (ht : c ∉ t) : c ∉ u := by
  induction h with
  | nil => exact ht
  | char d _ ih =>
    simp only [List.mem_cons, not_or] at ht ⊢
    exact ⟨ht.1, ih ht.2⟩
  | @line b g t u _ hg _ ih =>
    simp only [List.mem_cons, List.mem_append, not_or] at ht ⊢
    refine ⟨ht.1, fun hmem => ?_, ih ht.2.2⟩
    rw [hg c hmem] at hc
    cases hc

/-- Two such texts are the same up to a line end, if they differ. -/
theorem split (h : Relined t u) : t = u ∨ ∃ m a b, t = m ++ '\n' :: a ∧ u = m ++ '\n' :: b := by
  induction h with
  | nil => exact .inl rfl
  | char c _ ih =>
    rcases ih with rfl | ⟨m, a, b, rfl, rfl⟩
    · exact .inl rfl
    · exact .inr ⟨c :: m, a, b, rfl, rfl⟩
  | line => exact .inr ⟨[], _, _, rfl, rfl⟩

theorem head?_eq (h : Relined t u) : t.head? = u.head? := by
  cases h <;> rfl

/-- What stands on one line stays as it is. -/
theorem of_line (hx : '\n' ∉ x) (h : Relined (x ++ y) u) : ∃ v, u = x ++ v ∧ Relined y v := by
  induction x generalizing u with
  | nil => exact ⟨u, rfl, h⟩
  | cons c x ih =>
    simp only [List.mem_cons, not_or] at hx
    generalize ht : c :: x ++ y = t at h
    cases h with
    | nil => cases ht
    | char d h =>
      cases ht
      obtain ⟨v, rfl, hv⟩ := ih hx.2 h
      exact ⟨v, rfl, hv⟩
    | line =>
      obtain ⟨rfl, -⟩ := List.cons.inj ht
      exact absurd rfl hx.1

theorem of_front {t : Text} (hx : '\n' ∉ x) (h : Relined t (x ++ u)) :
    ∃ v, t = x ++ v ∧ Relined v u := by
  induction x generalizing t with
  | nil => exact ⟨t, rfl, h⟩
  | cons c x ih =>
    simp only [List.mem_cons, not_or] at hx
    generalize hu : c :: x ++ u = w at h
    cases h with
    | nil => cases hu
    | char _ h =>
      cases hu
      obtain ⟨v, rfl, hv⟩ := ih hx.2 h
      exact ⟨v, rfl, hv⟩
    | line =>
      obtain ⟨rfl, -⟩ := List.cons.inj hu
      exact absurd rfl hx.1

theorem eq_of_line (hx : '\n' ∉ x) (h : Relined x u) : u = x := by
  obtain ⟨v, rfl, hv⟩ := of_line (y := []) hx (by simpa using h)
  cases hv
  exact List.append_nil x

theorem of_newline (h : Relined ('\n' :: y) u) : ∃ v, u = '\n' :: v ∧ Reindented y v := by
  generalize ht : '\n' :: y = t at h
  cases h with
  | nil => cases ht
  | char _ h =>
    cases ht
    exact ⟨_, rfl, h.reindented⟩
  | line hb hg h =>
    rw [List.cons.injEq] at ht
    exact ⟨_, rfl, _, _, _, _, ht.2, rfl, hb, hg, h⟩

theorem trans (h : Relined t u) (h' : Relined u v) : Relined t v := by
  -- white space that is replaced next was there at first if it is there now
  have hfront : ∀ {b t u w : Text}, (∀ c ∈ b, Text.isBlank c = true ∧ c ≠ '\n') → Relined t (b ++ u) →
      (∀ v, Relined (b ++ u) v → Relined t v) → Relined u w → ∃ t', t = b ++ t' ∧ Relined t' w := by
    intro b t u w hb ht ih hw
    have hline : '\n' ∉ b := fun hmem => (hb _ hmem).2 rfl
    obtain ⟨t', rfl, -⟩ := ht.of_front hline
    obtain ⟨v, hv, ht'⟩ := (ih _ ((refl b).append hw)).of_line hline
    obtain rfl := List.append_cancel_left hv
    exact ⟨t', rfl, ht'⟩
  induction h generalizing v with
  | nil => exact h'
  | @char c t u h ih =>
    by_cases hc : c = '\n'
    · subst hc
      obtain ⟨w, rfl, b, g, u', w', rfl, rfl, hb, hg, hw⟩ := h'.of_newline
      obtain ⟨t', rfl, ht⟩ := hfront hb h (fun _ => ih) hw
      exact .line hb hg ht
    · obtain ⟨w, rfl, hw⟩ := of_line (x := [c]) (by simpa using Ne.symm hc) h'
      exact .char c (ih hw)
  | @line b g t u hb hg h ih =>
    obtain ⟨w, rfl, b', g', u', w', heq, rfl, hb', hg', hw⟩ := h'.of_newline
    rcases List.append_eq_append_iff.mp heq with ⟨e, rfl, rfl⟩ | ⟨e, rfl, rfl⟩
    · obtain ⟨t', rfl, ht⟩ := hfront (fun c hc => hb' c (by simp [hc])) h (fun _ => ih) hw
      rw [← List.append_assoc]
      exact .line (List.forall_mem_append.mpr ⟨hb, fun c hc => hb' c (by simp [hc])⟩) hg' ht
    · obtain ⟨v, rfl, hv⟩ := hw.of_line fun hmem => by cases hg _ (List.mem_append_right b' hmem)
      rw [← List.append_assoc]
      exact .line hb (List.forall_mem_append.mpr ⟨hg', fun c hc => hg c (by simp [hc])⟩) (ih hv)

/-- Behind a character that is not white space a text can be cut. -/
theorem of_solid (hx : ∀ c ∈ x.getLast?, Text.isBlank c = false) (h : Relined (x ++ y) u) :
    ∃ x' y', u = x' ++ y' ∧ Relined x x' ∧ Relined y y' := by
  generalize ht : x ++ y = t at h
  induction h generalizing x with
  | nil =>
    obtain ⟨rfl, rfl⟩ := List.append_eq_nil_iff.mp ht
    exact ⟨[], [], rfl, .nil, .nil⟩
  | @char c t u h ih =>
    cases x with
    | nil =>
      rw [List.nil_append] at ht
      exact ⟨[], c :: u, rfl, .nil, ht ▸ .char c h⟩
    | cons d x =>
      obtain ⟨rfl, rfl⟩ := List.cons.inj ht
      have hlast : ∀ e ∈ x.getLast?, Text.isBlank e = false := by
        intro e he
        refine hx e ?_
        rw [List.getLast?_cons_of_ne_nil (by rintro rfl; simp at he)]
        exact he
      obtain ⟨x', y', rfl, hx', hy'⟩ := ih hlast rfl
      exact ⟨d :: x', y', rfl, .char d hx', hy'⟩
  | @line b g t u hb hg h ih =>
    cases x with
    | nil =>
      rw [List.nil_append] at ht
      exact ⟨[], _, rfl, .nil, ht ▸ .line hb hg h⟩
    | cons d x =>
      rw [List.cons_append, List.cons.injEq] at ht
      obtain ⟨rfl, ht⟩ := ht
      rcases List.append_eq_append_iff.mp ht with ⟨b', rfl, rfl⟩ | ⟨x', rfl, rfl⟩
      · -- the part in front ends within the white space
        rcases List.eq_nil_or_concat b' with rfl | ⟨b', e, rfl⟩
        · simp only [List.append_nil, List.nil_append] at *
          refine ⟨'\n' :: g, u, rfl, ?_, h⟩
          simpa using Relined.line hb hg .nil
        · have hlast : ∃ e, ('\n' :: x).getLast? = some e ∧ Text.isBlank e = true := by
            rcases List.eq_nil_or_concat x with rfl | ⟨x, e, rfl⟩
            · exact ⟨'\n', rfl, by decide⟩
            · rw [List.concat_eq_append]
              exact ⟨e, by rw [← List.cons_append, List.getLast?_concat], (hb e (by simp)).1⟩
          obtain ⟨e, he, hblank⟩ := hlast
          simp [hx e he] at hblank
      · have hlast : ∀ e ∈ x'.getLast?, Text.isBlank e = false := by
          intro e he
          refine hx e ?_
          rw [← List.cons_append, List.getLast?_append_of_ne_nil _ (by rintro rfl; simp at he)]
          exact he
        obtain ⟨x'', y', rfl, hx'', hy'⟩ := ih hlast rfl
        exact ⟨'\n' :: (g ++ x''), y', by simp, .line hb hg hx'', hy'⟩

end Relined

theorem Reindented.not_mem {t u : Text} (h : Reindented t u) {c : Char}
    (hc : Text.isIndent c = false) (ht : c ∉ t) : c ∉ u := by
  obtain ⟨b, g, t, u, rfl, rfl, -, hg, h⟩ := h
  simp only [List.mem_append, not_or] at ht ⊢
  refine ⟨fun hmem => ?_, h.not_mem hc ht.2⟩
  rw [hg c hmem] at hc
  cases hc

/-- A relation between texts and the same texts with other indents that can be followed piece by piece:
along a line, past a line end, and behind a character that is not white space. -/
structure Mover (S : Text → Text → Prop) : Prop where
  relined {t u : Text} : S t u → Relined t u
  /-- What stands on one line stays as it is. -/
  of_line {x y u : Text} : '\n' ∉ x → S (x ++ y) u → ∃ v, u = x ++ v ∧ S y v
  line {x t u : Text} : '\n' ∉ x → S t u → S (x ++ t) (x ++ u)
  /-- Behind a line end some white space is replaced. -/
  of_newline {y u : Text} : S ('\n' :: y) u → ∃ b g t v, y = b ++ t ∧ u = '\n' :: (g ++ v) ∧
    (∀ c ∈ b, Text.isBlank c = true ∧ c ≠ '\n') ∧ (∀ c ∈ g, Text.isIndent c = true) ∧ S t v
  newline {t u : Text} : S t u → S (t ++ ['\n']) (u ++ ['\n'])
  /-- Behind a character that is not white space a text can be cut. -/
  of_solid {x y u : Text} : (∀ c ∈ x.getLast?, Text.isBlank c = false) → S (x ++ y) u →
    ∃ x' y', u = x' ++ y' ∧ S x x' ∧ S y y'

theorem Relined.mover : Mover Relined where
  relined h := h
  of_line := Relined.of_line
  line _ h := (Relined.refl _).append h
  of_newline h := by
    obtain ⟨v, rfl, b, g, t, v, rfl, rfl, hb, hg, h⟩ := Relined.of_newline h
    exact ⟨b, g, t, v, rfl, rfl, hb, hg, h⟩
  newline h := h.append (.refl ['\n'])
  of_solid := Relined.of_solid

section Comments

theorem scanComment_other {c : Char} (hopen : c ≠ '/') (hclose : c ≠ '*') (depth offset : Nat)
    (t : Text) : scanComment (depth + 1) 0 offset (c :: t) =
      scanComment (depth + 1) 0 (offset + 1) t := by
  cases t with
  | nil => simp [scanComment]
  | cons e t => rw [scanComment_pair, if_neg (by simp [hopen]), if_neg (by simp [hclose])]

theorem scanComment_blanks {b : Text} (hb : ∀ c ∈ b, Text.isBlank c = true) (depth offset : Nat)
    (t : Text) : scanComment (depth + 1) 0 offset (b ++ t) =
      scanComment (depth + 1) 0 (offset + b.length) t := by
  induction b generalizing offset with
  | nil => rfl
  | cons c b ih =>
    have hne : ∀ d, Text.isBlank d = false → c ≠ d := by
      rintro d hd rfl
      simp [hb] at hd
    rw [List.cons_append, scanComment_other (hne _ (by decide)) (hne _ (by decide)),
      ih fun d hd => hb d (by simp [hd])]
    congr 1
    simp only [List.length_cons]
    omega

/-- A comment is scanned in the same way when its lines are moved. What is skipped is the second
character of a delimiter. -/
theorem Relined.scanComment {x x' r r' : Text} (h : Relined x x') {depth skip offset offset' : Nat}
    (hskip : skip = 0 ∨ skip = 1 ∧ x.head? ≠ some '\n')
    (hscan : scanComment depth skip offset (x ++ r) = some (offset + x.length)) :
    scanComment depth skip offset' (x' ++ r') = some (offset' + x'.length) := by
  induction h generalizing depth skip offset offset' with
  | nil =>
    cases depth with
    | zero => simpa [Token.scanComment] using hscan
    | succ d =>
      have := scanComment_lt hscan
      simp only [List.length_nil] at this
      omega
  | @char c t u h ih =>
    have hnext : offset + (c :: t).length = offset + 1 + t.length := by
      simp only [List.length_cons]
      omega
    have hnext' : offset' + (c :: u).length = offset' + 1 + u.length := by
      simp only [List.length_cons]
      omega
    cases depth with
    | zero =>
      simp only [Token.scanComment, Option.some.injEq, List.length_cons] at hscan ⊢
      have ht : t = [] := List.length_eq_zero_iff.mp (by omega)
      subst ht
      cases h
      simp only [List.length_nil] at *
      omega
    | succ d =>
      rw [hnext] at hscan
      rw [hnext']
      rcases hskip with rfl | ⟨rfl, -⟩
      · cases t with
        | nil =>
          simp only [List.cons_append, List.nil_append, Token.scanComment, List.length_nil] at hscan
          split at hscan <;> have := scanComment_lt hscan <;> omega
        | cons e t =>
          obtain ⟨u, rfl⟩ := List.head?_eq_some_iff.mp h.head?_eq.symm
          simp only [List.cons_append, scanComment_pair] at hscan ⊢
          split_ifs at hscan ⊢ with hopen hclose
          · exact ih (.inr ⟨rfl, by simp [hopen.2]⟩) hscan
          · exact ih (.inr ⟨rfl, by simp [hclose.2]⟩) hscan
          · exact ih (.inl rfl) hscan
      · simp only [List.cons_append, Token.scanComment] at hscan ⊢
        exact ih (.inl rfl) hscan
  | @line b g t u hb hg h ih =>
    obtain rfl : skip = 0 := by simpa using hskip
    cases depth with
    | zero => simp [Token.scanComment] at hscan
    | succ d =>
      have hb' : ∀ c ∈ b, Text.isBlank c = true := fun c hc => (hb c hc).1
      have hg' : ∀ c ∈ g, Text.isBlank c = true := fun c hc => isBlank_of_isIndent (hg c hc)
      rw [List.cons_append, List.append_assoc, scanComment_other (by decide) (by decide),
        scanComment_blanks hb'] at hscan
      have hrest : Token.scanComment (d + 1) 0 (offset + 1 + b.length) (t ++ r) =
          some (offset + 1 + b.length + t.length) := by
        rw [hscan]
        simp only [List.length_cons, List.length_append, Option.some.injEq]
        omega
      rw [List.cons_append, List.append_assoc, scanComment_other (by decide) (by decide),
        scanComment_blanks hg', ih (.inl rfl) hrest]
      simp only [List.length_cons, List.length_append, Option.some.injEq]
      omega

theorem Relined.commentLength {x x' r r' : Text} (h : Relined x x') (hopen : blockOpen <+: x)
    (hscan : commentLength? (x ++ r) = some x.length) :
    blockOpen <+: x' ∧ commentLength? (x' ++ r') = some x'.length := by
  obtain ⟨y, rfl⟩ := hopen
  obtain ⟨z, rfl, hz⟩ := Relined.of_line (by decide) h
  refine ⟨List.prefix_append _ _, ?_⟩
  have hskip : ∀ u : Text, commentLength? (blockOpen ++ u) = Token.scanComment 1 0 2 u := fun u => rfl
  rw [List.append_assoc, hskip] at hscan ⊢
  have hrest : Token.scanComment 1 0 2 (y ++ r) = some (2 + y.length) := by
    rw [hscan]
    simp only [blockOpen, List.length_append, List.length_cons, List.length_nil]
  rw [hz.scanComment (.inl rfl) hrest]
  simp only [blockOpen, List.length_append, List.length_cons, List.length_nil]

end Comments

section Literals

theorem isPrefixOf_line {w : Text} (hw : '\n' ∉ w) (m a b : Text) :
    w.isPrefixOf (m ++ '\n' :: a) = w.isPrefixOf (m ++ '\n' :: b) := by
  induction w generalizing m with
  | nil => rfl
  | cons c w ih =>
    simp only [List.mem_cons, not_or] at hw
    cases m with
    | nil =>
      have hc : (c == '\n') = false := by simpa using Ne.symm hw.1
      simp only [List.nil_append, List.isPrefixOf, hc, Bool.false_and]
    | cons d m => simp only [List.cons_append, List.isPrefixOf, ih hw.2]

/-- Whether a literal is opened is told by the line. -/
theorem Quoting.opens?_line (m a b : Text) :
    opens? (m ++ '\n' :: a) = opens? (m ++ '\n' :: b) := by
  induction m with
  | nil => simp only [List.nil_append, opens?_eq_none (c := '\n') (by decide) (by decide)]
  | cons c m ih =>
    by_cases hp : c = '#'
    · subst hp
      simp only [List.cons_append, opens?_pound, ih]
    · by_cases hq : c = '"'
      · subst hq
        simp only [List.cons_append, opens?_quote, isPrefixOf_line (w := ['"', '"']) (by decide) m a b]
      · simp only [List.cons_append, opens?_eq_none hp hq]

theorem Quoting.newline_not_mem (q : Quoting) :
    '\n' ∉ q.opening ∧ '\n' ∉ q.closing ∧ '\n' ∉ q.escape := by
  have hquotes : '\n' ∉ q.quotes := by
    rw [quotes]
    split <;> decide
  have hpounds : '\n' ∉ q.poundText := fun h => by simpa using List.eq_of_mem_replicate h
  simp [opening, closing, escape, hquotes, hpounds]

/-- What the front of a text does to the open frames is told by the line. -/
theorem Frame.step_line (top : Frame) (rest : List Frame) (offset : Nat) (m a b : Text) :
    top.step rest offset (m ++ '\n' :: a) = top.step rest offset (m ++ '\n' :: b) := by
  have hhead : ∀ m : Text, (m ++ '\n' :: a).head? = (m ++ '\n' :: b).head? := fun m => by
    cases m <;> rfl
  cases top with
  | interpolation depth => simp only [step, Quoting.opens?_line m a b, hhead]
  | literal start q =>
    obtain ⟨-, hclosing, hescape⟩ := q.newline_not_mem
    have hdrop : q.escape.isPrefixOf (m ++ '\n' :: a) = true →
        ((m ++ '\n' :: a).drop q.escape.length).head? =
          ((m ++ '\n' :: b).drop q.escape.length).head? := by
      intro hp
      have hle : q.escape.length ≤ m.length := by
        by_contra hlt
        obtain ⟨s, hs⟩ := List.isPrefixOf_iff_prefix.mp hp
        have hget : (q.escape ++ s)[m.length]? = some '\n' := by simp [hs]
        rw [List.getElem?_append_left (by omega)] at hget
        exact hescape (List.mem_of_getElem? hget)
      rw [List.drop_append_of_le_length hle, List.drop_append_of_le_length hle, hhead]
    simp only [step, hhead m, isPrefixOf_line hclosing m a b]
    cases hp : q.escape.isPrefixOf (m ++ '\n' :: b) with
    | false => simp only [isPrefixOf_line hescape m a b, hp, Bool.false_eq_true, if_false]
    | true =>
      have hp' := (isPrefixOf_line hescape m a b).trans hp
      simp only [hp', hdrop hp']

/-- A frame without the place that an error would name. -/
def Frame.plain : Frame → Frame
  | .literal _ q => .literal 0 q
  | f => f

/-- Apart from the places that errors name, a step is told by the frames. -/
theorem Frame.step_plain {top top' : Frame} {rest rest' stack : List Frame} {offset k : Nat}
    {t : Text} (htop : top.plain = top'.plain) (hrest : rest.map plain = rest'.map plain)
    (h : top.step rest offset t = .ok (stack, k)) (offset' : Nat) :
    ∃ stack', top'.step rest' offset' t = .ok (stack', k) ∧ stack.map plain = stack'.map plain := by
  cases top with
  | literal start q =>
    cases top' with
    | interpolation => cases htop
    | literal start' q' =>
      obtain rfl : q = q' := by simpa [plain] using htop
      simp only [step] at h ⊢
      by_cases hclosing : q.closing.isPrefixOf t = true
      · simp only [hclosing, if_true] at h ⊢
        cases h
        exact ⟨rest', rfl, hrest⟩
      by_cases hline : t.head? = some '\n' ∧ (!q.multiline) = true
      · simp only [hclosing, hline, and_self, if_true] at h
        cases h
      by_cases hescape : q.escape.isPrefixOf t = true
      · by_cases hparen : (t.drop q.escape.length).head? = some '('
        all_goals
          simp only [hclosing, hline, hescape, hparen, if_true, if_false] at h ⊢
          cases h
          exact ⟨_, rfl, by simp [plain, hrest]⟩
      · simp only [hclosing, hline, hescape, if_false] at h ⊢
        cases h
        exact ⟨_, rfl, by simp [plain, hrest]⟩
  | interpolation depth =>
    cases top' with
    | literal => cases htop
    | interpolation depth' =>
      obtain rfl : depth = depth' := by simpa [plain] using htop
      simp only [step] at h ⊢
      cases hq : Quoting.opens? t with
      | some q =>
        simp only [hq] at h
        cases h
        exact ⟨_, rfl, by simp [plain, hrest]⟩
      | none =>
        simp only [hq] at h
        split at h <;> cases h <;> exact ⟨_, rfl, by simp [plain, hrest]⟩

/-- White space within a line closes and opens nothing. -/
theorem scanLiteral_blanks {b : Text} (hb : ∀ c ∈ b, Text.isBlank c = true ∧ c ≠ '\n') (top : Frame)
    (rest : List Frame) (offset : Nat) (t : Text) : scanLiteral (top :: rest) 0 offset (b ++ t) =
      scanLiteral (top :: rest) 0 (offset + b.length) t := by
  induction b generalizing offset with
  | nil => rfl
  | cons c b ih =>
    obtain ⟨hblank, hline⟩ := hb c (by simp)
    have hne : ∀ d, Text.isBlank d = false → c ≠ d := by
      rintro d hd rfl
      simp [hblank] at hd
    have hstep : top.step rest offset (c :: (b ++ t)) = .ok (top :: rest, 1) := by
      cases top with
      | interpolation depth =>
        simp only [Frame.step, Quoting.opens?_eq_none (hne '#' (by decide)) (hne '"' (by decide)),
          List.head?_cons]
        have h1 := hne '(' (by decide)
        have h2 := hne ')' (by decide)
        split <;> simp_all
      | literal start q =>
        have hclosing : q.closing.isPrefixOf (c :: (b ++ t)) = false := by
          have hquote := hne '"' (by decide)
          cases h : q.multiline <;>
            simp [Quoting.closing, Quoting.quotes, h, List.isPrefixOf, Ne.symm hquote]
        have hescape : q.escape.isPrefixOf (c :: (b ++ t)) = false := by
          simp [Quoting.escape, List.isPrefixOf, Ne.symm (hne '\\' (by decide))]
        simp [Frame.step, hclosing, hescape, hline]
    rw [List.cons_append, scanLiteral, hstep]
    simp only [Nat.sub_self]
    rw [ih fun d hd => hb d (by simp [hd])]
    congr 1
    simp only [List.length_cons]
    omega

/-- A step takes no line end, except as the character behind an escape. -/
theorem Frame.step_newline {top : Frame} {rest stack : List Frame} {offset k : Nat} {t : Text}
    (h : top.step rest offset t = .ok (stack, k)) :
    '\n' ∉ t.take (k - 1) ∧ (stack = [] → '\n' ∉ t.take k) := by
  have hfront : ∀ {w : Text} {n : Nat}, w <+: t → '\n' ∉ w → n ≤ w.length → '\n' ∉ t.take n := by
    rintro w n ⟨s, rfl⟩ hw hn hmem
    rw [List.take_append_of_le_length hn] at hmem
    exact hw (List.mem_of_mem_take hmem)
  cases top with
  | literal start q =>
    obtain ⟨-, hclosing, hescape⟩ := q.newline_not_mem
    simp only [step] at h
    split at h
    · rename_i hp
      cases h
      have hp := List.isPrefixOf_iff_prefix.mp hp
      exact ⟨hfront hp hclosing (Nat.sub_le _ 1), fun _ => hfront hp hclosing le_rfl⟩
    · split at h
      · cases h
      · split at h
        · rename_i hp
          have hp := List.isPrefixOf_iff_prefix.mp hp
          split at h <;> cases h <;> exact ⟨hfront hp hescape (by omega), by simp⟩
        · cases h
          simp
  | interpolation depth =>
    simp only [step] at h
    cases hq : Quoting.opens? t with
    | some q =>
      simp only [hq] at h
      cases h
      obtain ⟨hopening, -, -⟩ := q.newline_not_mem
      exact ⟨hfront (Quoting.opens?_prefix hq) hopening (Nat.sub_le _ 1), by simp⟩
    | none =>
      simp only [hq] at h
      split at h <;> cases h <;> try simp
      -- only the closing parenthesis can close the last frame
      rename_i hhead
      obtain ⟨u, rfl⟩ := List.head?_eq_some_iff.mp hhead
      simp

/-- A line end that is allowed changes nothing. -/
theorem Frame.step_at_newline {top : Frame} {rest stack : List Frame} {offset k : Nat} {t : Text}
    (h : top.step rest offset ('\n' :: t) = .ok (stack, k)) : stack = top :: rest ∧ k = 1 := by
  cases top with
  | literal start q =>
    have hclosing : q.closing.isPrefixOf ('\n' :: t) = false := by
      cases h : q.multiline <;> simp [Quoting.closing, Quoting.quotes, h, List.isPrefixOf]
    have hescape : q.escape.isPrefixOf ('\n' :: t) = false := by
      simp [Quoting.escape, List.isPrefixOf]
    simp only [step, hclosing, hescape, Bool.false_eq_true, if_false] at h
    split at h <;> cases h
    exact ⟨rfl, rfl⟩
  | interpolation depth =>
    simp only [step, Quoting.opens?_eq_none (c := '\n') (by decide) (by decide), List.head?_cons] at h
    split at h <;> cases h <;> simp_all

/-- A literal is scanned in the same way when its lines are moved. -/
theorem Relined.scanLiteral {x x' r : Text} (h : Relined x x') {stack stack' : List Frame}
    {skip offset offset' : Nat} (hstack : stack.map Frame.plain = stack'.map Frame.plain)
    (hskip : '\n' ∉ x.take (skip - 1)) (hend : stack = [] → '\n' ∉ x.take skip)
    (hscan : scanLiteral stack skip offset (x ++ r) = .ok (offset + x.length)) :
    scanLiteral stack' skip offset' (x' ++ r) = .ok (offset' + x'.length) := by
  induction h generalizing stack stack' skip offset offset' with
  | nil =>
    cases stack with
    | nil =>
      obtain rfl : stack' = [] := by simpa using hstack.symm
      simpa [Token.scanLiteral] using hscan
    | cons top rest =>
      have := scanLiteral_needs hscan
      have := needs_cons_pos top rest
      simp only [List.length_nil] at *
      omega
  | @char c t u h ih =>
    have hnext : offset + (c :: t).length = offset + 1 + t.length := by
      simp only [List.length_cons]
      omega
    have hnext' : offset' + (c :: u).length = offset' + 1 + u.length := by
      simp only [List.length_cons]
      omega
    cases stack with
    | nil =>
      obtain rfl : stack' = [] := by simpa using hstack.symm
      simp only [Token.scanLiteral, Except.ok.injEq] at hscan ⊢
      have hlen : skip = (c :: t).length := by omega
      rw [hlen, List.take_length] at hend
      obtain rfl := List.cons.inj ((Relined.char c h).eq_of_line (hend rfl)) |>.2
      omega
    | cons top rest =>
      obtain ⟨top', rest', rfl⟩ : ∃ top' rest', stack' = top' :: rest' := by
        cases stack' with
        | nil => simp at hstack
        | cons top' rest' => exact ⟨top', rest', rfl⟩
      simp only [List.map_cons, List.cons.injEq] at hstack
      rw [hnext] at hscan
      rw [hnext']
      cases skip with
      | succ s =>
        simp only [List.cons_append, Token.scanLiteral] at hscan ⊢
        refine ih (by simpa using hstack) ?_ (by simp) hscan
        cases s with
        | zero => simp
        | succ s =>
          intro hmem
          exact hskip (by simpa using .inr hmem)
      | zero =>
        simp only [List.cons_append, Token.scanLiteral] at hscan ⊢
        cases hstep : top.step rest offset (c :: (t ++ r)) with
        | error e => simp [hstep] at hscan
        | ok next =>
          obtain ⟨stack₁, k⟩ := next
          simp only [hstep] at hscan
          have hline : top.step rest offset (c :: (u ++ r)) = .ok (stack₁, k) := by
            rw [← hstep]
            rcases (Relined.char c h).split with heq | ⟨m, a, b, ht, hu⟩
            · rw [(List.cons.inj heq).2]
            · rw [← List.cons_append, ← List.cons_append, ht, hu, List.append_assoc,
                List.append_assoc]
              exact (Frame.step_line top rest offset m (a ++ r) (b ++ r)).symm
          obtain ⟨stack₂, hstep₂, hplain⟩ := Frame.step_plain hstack.1 hstack.2 hline offset'
          simp only [hstep₂]
          obtain ⟨hk, hk'⟩ := Frame.step_newline hstep
          have hmore : ∀ n, '\n' ∈ t.take (n - 1) → '\n' ∈ (c :: (t ++ r)).take n := by
            intro n hmem
            cases n with
            | zero => simp at hmem
            | succ n =>
              rw [List.take_succ_cons, List.take_append]
              exact List.mem_cons_of_mem _ (List.mem_append_left _ hmem)
          exact ih hplain (fun hmem => hk (hmore _ hmem)) (fun hnil hmem => hk' hnil (hmore _ hmem))
            hscan
  | @line b g t u hb hg h ih =>
    have hg' : ∀ c ∈ g, Text.isBlank c = true ∧ c ≠ '\n' := fun c hc =>
      ⟨isBlank_of_isIndent (hg c hc), by rintro rfl; simpa [Text.isIndent] using hg _ hc⟩
    cases stack with
    | nil =>
      simp only [Token.scanLiteral, Except.ok.injEq] at hscan
      have hlen : skip = ('\n' :: (b ++ t)).length := by omega
      rw [hlen, List.take_length] at hend
      exact absurd (List.mem_cons_self ..) (hend rfl)
    | cons top rest =>
      obtain ⟨top', rest', rfl⟩ : ∃ top' rest', stack' = top' :: rest' := by
        cases stack' with
        | nil => simp at hstack
        | cons top' rest' => exact ⟨top', rest', rfl⟩
      -- once the line end has been passed, nothing is left to skip
      have hrest : Token.scanLiteral (top :: rest) 0 (offset + 1) (b ++ (t ++ r)) =
            .ok (offset + 1 + b.length + t.length) →
          Token.scanLiteral (top' :: rest') 0 (offset' + 1) (g ++ (u ++ r)) =
            .ok (offset' + 1 + g.length + u.length) := by
        intro hscan
        rw [scanLiteral_blanks hb] at hscan
        rw [scanLiteral_blanks hg']
        exact ih hstack (by simp) (by simp) hscan
      have hnext : offset + ('\n' :: (b ++ t)).length = offset + 1 + b.length + t.length := by
        simp only [List.length_cons, List.length_append]
        omega
      have hnext' : offset' + ('\n' :: (g ++ u)).length = offset' + 1 + g.length + u.length := by
        simp only [List.length_cons, List.length_append]
        omega
      rw [hnext] at hscan
      rw [hnext']
      simp only [List.map_cons, List.cons.injEq] at hstack
      cases skip with
      | succ s =>
        obtain rfl : s = 0 := by
          by_contra hs
          obtain ⟨s', rfl⟩ := Nat.exists_eq_succ_of_ne_zero hs
          simp at hskip
        simp only [List.cons_append, List.append_assoc, Token.scanLiteral] at hscan ⊢
        exact hrest hscan
      | zero =>
        simp only [List.cons_append, List.append_assoc, Token.scanLiteral] at hscan ⊢
        cases hstep : top.step rest offset ('\n' :: (b ++ (t ++ r))) with
        | error e => simp [hstep] at hscan
        | ok next =>
          obtain ⟨stack₁, k⟩ := next
          obtain ⟨rfl, rfl⟩ := Frame.step_at_newline hstep
          simp only [hstep] at hscan
          have hline : top.step rest offset ('\n' :: (g ++ (u ++ r))) = .ok (top :: rest, 1) := by
            rw [← hstep]
            exact Frame.step_line top rest offset [] _ _
          obtain ⟨stack₂, hstep₂, -⟩ := Frame.step_plain hstack.1 hstack.2 hline offset'
          obtain ⟨rfl, -⟩ := Frame.step_at_newline hstep₂
          simp only [hstep₂]
          exact hrest hscan

end Literals

section Lexemes

variable {x x' r : Text} {k : Kind}

/-- Apart from literals and comments, no lexeme goes on over a line end. -/
theorem simpleLexeme_line (h : simpleLexeme? (x ++ r) = some (k, x.length))
    (hk : k.isTrivia = false) : '\n' ∉ x := by
  intro hmem
  obtain ⟨m, a, rfl⟩ := List.append_of_mem hmem
  cases m with
  | nil =>
    obtain ⟨hgap, -⟩ := simpleLexeme_significant (t := a ++ r) h hk
    cases hgap
  | cons d m =>
    obtain ⟨hgap, hline⟩ := simpleLexeme_significant (t := m ++ '\n' :: a ++ r) h hk
    by_cases hd : d = '`'
    · subst hd
      have hb := (simpleLexeme_backquote h).2
      have hrun := runLength_stop (p := fun c => c ≠ '`' && c ≠ '\n') (r := '\n' :: (a ++ r))
        (by simp) m
      have hle := runLength_le (p := fun c => c ≠ '`' && c ≠ '\n') m
      change backquotedLength? ('`' :: (m ++ '\n' :: a ++ r)) = _ at hb
      rw [List.append_assoc, List.cons_append] at hb
      simp only [backquotedLength?, hrun, Option.ite_none_right_eq_some, Option.some.injEq,
        List.length_append, List.length_cons] at hb
      obtain ⟨⟨-, hclose⟩, hlen⟩ := hb
      have hall : runLength (fun c => c ≠ '`' && c ≠ '\n') m = m.length := by omega
      rw [hall, List.drop_left] at hclose
      cases hclose
    · change simpleLexeme? (d :: (m ++ '\n' :: a ++ r)) = _ at h
      rw [simpleLexeme_eq hgap hd hline] at h
      have hstop := firstOf_stop local_openClasses (x := d :: m) (r := '\n' :: (a ++ r)) (by simp)
        ((stops_cons (by decide)).apart _)
      rw [List.append_assoc, List.cons_append, ← List.cons_append, hstop] at h
      have := (firstOf_le local_openClasses h).2
      simp only [List.length_append, List.length_cons] at this
      omega

/-- A significant lexeme stays one when its lines are moved. -/
theorem Relined.lexeme (h : Relined x x') (hl : lexeme (x ++ r) = .ok (k, x.length))
    (hk : k.isTrivia = false) : Token.lexeme (x' ++ r) = .ok (k, x'.length) := by
  rcases lexeme_cases hl with ⟨q, hq, rfl, hlit⟩ | ⟨-, -, hc, -⟩ | ⟨-, -, hs⟩
  · have hq' : Quoting.opens? (x' ++ r) = some q := by
      rcases h.split with rfl | ⟨m, a, b, rfl, rfl⟩
      · exact hq
      · rw [List.append_assoc, List.cons_append] at hq ⊢
        rw [← hq]
        exact Quoting.opens?_line m _ _
    refine lexeme_of_literal hq' ?_
    have hpre := (Quoting.opens?_prefix hq)
    have hbounds := literalLength_bounds hlit
    have hopening : '\n' ∉ x.take q.opening.length := by
      have := List.prefix_of_prefix_length_le hpre (List.prefix_append x r) (by omega)
      rw [List.prefix_iff_eq_take.mp this |>.symm]
      exact q.newline_not_mem.1
    have hskip : '\n' ∉ x.take (q.opening.length - 1) := fun hmem =>
      hopening ((List.take_subset_take_left x (Nat.sub_le _ 1)) hmem)
    have hliteral : Token.scanLiteral [.literal 0 q] q.opening.length 0 (x ++ r) =
        .ok (0 + x.length) := by
      simpa [literalLength] using hlit
    have hscan : Token.scanLiteral [.literal 0 q] q.opening.length 0 (x' ++ r) =
        .ok (0 + x'.length) := h.scanLiteral rfl hskip (by simp) hliteral
    simpa [literalLength] using hscan
  · exact absurd hc (not_comment_of_significant hk)
  · rw [h.eq_of_line (simpleLexeme_line hs hk)]
    exact hl

end Lexemes

namespace Chunk

variable {x u u' r : Text} {a : List Word}

/-- A chunk that starts with white space is a gap. -/
theorem gap_of_blank {c : Char} (h : Chunk (c :: x) a r) (hc : Text.isBlank c = true) :
    isGap c = true := by
  generalize hx : c :: x = y at h
  cases h with
  | gap hg =>
    cases hx
    exact hg
  | lineComment =>
    obtain ⟨rfl, -⟩ := List.cons.inj hx
    cases hc
  | blockComment hp =>
    obtain ⟨z, rfl⟩ := hp
    obtain ⟨rfl, -⟩ := List.cons.inj hx
    cases hc
  | lexeme hl hk =>
    subst hx
    simp [lexeme_first (t := x ++ r) hl hk] at hc

/-- A chunk stands if the lines behind it are moved. -/
theorem relined (h : Chunk x a (u ++ r)) (hu : Relined u u') : Chunk x a (u' ++ r) := by
  rcases hu.split with rfl | ⟨m, y, z, rfl, rfl⟩
  · exact h
  · rw [List.append_assoc] at h ⊢
    exact h.append (.inl ((stops_cons (by decide)).apart _)) (by simp)

end Chunk

namespace Reads

variable {t x x' r : Text} {ls : List Word}

/-- White space in front of what is read is made of gaps, and can be left out. -/
theorem drop_blanks {b u : Text} (hb : ∀ c ∈ b, Text.isBlank c = true) (h : Reads (b ++ u) ls r)
    (hr : r.length ≤ u.length) : (∀ c ∈ b, isGap c = true) ∧ Reads u ls r := by
  induction b with
  | nil => exact ⟨by simp, h⟩
  | cons c b ih =>
    have hlt : r.length < (c :: b ++ u).length := by
      simp only [List.length_append, List.length_cons]
      omega
    have hgap : isGap c = true := by
      generalize ht : c :: b ++ u = t at h hlt
      cases h with
      | done => omega
      | @chunk x v _ a ms hc hrest =>
        obtain ⟨d, x, rfl⟩ := List.exists_cons_of_ne_nil hc.ne_nil
        obtain ⟨rfl, -⟩ := List.cons.inj ht
        exact hc.gap_of_blank (hb c (by simp))
    have hne : r ≠ c :: (b ++ u) := by
      rintro rfl
      exact absurd hlt (lt_irrefl _)
    obtain ⟨hgaps, hread⟩ := ih (fun d hd => hb d (by simp [hd])) (of_gap_cons hgap h hne)
    exact ⟨by simpa [hgap] using hgaps, hread⟩

section Moves

variable {S : Text → Text → Prop} (hS : Mover S)
include hS

/-- Moved lines are read as the same lexemes, with those that span lines moved. -/
theorem moved (h : Reads t ls r) (ht : t = x ++ r) (hx : S x x') :
    ∃ ls', ls.Forall₂ (fun w w' => w.1 = w'.1 ∧ S w.2 w'.2) ls' ∧ Reads (x' ++ r) ls' r := by
  induction h generalizing x x' with
  | done r =>
    obtain rfl : x = [] := by simpa using ht
    cases hS.relined hx
    exact ⟨[], .nil, .done r⟩
  | @chunk y u r a ls hc hrest ih =>
    obtain ⟨v, rfl⟩ := hrest.suffix
    obtain rfl : x = y ++ v := by simpa [← List.append_assoc] using ht.symm
    -- behind a line end the next line is moved as well
    have hnext : ∀ w, S ('\n' :: v) w → ∃ v' ls', w = '\n' :: v' ∧
        ls.Forall₂ (fun w w' => w.1 = w'.1 ∧ S w.2 w'.2) ls' ∧ Reads (v' ++ r) ls' r := by
      intro w hw
      obtain ⟨b, g, w, w', rfl, rfl, hb, hg, hw⟩ := hS.of_newline hw
      have hline : '\n' ∉ b := fun hmem => (hb _ hmem).2 rfl
      obtain ⟨ls', hls, hread⟩ := ih rfl (hS.line hline hw)
      rw [List.append_assoc] at hread
      refine ⟨g ++ w', ls', rfl, hls, ?_⟩
      rw [List.append_assoc]
      obtain ⟨-, this⟩ := hread.drop_blanks (fun c hc => (hb c hc).1) (by simp)
      exact (of_gaps (fun c hc => isGap_of_isIndent (hg c hc)) _).trans this
    cases hc with
    | @gap c _ hg =>
      by_cases hline : c = '\n'
      · subst hline
        obtain ⟨v', ls', rfl, hls, hread⟩ := hnext _ hx
        exact ⟨ls', hls, .chunk (x := ['\n']) (a := []) (.gap hg) hread⟩
      · obtain ⟨v', rfl, hv⟩ := hS.of_line (x := [c]) (by simpa using Ne.symm hline) hx
        obtain ⟨ls', hls, hread⟩ := ih rfl hv
        exact ⟨ls', hls, .chunk (x := [c]) (a := []) (.gap hg) hread⟩
    | @lineComment y _ hy =>
      have hline : '\n' ∉ Token.lineComment ++ y := by
        simpa [Token.lineComment] using fun hmem => hy _ hmem rfl
      rw [List.append_assoc] at hx
      obtain ⟨w, rfl, hw⟩ := hS.of_line hline hx
      obtain ⟨v', ls', rfl, hls, hread⟩ := hnext _ hw
      refine ⟨ls', hls, ?_⟩
      simpa using Reads.chunk (.lineComment hy) hread
    | blockComment hp hl =>
      have hsolid : ∀ c ∈ y.getLast?, Text.isBlank c = false := by
        obtain ⟨s, rfl⟩ := scanComment_suffix
          (show scanComment (0 + 1) 2 0 (y ++ _) = some (0 + _) by simpa [commentLength?] using hl)
        rw [List.getLast?_append_of_ne_nil _ (by simp)]
        rintro c ⟨⟩
        decide
      obtain ⟨y', v', rfl, hy, hv⟩ := hS.of_solid hsolid hx
      obtain ⟨ls', hls, hread⟩ := ih rfl hv
      obtain ⟨hp', hl'⟩ : blockOpen <+: y' ∧ commentLength? (y' ++ (v' ++ r)) = some y'.length :=
        (hS.relined hy).commentLength hp hl
      refine ⟨ls', hls, ?_⟩
      rw [List.append_assoc]
      exact .chunk (.blockComment hp' hl') hread
    | @lexeme k _ _ hl hk =>
      have hsolid : ∀ c ∈ y.getLast?, Text.isBlank c = false := fun c hc => lexeme_last hl hk hc
      obtain ⟨y', v', rfl, hy, hv⟩ := hS.of_solid hsolid hx
      obtain ⟨ls', hls, hread⟩ := ih rfl hv
      refine ⟨(k, y') :: ls', .cons ⟨rfl, hy⟩ hls, ?_⟩
      rw [List.append_assoc]
      cases Chunk.relined (.lexeme hl hk) (hS.relined hv) with
      | lexeme hl' =>
        exact .chunk (.lexeme ((hS.relined hy).lexeme hl' hk) hk) hread

/-- The same with the first line moved as well, in front of a line end. -/
theorem moved_lines {u : Text} (h : Reads (t ++ '\n' :: r) ls r) (hu : S ('\n' :: t) ('\n' :: u)) :
    ∃ ls', ls.Forall₂ (fun w w' => w.1 = w'.1 ∧ S w.2 w'.2) ls' ∧ Reads (u ++ '\n' :: r) ls' r := by
  obtain ⟨b, g, t', u', rfl, heq, hb, hg, hrest⟩ := hS.of_newline hu
  obtain rfl : u = g ++ u' := (List.cons.inj heq).2
  rw [List.append_assoc] at h
  obtain ⟨-, hread⟩ := h.drop_blanks (fun c hc => (hb c hc).1) (by
    simp only [List.length_append, List.length_cons]
    omega)
  obtain ⟨ls', hls, hread'⟩ := hread.moved hS (x := t' ++ ['\n']) (by simp) (hS.newline hrest)
  refine ⟨ls', hls, ?_⟩
  rw [List.append_assoc]
  refine (of_gaps (fun c hc => isGap_of_isIndent (hg c hc)) _).trans ?_
  simpa using hread'

end Moves

/-- With other indents a text is read as the same lexemes. -/
theorem relined (h : Reads t ls r) (ht : t = x ++ r) (hx : Relined x x') :
    ∃ ls', ls.Forall₂ Word.Relined ls' ∧ Reads (x' ++ r) ls' r :=
  h.moved Relined.mover ht hx

theorem reindented {u : Text} (h : Reads (t ++ '\n' :: r) ls r) (hu : Reindented t u) :
    ∃ ls', ls.Forall₂ Word.Relined ls' ∧ Reads (u ++ '\n' :: r) ls' r := by
  obtain ⟨b, g, t', u', rfl, rfl, hb, hg, hu⟩ := hu
  exact h.moved_lines Relined.mover (.line hb hg hu)

end Reads

/-- Lexemes on one line each stay as they are. -/
theorem Word.eq_of_relined {ls ls' : List Word} (h : ls.Forall₂ Word.Relined ls')
    (hline : ∀ w ∈ ls, '\n' ∉ w.2) : ls' = ls := by
  induction h with
  | nil => rfl
  | cons hw _ ih =>
    obtain ⟨hw', hls⟩ := List.forall_mem_cons.mp hline
    rw [ih hls, Prod.ext hw.1.symm (hw.2.eq_of_line hw')]

end SwiftMacros.Token
