import Mathlib
import SwiftMacros.Proofs.Grammar.Rebuilt
import SwiftMacros.Proofs.Tree.Verbatim

/-! The signature of an annotation is a type, with the same signature. Parts that are kept as they are
written are read again as they were; what is put together of signatures is read as a type of their
types. -/

namespace SwiftMacros

open Token (Word Told)
open Grain (Alike Stands Loose Halting Spells)
open SwiftMacros.Parser

namespace Cursor

variable {c c' : Cursor}

/-- What is read of a source is spelled by grains, as the source itself is. -/
theorem Reached.spells (hc : c.Reached) (hk : c.peek.kind ≠ .operator) (hl : c.Leads c')
    (hlt : c.peek.start < c'.edge) {W : List Grain} (hW : c.grains = W ++ c'.grains) (hnone : Grain.Unbraced W) :
    ∃ V, Alike W V ∧ Spells Halting (c.upTo c') V ∧ (c'.Firm → Spells Loose (c.upTo c') V) := by
  have hlen := hc.grains_lt hl hlt
  rw [hW, List.length_append] at hlen
  obtain ⟨a, A, rfl⟩ := List.exists_cons_of_ne_nil (List.ne_nil_of_length_pos (l := W) (by omega))
  have halike : Alike (a :: A) ({ a with gap := [] } :: A) := Grain.alike_cons.mpr ⟨_, rfl, rfl⟩
  have hbare : Grain.bare ({ a with gap := [] } :: A) = c.upTo c' := by
    rw [hc.upTo_eq hl hW (by simp), halike.bare]
  have hspells : ∀ {S : Text → Prop}, Stands S ({ a with gap := [] } :: A) →
      Spells S (c.upTo c') ({ a with gap := [] } :: A) := fun hS => by
    refine ⟨hS, hbare, hbare, by simp, fun b hb => ?_⟩
    rcases List.mem_cons.mp hb with rfl | hb
    · exact hnone a List.mem_cons_self
    · exact hnone b (List.mem_cons_of_mem _ hb)
  obtain ⟨hhalting, hloose⟩ := hc.stands hk hl hW
  exact ⟨_, halike, hspells hhalting, fun hf => hspells (hloose hf)⟩

theorem Braceless.spells (hc : c.Braceless) (hk : c.peek.kind ≠ .operator) (hl : c.Leads c')
    (hlt : c.peek.start < c'.edge) : ∃ W V, c.grains = W ++ c'.grains ∧ Alike W V ∧
      Spells Halting (c.upTo c') V ∧ (c'.Firm → Spells Loose (c.upTo c') V) := by
  obtain ⟨W, hW⟩ := hc.reached.taken hl
  obtain ⟨V, hV⟩ := hc.reached.spells hk hl hlt hW (Grain.Unbraced.left (hW ▸ hc.none))
  exact ⟨W, V, hW, hV⟩

end Cursor

/-- Whether the type is that of a function. -/
def TypeTree.IsFunction : TypeTree → Prop
  | .function _ _ _ _ => True
  | _ => False

namespace Grammar

variable {g : Grammar} {m n : Nat} {c c₁ : Cursor} {s : Text} {T : TypeTree} {V Y : List Grain}

/-- A type starts with a symbol, a name or an attribute. -/
theorem kind_of_constraintRule (h : g.constraintRule c = .ok T c₁) : c.peek.kind ≠ .operator := by
  intro hk
  have hq : qualifiesType c.peek = false := by simp [qualifiesType, Token.isIdentifierIn, hk]
  have hw : c.peek.isIdentifierIn ["some", "any"] = false := by simp [Token.isIdentifierIn, hk]
  have hsymbol : ∀ n, c.peek.isSymbol n = false := fun n => by simp [Token.isSymbol, Token.has, hk]
  rw [constraintRule, get_bind_eq_ok, if_neg (by simp [hq]), if_neg (by simp [hw])] at h
  obtain ⟨_, _, h, -⟩ := of_bind_ok h
  rw [simpleType, current_bind_eq_ok, if_neg (by simp [hsymbol]), if_neg (by simp [hsymbol]),
    if_neg (by simp [hk])] at h
  cases h

theorem kind_of_typeRule (h : g.typeRule c = .ok T c₁) : c.peek.kind ≠ .operator := by
  obtain ⟨_, _, h, -⟩ := of_bind_ok (current_bind_eq_ok.mp h)
  exact kind_of_constraintRule h

theorem typeSuffixes_none {start : Token} {base : TypeTree} (hc : c.Braceless) (hend : ¬ Suffixed c.grains)
    (h : typeSuffixes start base c = .ok T c₁) : T = base := by
  obtain ⟨n, -, hsteps⟩ := extend_eq_ok.mp (typeSuffixes_eq start base ▸ h)
  cases hsteps with
  | stop _ => rfl
  | step hs _ =>
    rw [suffix_none hc hend] at hs
    cases hs

/-- What has been read as a type is a type, if it opens no brace. -/
theorem IsType.of_unbraced (hc : c.Reached) (h : (upTo m).typeRule c = .ok T c₁) {W : List Grain}
    (hW : c.grains = W ++ c₁.grains) (hnone : Grain.Unbraced W) : ∃ V, IsType T.text T V := by
  obtain ⟨hl, hT⟩ := (typeRule_spec (upTo_reliable m) hc.sound).ok h
  obtain ⟨V, halike, -, hspells⟩ := hc.spells (kind_of_typeRule h) hl hT.lt hW hnone
  refine ⟨V, hT.text ▸ hspells hT.firm, rfl, fun n V' c' Y hn halike' hc' hY hcalm => ?_⟩
  exact type_answers hc h hW hnone (halike.trans halike') (halike.length_eq.trans_le hn) hc' hY hcalm

theorem IsType.of_typeRule (hc : c.Braceless) (h : (upTo m).typeRule c = .ok T c₁) :
    ∃ V, IsType T.text T V := by
  obtain ⟨W, hW⟩ := hc.reached.taken ((typeRule_spec (upTo_reliable m) hc.sound).ok h).1
  exact IsType.of_unbraced hc.reached h hW (Grain.Unbraced.left (hW ▸ hc.none))

/-- A name with its generic arguments, and the members behind it, can have more suffixes. -/
theorem IsChain.of_namedType (hc : c.Braceless) (hk : c.peek.kind = .identifier)
    (hq : qualifiesType c.peek = false)
    (hu : (c.peek.isIdentifierIn ["some", "any"] && typeFollows (c.peek 1)) = false)
    (h : (upTo m).namedType c = .ok T c₁) (hsig : T.signature = T.text) : ∃ V, IsChain T.text T V := by
  obtain ⟨hl, hT⟩ := (namedType_spec (upTo_reliable m) hc.sound hk).ok h
  obtain ⟨W, V, hW, halike, -, hspells⟩ := hc.spells (by simp [hk]) hl hT.lt
  refine ⟨V, ⟨hT.text ▸ hspells hT.firm, rfl, fun n V' c' Y hn halike' hc' hY hsimple => ?_⟩, hsig⟩
  have halike' := halike.trans halike'
  obtain ⟨c₂, hnamed, -, hY₂⟩ := ((namedType_replay (upTo_echoes m n) hc.reached hk T c₁ h).2 W hW
    (Grain.Unbraced.left (hW ▸ hc.none)) V' halike').2 (Nat.lt_succ_of_le (halike.length_eq.trans_le hn)) c' c' Y ⟨rfl, hc'⟩ hY hsimple
  have hne : W ≠ [] := by
    rintro rfl
    exact absurd (hc.reached.grains_lt hl hT.lt) (by rw [hW]; exact lt_irrefl _)
  have hparted : Grain.Parted (Grain.Front dotted) c.grains c'.grains :=
    ⟨W, V', _, Y, hne, halike', hW, hY, hsimple.dotted⟩
  have hk' : c'.peek.kind = .identifier := by
    have := hc.reached.told_eq hc'.reached (Token.told_kind (· == .identifier)) hparted.lead
    simpa [hk] using this
  refine ⟨?_, unbound_parted hc.reached hc' hparted hu, T, c₂, c₂, ?_, .refl, hY₂⟩
  · exact (hc.reached.told_eq hc'.reached told_qualifiesType hparted.lead).trans hq
  · have hsymbol : ∀ n, c'.peek.isSymbol n = false := fun n => by simp [Token.isSymbol, Token.has, hk']
    rw [simpleType, current_bind_eq_ok, if_neg (by simp [hsymbol]), if_neg (by simp [hsymbol]),
      if_pos (by simp [hk'])]
    exact hnamed

section Escaping

/-- An attribute that a space is behind has no arguments. -/
theorem exists_attribute_spaced {a : Grain} {A : List Grain} (hg : g.Pairs) (hc : c.Braceless)
    (hY : c.grains = a :: A) (ha : a.kind = .atName) (hspace : ∀ b B, A = b :: B → b.gap ≠ []) :
    ∃ x, g.attributeRule c = .ok x (c.advance 1) ∧ x.text = a.text := by
  have hmark : ¬ a.IsMark := fun ⟨_, _, h⟩ => by
    have := (Prod.mk.inj h).1
    rw [ha] at this
    cases this
  obtain ⟨hword, hnext⟩ := hc.reached.next hY hmark
  have hk : c.peek.kind = .atName := (Prod.mk.inj hword).1.trans ha
  have hl := hc.sound.advance 1
  have hparen : parenFollows (c.advance 1) = false := by
    cases A with
    | nil =>
      have hview := ((hc.lead hl).reached.peek_of_nil hnext).2
      rw [parenFollows, (Token.told_isSymbol "(").congr (u := Token.ofWord (.eof, [])) hview]
      rfl
    | cons b B =>
      have hspace := hspace b B rfl
      rw [parenFollows, ((hc.lead hl).reached.faces hnext).space]
      simp [hspace]
  obtain ⟨x, c₁, hx⟩ := exists_attributeRule hg hc.reached hk (A := []) fun h => by
    rw [hparen] at h
    cases h
  obtain ⟨-, htext, -, hend⟩ := attributeRule_cases hg hc.reached hx
  rw [hparen, if_neg Bool.false_ne_true] at hend
  subst hend
  refine ⟨x, hx, htext.trans ?_⟩
  have hV : c.grains = [a] ++ (c.advance 1).grains := by rw [hnext, hY]; rfl
  rw [hc.slice_eq hl hV (.refl _) (by simp)]
  simp [Grain.bare]

/-- A type that can be called after its caller has returned. -/
theorem IsType.escaping (h : IsType s T V)
    (hq : qualifiesType (Token.ofWord (Grain.lead V)) = false) :
    IsType ("@escaping ".toList ++ s) (.attributed ["@escaping".toList] T ("@escaping ".toList ++ s))
      (⟨[], .atName, "@escaping".toList⟩ :: Grain.spaced V) := by
  have hspells := (Spells.of_lexeme (x := "@escaping".toList) (k := .atName) (by rfl) rfl (by decide)
    (by decide) (by decide)).space h.spells fun r => (Grain.halting_space r).loose
  refine ⟨hspells, rfl, fun n V' c Y hn halike hc hY hcalm => ?_⟩
  have hlen := (Grain.alike_spaced V).length_eq
  obtain ⟨b, rfl, hb⟩ := Grain.alike_cons.mp halike
  obtain ⟨n, rfl⟩ : ∃ k, n = k + 1 := ⟨n - 1, by simp at hn; omega⟩
  obtain ⟨a, A, rfl⟩ := List.exists_cons_of_ne_nil h.spells.ne_nil
  have hk : b.kind = .atName := (Prod.mk.inj hb).1.symm
  have hg := upTo_pairs (n + 1)
  obtain ⟨x, hx, htext⟩ := exists_attribute_spaced hg hc hY hk fun d B hd => by
    obtain ⟨rfl, -⟩ := List.cons.inj hd
    simp
  have hl := hc.sound.advance 1
  have hc₁ := hc.lead hl
  have hY₁ : (c.advance 1).grains = Grain.spaced (a :: A) ++ Y :=
    (hc.reached.next hY fun ⟨_, _, h⟩ => by rw [← hb] at h; cases (Prod.mk.inj h).1).2
  have hkind : c.peek.kind = .atName := by
    rw [← Token.view_fst, hc.reached.view_peek, hY]
    exact hk
  obtain ⟨c₂, hT, hl₂, hY₂⟩ := h.reads n _ _ Y (by rw [List.length_cons] at hn; omega) (Grain.alike_spaced _) hc₁ hY₁
    hcalm
  have hl₂ := hl.trans hl₂
  refine ⟨c₂, typeRule_of_constraint (hc.lead hl₂) ?_ (hY₂ ▸ hcalm), hl₂, hY₂⟩
  have hqualifies : qualifiesType c.peek = true := by simp [qualifiesType, hkind]
  have hplain : qualifiesType (c.advance 1).peek = false := by
    rw [hc₁.reached.told told_qualifiesType, hY₁]
    exact hq
  have hqualifier : qualifier (upTo (n + 1)) c = .ok "@escaping".toList (c.advance 1) := by
    show (if (c.peek.kind == .atName) = true then _ else _ : Parser Text) c = _
    rw [if_pos (by simp [hkind])]
    exact (bind_of_ok hx).trans (pure_eq_ok.mpr ⟨htext.trans (Prod.mk.inj hb).2.symm, rfl⟩)
  have hend : collectWhile (fun c => qualifiesType c.peek) (qualifier (upTo (n + 1))) (c.advance 1) =
      .ok [] (c.advance 1) :=
    collect_eq_ok.mpr ⟨.stop (get_bind_eq_ok.mpr (ite_eq_ok.mpr (.inr ⟨by simp [hplain], rfl⟩))),
      Nat.zero_le _⟩
  have hattributes : collectWhile (fun c => qualifiesType c.peek) (qualifier (upTo (n + 1))) c =
      .ok ["@escaping".toList] (c.advance 1) := by
    refine (Takes.collectWhile_eq_ok (fun c hc hq => qualifier_takes hg hc hq) hc.reached hqualifies).mpr ?_
    exact (bind_of_ok hqualifier).trans (bind_of_ok hend)
  rw [constraintRule, get_bind_eq_ok, if_pos hqualifies]
  refine (bind_of_ok hattributes).trans ((bind_of_ok hT).trans ?_)
  rw [sliceFrom_bind_eq_ok, hc.slice_eq hl₂ (hY.trans (hY₂ ▸ rfl)) halike (by simp)]
  exact congrArg (fun x => EStateM.Result.ok (TypeTree.attributed ["@escaping".toList] T x) c₂) hspells.bare

end Escaping

section Tuples

/-- The grains are read as an element where an element can end. -/
structure IsElement (e : TypeElement) (V : List Grain) : Prop where
  spells : Spells Halting e.text V
  starts : Grain.lead V ≠ (.symbol, [')'])
  reads : ∀ n V' (c : Cursor) Y, V.length ≤ n → Alike V V' → c.Braceless → c.grains = V' ++ Y →
    Grain.lead Y ∈ Replays.ends ')' → Answers (element (upTo (n + 1))) c e Y

theorem kind_of_element {e : TypeElement} (hc : c.Braceless) (h : element (upTo m) c = .ok e c₁) :
    c.peek.kind ≠ .operator := by
  by_cases hlabel : Labelled c.grains
  · have hk := ((labelled_iff hc.reached).mp hlabel).1
    simp [hk]
  · have h : elementBehind (upTo m) c.peek none c = .ok e c₁ := (label_none hc.reached hlabel).symm.trans h
    obtain ⟨T, c₂, hT, -⟩ := of_bind_ok h
    cases m with
    | zero => cases hT
    | succ m => exact kind_of_typeRule hT

theorem text_of_element {e : TypeElement} (h : element (upTo m) c = .ok e c₁) :
    e.text = c₁.sliceFrom c.peek := by
  obtain ⟨label, c₂, -, h⟩ := of_bind_ok (current_bind_eq_ok.mp h)
  obtain ⟨T, c₃, -, h⟩ := of_bind_ok h
  obtain ⟨u, c₄, -, h⟩ := of_bind_ok h
  rw [sliceFrom_bind_eq_ok, pure_eq_ok] at h
  obtain ⟨rfl, rfl⟩ := h
  rfl

theorem IsElement.of_element {e : TypeElement} (hc : c.Braceless) (hs : c.peek.isSymbol ")" = false)
    (h : element (upTo m) c = .ok e c₁) (hend : Grain.lead c₁.grains ∈ Replays.ends ')') :
    ∃ V, IsElement e V := by
  obtain ⟨hl, hlt⟩ := element_takes hc.reached (upTo_pairs m) e c₁ h
  obtain ⟨W, hW⟩ := hc.reached.taken hl
  have hne : W ≠ [] := by
    rintro rfl
    exact absurd hlt (by rw [hW]; exact lt_irrefl _)
  have hlt := hc.reached.peek_lt hl hW hne
  obtain ⟨W', V, hW', halike, hspells, -⟩ := hc.spells (kind_of_element hc h) hl hlt
  obtain rfl : W' = W := List.append_cancel_right (hW'.symm.trans hW)
  have htext : e.text = c.upTo c₁ := (text_of_element h).trans (Cursor.sliceFrom_eq rfl hlt)
  refine ⟨V, htext ▸ hspells, fun hlead => ?_, fun n V' c' Y hn halike' hc' hY hcalm => ?_⟩
  · have hfirst : Grain.lead c.grains = (.symbol, [')']) := by
      have := halike.lead hne []
      rw [List.append_nil] at this
      rw [hW, Grain.lead_append hne, ← this, hlead]
    rw [hc.reached.told (Token.told_isSymbol ")"), hfirst] at hs
    cases hs
  · exact ((element_replay (upTo_echoes m (n + 1)) hc.reached e c₁ h).2 W' hW
      (Grain.Unbraced.left (hW ▸ hc.none)) V' (halike.trans halike')).2 (Nat.lt_succ_of_le (halike.length_eq.trans_le hn)) c' c' Y ⟨rfl, hc'⟩ hY ⟨hend, hcalm⟩

/-- Grains of elements, with a comma and a space between two of them. -/
def listed : List (List Grain) → List Grain
  | [] => []
  | [V] => V
  | V :: W :: Vs => V ++ [⟨[], .symbol, [',']⟩] ++ Grain.spaced (listed (W :: Vs))

theorem spells_listed {es : List TypeElement} {Vs : List (List Grain)} (h : es.Forall₂ IsElement Vs)
    (hne : es ≠ []) : Spells Halting (Text.join ", ".toList (es.map (·.text))) (listed Vs) := by
  induction h with
  | nil => exact absurd rfl hne
  | @cons e V es Vs he hes ih =>
    cases hes with
    | nil => exact he.spells
    | cons hf hfs =>
      have := (he.spells.append (Spells.symbol (S := Halting) (c := ',') rfl (by decide))
        fun r _ => Grain.halting_symbol rfl r).space (ih (by simp)) Grain.halting_space
      simpa [Text.join, listed] using this

theorem lead_listed {V : List Grain} (hne : V ≠ []) (Vs : List (List Grain)) :
    listed (V :: Vs) ≠ [] ∧ Grain.lead (listed (V :: Vs)) = Grain.lead V := by
  cases Vs with
  | nil => exact ⟨hne, rfl⟩
  | cons W Vs =>
    rw [listed, List.append_assoc, Grain.lead_append hne]
    exact ⟨by simp, rfl⟩

/-- An element, and the comma behind it. -/
def listItem (g : Grammar) : Parser TypeElement := do
  let e ← element g
  let t ← current
  if t.isSymbol "," then skip 1
  else if !t.isSymbol ")" then fail .tupleTypeSeparator
  return e

theorem listItem_takes (hg : g.Pairs) (hc : c.Reached) : Takes (listItem g) c := by
  refine Takes.bind hc (element_takes hc hg) fun e c₁ hc₁ => .current_bind (.ite (fun hcomma => ?_)
    fun _ => .ite (fun _ => .fail_bind) fun _ => .pure hc₁)
  exact .skip_bind hc₁ (Token.not_bracket_of_symbol hcomma (by decide)) fun hc₂ => .pure hc₂

theorem listItem_comma {e : TypeElement} (h : element g c = .ok e c₁) (hs : c₁.peek.isSymbol "," = true) :
    listItem g c = .ok e (c₁.advance 1) := by
  refine (bind_of_ok h).trans ?_
  rw [current_bind_eq_ok, if_pos hs]
  rfl

theorem listItem_last {e : TypeElement} (h : element g c = .ok e c₁) (hs : c₁.peek.isSymbol "," = false)
    (hend : c₁.peek.isSymbol ")" = true) : listItem g c = .ok e c₁ := by
  refine (bind_of_ok h).trans ?_
  rw [current_bind_eq_ok, if_neg (by simp [hs]), if_neg (by simp [hend])]
  rfl

/-- Elements are read one behind the other, up to the closing parenthesis. -/
theorem exists_elements {es : List TypeElement} {Vs : List (List Grain)} (h : es.Forall₂ IsElement Vs)
    {A : List Grain} (hn : (listed Vs).length ≤ n) (halike : Alike (listed Vs) A) (hc : c.Braceless)
    (hY : c.grains = A ++ Y) (hend : Grain.lead Y = (.symbol, [')'])) :
    Answers (collectWhile (fun c => !c.peek.isSymbol ")") (listItem (upTo (n + 1)))) c es Y := by
  have hlast : ∀ {c : Cursor}, c.Braceless → c.grains = Y →
      c.peek.isSymbol ")" = true ∧ c.peek.isSymbol "," = false := fun hc hY => by
    rw [hc.reached.told (Token.told_isSymbol ")"), hc.reached.told (Token.told_isSymbol ","), hY, hend]
    decide
  induction h generalizing c A with
  | nil =>
    obtain rfl := Grain.alike_nil.mp halike
    refine ⟨c, collect_eq_ok.mpr ⟨.stop (get_bind_eq_ok.mpr (ite_eq_ok.mpr (.inr ⟨?_, rfl⟩))), Nat.zero_le _⟩,
      hc.sound.refl, hY⟩
    simp [(hlast hc hY).1]
  | @cons e V es Vs he hes ih =>
    obtain ⟨hne, hlead⟩ := lead_listed he.spells.ne_nil Vs
    have hfirst : (!c.peek.isSymbol ")") = true := by
      rw [Bool.not_eq_true', Bool.eq_false_iff, hc.reached.told (Token.told_isSymbol ")"), hY, halike.lead hne,
        hlead]
      exact fun h => he.starts (Token.word_of_isSymbol h)
    -- behind an element, there is a comma and the next one, or the end
    have hitem : ∃ c₁ B, listItem (upTo (n + 1)) c = .ok e c₁ ∧ c.Leads c₁ ∧ c₁.grains = B ++ Y ∧
        Alike (listed Vs) B ∧ (listed Vs).length ≤ n := by
      cases hes with
      | nil =>
        obtain ⟨c₁, he, hl, hY₁⟩ := he.reads n A c Y hn halike hc hY (by rw [hend]; decide)
        obtain ⟨hclose, hcomma⟩ := hlast (hc.lead hl) hY₁
        exact ⟨c₁, [], listItem_last he hcomma hclose, hl, hY₁, .refl _, Nat.zero_le _⟩
      | @cons f W fs Ws hf hfs =>
        have hlen := (Grain.alike_spaced (listed (W :: Ws))).length_eq
        simp only [listed, List.length_append] at hn
        rw [listed, List.append_assoc] at halike
        obtain ⟨V', rfl, hV'⟩ := Alike.of_append halike he.spells.ne_nil
        rw [List.append_assoc] at hY
        obtain ⟨c₁, he, hl, hY₁⟩ := he.reads n V' c _ (by omega) hV' hc hY
          (show ((.symbol, [',']) : Word) ∈ _ from List.mem_cons_self)
        obtain ⟨hword, -, hY₂⟩ := symbol_ahead (hc.lead hl) hY₁ rfl
        have hcomma : c₁.peek.isSymbol "," = true := isSymbol_of_word (n := ',') hword
        exact ⟨c₁.advance 1, _, listItem_comma he hcomma, hl.trans (hl.sound.advance 1), hY₂,
          Grain.alike_spaced _, by omega⟩
    obtain ⟨c₁, B, he, hl, hY₁, hB, hlen⟩ := hitem
    obtain ⟨c₂, hes, hl₂, hY₂⟩ := ih hlen hB (hc.lead hl) hY₁
    exact ⟨c₂, (Takes.collectWhile_eq_ok (fun c hc _ => listItem_takes (upTo_pairs _) hc) hc.reached hfirst).mpr
      ((bind_of_ok he).trans (bind_of_ok hes)), hl.trans hl₂, hY₂⟩

theorem spells_enclosed {es : List TypeElement} {Vs : List (List Grain)} (h : es.Forall₂ IsElement Vs) :
    Spells Loose ('(' :: Text.join ", ".toList (es.map (·.text)) ++ [')'])
      (Grain.enclosed '(' ')' (listed Vs)) := by
  cases h with
  | nil => exact (Spells.symbol rfl (by decide)).symbol_cons rfl (by decide)
  | cons he hes =>
    exact (spells_listed (.cons he hes) (by simp)).enclose ⟨rfl, by decide⟩ ⟨rfl, by decide⟩
      fun r => Grain.halting_symbol rfl r

theorem effects_none (h : isEffect c.peek = false) : effects c = .ok [] c :=
  (bind_of_ok (collect_eq_ok.mpr ⟨.stop (get_bind_eq_ok.mpr (ite_eq_ok.mpr (.inr ⟨by simp [h], rfl⟩))),
    Nat.zero_le _⟩)).trans rfl

/-- What can come behind a tuple type is no effect and no arrow. -/
theorem tuple_ends (hc : c.Braceless) (hend : Grain.lead c.grains ∈ dotted) :
    effects c = .ok [] c ∧ c.peek.has .arrow "->" = false := by
  have heffect : ∀ w ∈ dotted, isEffect (Token.ofWord w) = false := by decide
  have harrow : ∀ w ∈ dotted, (Token.ofWord w).has .arrow "->" = false := by decide
  exact ⟨effects_none (hc.reached.told_front (Token.told_isIdentifierIn effectKeywords) hend heffect),
    hc.reached.told_front (Token.told_has fun _ _ h => by cases h) hend harrow⟩

/-- Elements between parentheses. -/
theorem exists_bracketed {es : List TypeElement} {Vs : List (List Grain)} (h : es.Forall₂ IsElement Vs)
    {A : List Grain} (hn : (listed Vs).length < n) (halike : Alike (Grain.enclosed '(' ')' (listed Vs)) A)
    (hc : c.Braceless) (hY : c.grains = A ++ Y) : c.peek.word = (.symbol, ['(']) ∧
      Answers (bracketed "(" ")" .tupleTypeSeparator (element (upTo n))) c es Y := by
  obtain ⟨b, rfl, hb⟩ := Grain.alike_cons.mp halike
  obtain ⟨n, rfl⟩ : ∃ k, n = k + 1 := ⟨n - 1, by omega⟩
  obtain ⟨hword, hc₁, hY₁⟩ := symbol_ahead hc hY hb.symm
  obtain ⟨c₂, hes, hl₂, hY₂⟩ := exists_elements h (n := n) (by omega) (.refl _) hc₁
    (hY₁.trans (List.append_assoc _ _ _)) rfl
  obtain ⟨hword₂, -, hY₃⟩ := symbol_ahead (hc₁.lead hl₂) hY₂ rfl
  refine ⟨hword, c₂.advance 1, ?_, (hc.sound.advance 1).trans (hl₂.trans (hl₂.sound.advance 1)), hY₃⟩
  refine expect_bind_eq_ok.mpr ⟨reads_of_word hword, (bind_of_ok hes).trans ?_⟩
  exact expect_bind_eq_ok.mpr ⟨reads_of_word hword₂, rfl⟩

/-- A tuple of elements. -/
theorem IsChain.tuple {es : List TypeElement} {Vs : List (List Grain)} (h : es.Forall₂ IsElement Vs) :
    IsChain ('(' :: Text.join ", ".toList (es.map (·.text)) ++ [')'])
      (.tuple es ('(' :: Text.join ", ".toList (es.map (·.text)) ++ [')']))
      (Grain.enclosed '(' ')' (listed Vs)) := by
  have hspells := spells_enclosed h
  refine ⟨⟨hspells, rfl, fun n V' c Y hn halike hc hY hsimple => ?_⟩, ?_⟩
  · have hlen : (listed Vs).length < n := by
      simp only [Grain.enclosed, List.length_cons, List.length_append] at hn
      omega
    obtain ⟨hword, c₁, hes, hl, rfl⟩ := exists_bracketed h hlen halike hc hY
    obtain ⟨heffects, harrow⟩ := tuple_ends (hc.lead hl) hsimple.dotted
    refine ⟨(plain_of_symbol hword).1, (plain_of_symbol hword).2, _, c₁, _, ?_, .refl, rfl⟩
    rw [simpleType, current_bind_eq_ok, if_pos (at_symbol (n := "(") hword rfl)]
    refine current_bind_eq_ok.mpr ((bind_of_ok hes).trans ((bind_of_ok heffects).trans ?_))
    rw [current_bind_eq_ok, if_neg (by simp [harrow]), if_neg (by simp), sliceFrom_bind_eq_ok,
      hc.slice_eq hl hY halike hspells.ne_nil, hspells.bare]
    rfl
  · have htrim : es.map (fun e => Text.trim e.text) = es.map (·.text) := by
      clear hspells
      induction h with
      | nil => rfl
      | cons he _ ih => rw [List.map_cons, List.map_cons, he.spells.trim Grain.halting_nil, ih]
    show '(' :: Text.join ", ".toList (es.map fun e => Text.trim e.text) ++ [')'] = _
    rw [htrim]

end Tuples

section Signatures

/-- The text is read as a type whose signature it is. -/
def IsSignature (s : Text) : Prop := ∃ T V, IsType s T V ∧ T.signature = s

/-- The text is a signature that more suffixes can come behind. -/
def Extends (s : Text) : Prop := ∃ t T V, (s = t ∨ s = "@escaping ".toList ++ t) ∧ IsChain t T V

/-- A type that stands for itself is its own signature. -/
theorem IsType.isSignature (h : IsType s T V) (hsig : T.signature = Text.trim T.text) : IsSignature s :=
  ⟨T, V, h, by rw [hsig, h.text, h.trim]⟩

theorem IsChain.not_qualifies (h : IsChain s T V) :
    qualifiesType (Token.ofWord (Grain.lead V)) = false := by
  obtain ⟨c, -, hc, hgrains⟩ := h.spells.exists_ofText ⟨Token.stops_nil.free, by simp⟩
  have hclimbs := h.climbs V.length V c [] le_rfl (.refl V) hc (by rw [hgrains, List.append_nil])
    (simple_of_calm (by decide))
  rw [← hclimbs.unqualified, hc.reached.told told_qualifiesType, hgrains]

theorem IsChain.extends (h : IsChain s T V) : Extends s := ⟨s, T, V, .inl rfl, h⟩

namespace Extends

theorem isSignature (h : Extends s) : IsSignature s := by
  obtain ⟨t, T, V, rfl | rfl, h⟩ := h
  · exact ⟨T, V, h.isType, h.signature⟩
  · exact (h.isType.escaping h.not_qualifies).isSignature rfl

theorem optional (h : Extends s) : Extends (s ++ ['?']) := by
  obtain ⟨t, T, V, rfl | rfl, h⟩ := h
  · exact h.optional.extends
  · exact ⟨_, _, _, .inr (List.append_assoc _ _ _), h.optional⟩

theorem metatype (h : Extends s) {x : Text} (hx : isMetatypeName (Token.ofWord (.identifier, x)) = true) :
    Extends (s ++ '.' :: x) := by
  obtain ⟨t, T, V, rfl | rfl, h⟩ := h
  · exact (h.metatype hx).extends
  · exact ⟨_, _, _, .inr (List.append_assoc _ _ _), h.metatype hx⟩

/-- Behind an exclamation mark, a tuple outlives the call, and anything else is kept. -/
theorem unwrapped (h : Extends T.signature) (hf : ¬ T.IsFunction) (t : Text) :
    Extends (TypeTree.unwrapped T t).signature := by
  cases T with
  | tuple es u =>
    obtain ⟨t, T, V, h' | h', h⟩ := h
    · exact ⟨t, T, V, .inr (congrArg ("@escaping ".toList ++ ·) h'), h⟩
    · cases (List.cons.inj h').1
  | function es r x t => exact absurd trivial hf
  | _ => exact h

/-- What a suffix makes of a type. -/
theorem suffix {start : Token} {T' : TypeTree} (h : Extends T.signature)
    (hf : ¬ T.IsFunction) (hs : Grammar.suffix start T c = .ok (some T') c₁) :
    Extends T'.signature ∧ ¬ T'.IsFunction := by
  rw [Grammar.suffix, get_bind_eq_ok] at hs
  rcases ite_eq_ok.mp hs with ⟨-, hs⟩ | ⟨-, hs⟩
  · rw [consumePart_bind_eq_ok, sliceFrom_bind_eq_ok] at hs
    obtain ⟨hT, -⟩ := pure_eq_ok.mp hs
    obtain rfl := Option.some.inj hT
    split
    · exact ⟨h.optional, id⟩
    · exact ⟨h.unwrapped hf _, id⟩
  · rcases ite_eq_ok.mp hs with ⟨hm, hs⟩ | ⟨-, hs⟩
    · rw [skip_bind_eq_ok, sliceFrom_bind_eq_ok] at hs
      obtain ⟨hT, -⟩ := pure_eq_ok.mp hs
      obtain rfl := Option.some.inj hT
      refine ⟨h.metatype ?_, id⟩
      simp only [Bool.and_eq_true] at hm
      have hk := Token.kind_of_isIdentifierIn hm.2
      rw [← hk]
      exact hm.2
    · cases hs

theorem typeSuffixes {start : Token} {base : TypeTree} (h : Extends base.signature)
    (hf : ¬ base.IsFunction) (hT : Grammar.typeSuffixes start base c = .ok T c₁) :
    Extends T.signature := by
  obtain ⟨n, -, hsteps⟩ := extend_eq_ok.mp (typeSuffixes_eq start base ▸ hT)
  clear hT
  induction hsteps with
  | stop _ => exact h
  | step hs _ ih =>
    obtain ⟨h, hf⟩ := h.suffix hf hs
    exact ih h hf

end Extends

/-- What directly follows a token is kept with it as it stands in the source. -/
theorem text_append_upTo (hc : c.Reached) (hw : c.peek.Whole) (hl : (c.advance 1).Leads c₁)
    (hlt : (c.advance 1).peek.start < c₁.edge) (hspace : (c.advance 1).peek.spaceBefore = false) :
    c.peek.text ++ (c.advance 1).upTo c₁ = c.upTo c₁ := by
  have hl₁ := hc.sound.advance 1
  have hc₁ := hc.lead hl₁
  obtain ⟨a, ha, hword, -⟩ := hc.grains_whole hw
  obtain ⟨U, hU⟩ := hc₁.taken hl
  have hlen := hc₁.grains_lt hl hlt
  rw [hU, List.length_append] at hlen
  obtain ⟨b, B, rfl⟩ := List.exists_cons_of_ne_nil (List.ne_nil_of_length_pos (l := U) (by omega))
  have hgap : b.gap = [] := by
    have := (hc₁.faces hU).space.symm.trans hspace
    simpa using this
  rw [hc₁.upTo_eq hl hU (by simp), hc.upTo_eq (hl₁.trans hl) (W := a :: b :: B)
    (by rw [ha, hU]; rfl) (by simp), ← show a.text = c.peek.text from (Prod.mk.inj hword).2]
  simp [Grain.bare, hgap]

/-- A name is kept with its generic arguments, as they stand in the source. -/
theorem namedType_signature (hg : g.Reliable) (hc : c.Reached) (hk : c.peek.kind = .identifier)
    (h : g.namedType c = .ok T c₁) : T.signature = T.text ∧ ¬ T.IsFunction := by
  have hs := hc.sound
  have hs₁ := hs.advance 1
  have hw := Token.whole_of_kind (t := c.peek) (by simp [hk]) (by simp [hk])
  suffices hspec : Spec g.namedType c fun T _ => T.signature = T.text ∧ ¬ T.IsFunction from
    (hspec.ok h).2
  refine Spec.consume_bind hs (Spec.get_bind (Spec.branch
    (Q := fun generics c₂ => c.peek.text ++ generics = c.upTo c₂) (fun hm => ?_) (fun _ => ?_)
    fun generics c₂ hl₂ htext => ?_))
  · refine (genericClause_spec hg hs₁.sound).mono fun t c₂ hl₂ ⟨_, hlt, ht, _⟩ => ?_
    simp only [genericsFollow, Bool.and_eq_true, Bool.not_eq_true'] at hm
    rw [ht, text_append_upTo hc hw hl₂ hlt hm.2]
  · obtain ⟨a, ha, hword, -⟩ := hc.grains_whole hw
    refine Spec.pure hs₁.sound ?_
    rw [hc.upTo_eq hs₁ (W := [a]) ha (by simp), ← show a.text = c.peek.text from (Prod.mk.inj hword).2]
    simp [Grain.bare]
  · have hlt := hs.peek_lt hw.ne_eof hl₂
    refine Spec.sliceFrom_bind (Spec.extend (I := fun T c₃ => c.peek.start < c₃.edge ∧
      T.signature = T.text ∧ ¬ T.IsFunction) (fun node c₃ hl₃ hi => ?_) hl₂.sound
      ⟨hlt, htext.trans (Cursor.sliceFrom_eq rfl hlt).symm, id⟩)
    refine Spec.get_bind (Spec.ite (fun _ => ?_) fun _ => Spec.pure hl₃.sound ⟨by simp, fun _ => hi.2⟩)
    refine Spec.skip_bind hl₃.sound (Spec.get_bind (Spec.whether (Q := fun _ => True)
      (hl₃.sound.advance 2).sound (fun _ => (genericClause_spec hg (hl₃.sound.advance 2).sound).lead)
      (fun _ => trivial) fun c₄ hl₄ _ => ?_))
    have hl₅ := (hl₃.sound.advance 2).trans hl₄
    have hlt : c.peek.start < c₄.edge := hi.1.trans_le hl₅.edge_le
    refine Spec.sliceFrom_bind (Spec.pure hl₄.sound ⟨?_, by simp⟩)
    rintro _ ⟨rfl⟩
    refine ⟨hlt, ?_, id⟩
    show Text.trim (c₄.sliceFrom c.peek) = c₄.sliceFrom c.peek
    rw [Cursor.sliceFrom_eq rfl hlt, (((hs₁.trans hl₂).trans hl₃).trans hl₅).trim_upTo hlt hs]

/-- The elements of a tuple type are read again where they stand in its signature. -/
theorem exists_isElement (hc : c.Braceless) {es : List TypeElement} (h : bracketed "(" ")" .tupleTypeSeparator
    (element (upTo m)) c = .ok es c₁) : ∃ Vs, es.Forall₂ IsElement Vs := by
  obtain ⟨-, h⟩ := expect_bind_eq_ok.mp h
  obtain ⟨es', c₂, hes, h⟩ := of_bind_ok h
  obtain ⟨-, h⟩ := expect_bind_eq_ok.mp h
  obtain ⟨rfl, -⟩ := pure_eq_ok.mp h
  refine (of_collectWhile (I := fun es c => c.Braceless ∧ ∃ Vs, es.Forall₂ IsElement Vs) hes
    ⟨hc.lead (hc.sound.advance 1), [], .nil⟩ fun es c e c' hI hm h => ?_).1.2
  obtain ⟨hc, Vs, hVs⟩ := hI
  have hl := (listItem_takes (upTo_pairs m) hc.reached e c' h).1
  refine ⟨hc.lead hl, ?_⟩
  obtain ⟨e', c₁, he, h⟩ := of_bind_ok h
  have hc₁ := hc.lead (element_takes hc.reached (upTo_pairs m) e' c₁ he).1
  have hend : e = e' ∧ Grain.lead c₁.grains ∈ Replays.ends ')' := by
    rcases ite_eq_ok.mp (current_bind_eq_ok.mp h) with ⟨hcomma, h⟩ | ⟨-, h⟩
    · rw [skip_bind_eq_ok] at h
      obtain ⟨rfl, -⟩ := pure_eq_ok.mp h
      refine ⟨rfl, ?_⟩
      rw [← hc₁.reached.view_peek, (Token.whole_of_has hcomma (by simp) (by simp)).view,
        Token.word_of_isSymbol hcomma]
      decide
    · rcases ite_eq_ok.mp h with ⟨-, h⟩ | ⟨hlast, h⟩
      · cases h
      · obtain ⟨rfl, -⟩ := pure_eq_ok.mp h
        have hlast : c₁.peek.isSymbol ")" = true := by simpa using hlast
        refine ⟨rfl, ?_⟩
        rw [← hc₁.reached.view_peek, (Token.whole_of_has hlast (by simp) (by simp)).view,
          Token.word_of_isSymbol hlast]
        decide
  obtain ⟨rfl, hend⟩ := hend
  obtain ⟨V, hV⟩ := IsElement.of_element hc (by simpa using hm) he hend
  exact ⟨Vs ++ [V], List.rel_append hVs (.cons hV .nil)⟩

/-- A tuple type is put together again; a function type stands for itself. -/
theorem tuple_signature (hc : c.Braceless) (h : (upTo m).tupleOrFunctionType c = .ok T c₁) :
    Extends T.signature ∧ ¬ T.IsFunction ∨
      T.signature = Text.trim T.text ∧ ¬ Suffixed c₁.grains := by
  obtain ⟨es, c₂, hes, h⟩ := of_bind_ok (current_bind_eq_ok.mp h)
  have hl := (Paired.bracketed (.inl ⟨rfl, rfl⟩) hc.reached (fun _ hc => element_paired (upTo_echoes m 0) hc) es c₂ hes).leads
  have hc₂ := hc.lead hl
  obtain ⟨x, c₃, hx, h⟩ := of_bind_ok h
  have hc₃ := hc₂.lead (effects_paired hc₂.reached x c₃ hx).leads
  rcases ite_eq_ok.mp (current_bind_eq_ok.mp h) with ⟨-, h⟩ | ⟨-, h⟩
  · obtain ⟨R, c₄, hR, h⟩ := of_bind_ok (skip_bind_eq_ok.mp h)
    rw [sliceFrom_bind_eq_ok] at h
    obtain ⟨rfl, rfl⟩ := pure_eq_ok.mp h
    exact .inr ⟨rfl, fun hs => (upTo_sated m).type _ (hc₃.lead (hc₃.sound.advance 1)).reached R _ hR (.inr hs)⟩
  · rcases ite_eq_ok.mp h with ⟨-, h⟩ | ⟨-, h⟩
    · cases h
    · rw [sliceFrom_bind_eq_ok] at h
      obtain ⟨rfl, rfl⟩ := pure_eq_ok.mp h
      obtain ⟨Vs, hVs⟩ := exists_isElement hc hes
      exact .inl ⟨⟨_, _, _, .inl (IsChain.tuple hVs).signature, IsChain.tuple hVs⟩, id⟩

section Sources

variable (ih : ∀ (c : Cursor) T c₁, c.Braceless → (upTo m).type c = .ok T c₁ → c.Leads c₁ ∧
  (∃ V, IsType T.text T V) ∧ IsSignature T.signature) (hc : c.Braceless)
include ih hc

theorem collection_signature (h : (upTo m).collectionType c = .ok T c₁) :
    Extends T.signature ∧ ¬ T.IsFunction := by
  have hc₁ := hc.lead (hc.sound.advance 1)
  obtain ⟨K, c₂, hK, h⟩ := of_bind_ok (consume_bind_eq_ok.mp h)
  obtain ⟨hl, ⟨V, hV⟩, K', A, hA, hK'⟩ := ih _ _ _ hc₁ hK
  have hc₂ := hc₁.lead hl
  rcases ite_eq_ok.mp (current_bind_eq_ok.mp h) with ⟨-, h⟩ | ⟨-, h⟩
  · obtain ⟨U, c₃, hU, h⟩ := of_bind_ok (skip_bind_eq_ok.mp h)
    obtain ⟨-, -, U', B, hB, hU'⟩ := ih _ _ _ (hc₂.lead (hc₂.sound.advance 1)) hU
    obtain ⟨-, h⟩ := expect_bind_eq_ok.mp h
    rw [sliceFrom_bind_eq_ok] at h
    obtain ⟨rfl, -⟩ := pure_eq_ok.mp h
    exact ⟨(hA.dictionary hB hK' hU').extends, id⟩
  · obtain ⟨-, h⟩ := expect_bind_eq_ok.mp h
    rw [sliceFrom_bind_eq_ok] at h
    obtain ⟨rfl, -⟩ := pure_eq_ok.mp h
    refine ⟨?_, id⟩
    show Extends ('[' :: Text.trim K.text ++ [']'])
    rw [hV.trim]
    exact hV.array.extends

/-- A type without the `&` of a composition either stands for itself or can have more suffixes. -/
theorem constraint_signature (h : (upTo m).constraintRule c = .ok T c₁) :
    Extends T.signature ∨ T.signature = Text.trim T.text := by
  rcases ite_eq_ok.mp (get_bind_eq_ok.mp h) with ⟨-, h⟩ | ⟨hq, h⟩
  · obtain ⟨as, c₂, -, h⟩ := of_bind_ok h
    obtain ⟨B, c₃, -, h⟩ := of_bind_ok h
    rw [sliceFrom_bind_eq_ok] at h
    obtain ⟨rfl, -⟩ := pure_eq_ok.mp h
    exact .inr rfl
  · rcases ite_eq_ok.mp h with ⟨-, h⟩ | ⟨hu, h⟩
    · obtain ⟨B, c₂, -, h⟩ := of_bind_ok (skip_bind_eq_ok.mp h)
      rw [sliceFrom_bind_eq_ok] at h
      obtain ⟨rfl, -⟩ := pure_eq_ok.mp h
      exact .inr rfl
    · obtain ⟨base, c₂, hbase, h⟩ := of_bind_ok h
      have hl := (simpleType_takes hc.reached (upTo_pairs m) base c₂ hbase).1
      rcases ite_eq_ok.mp (current_bind_eq_ok.mp hbase) with ⟨-, hbase⟩ | ⟨-, hbase⟩
      · rcases tuple_signature hc hbase with ⟨hsig, hf⟩ | ⟨hsig, hend⟩
        · exact .inl (hsig.typeSuffixes hf h)
        · cases typeSuffixes_none (hc.lead hl) hend h
          exact .inr hsig
      · rcases ite_eq_ok.mp hbase with ⟨-, hbase⟩ | ⟨-, hbase⟩
        · obtain ⟨hsig, hf⟩ := collection_signature ih hc hbase
          exact .inl (hsig.typeSuffixes hf h)
        · rcases ite_eq_ok.mp hbase with ⟨hk, hbase⟩ | ⟨-, hbase⟩
          · have hk : c.peek.kind = .identifier := by simpa using hk
            obtain ⟨hsig, hf⟩ := namedType_signature (upTo_reliable m) hc.reached hk hbase
            obtain ⟨V, hV⟩ := IsChain.of_namedType hc hk (by simpa using hq) (by simpa using hu) hbase hsig
            exact .inl ((hsig ▸ hV.extends : Extends base.signature).typeSuffixes hf h)
          · cases hbase

theorem type_signature (h : (upTo m).typeRule c = .ok T c₁) : IsSignature T.signature := by
  obtain ⟨V, hV⟩ := IsType.of_typeRule hc h
  have hself : T.signature = Text.trim T.text → IsSignature T.signature := fun hsig => by
    have := hV.isSignature hsig
    rwa [hsig, hV.trim]
  obtain ⟨first, c₂, hfirst, h⟩ := of_bind_ok (current_bind_eq_ok.mp h)
  obtain ⟨others, c₃, -, h⟩ := of_bind_ok h
  rcases ite_eq_ok.mp h with ⟨-, h⟩ | ⟨-, h⟩
  · obtain ⟨rfl, -⟩ := pure_eq_ok.mp h
    exact (constraint_signature ih hc hfirst).elim Extends.isSignature hself
  · rw [sliceFrom_bind_eq_ok] at h
    obtain ⟨rfl, -⟩ := pure_eq_ok.mp h
    exact hself rfl

end Sources

/-- The signature of a type that has been read of a source without opening braces is a type, and its own
signature. -/
theorem upTo_signature (m : Nat) (c : Cursor) (T : TypeTree) (c₁ : Cursor) (hc : c.Braceless)
    (h : (upTo m).type c = .ok T c₁) : c.Leads c₁ ∧ (∃ V, IsType T.text T V) ∧ IsSignature T.signature := by
  induction m generalizing c T c₁ with
  | zero => cases h
  | succ m ih =>
    exact ⟨((typeRule_spec (upTo_reliable m) hc.sound).ok h).1, IsType.of_typeRule hc h, type_signature ih hc h⟩

end Signatures

end Grammar

/-- The braces that are opened by grains are those that are opened by their tokens. -/
theorem Token.count_braces (s : Text) (n : Nat) (us : List Token) :
    ((grainsFrom s n us).map Grain.word).count (.symbol, "\x7b".toList) = us.countP (·.isSymbol "\x7b") := by
  induction us generalizing n with
  | nil => rfl
  | cons u us ih =>
    rw [grainsFrom, List.map_append, List.count_append, ih, List.countP_cons, Nat.add_comm, Word.grains]
    congr 1
    split
    next hk =>
      have hk : u.kind = .operator := hk
      rw [if_neg (by simp [isSymbol, has, hk]), List.count_eq_zero]
      intro hmem
      obtain ⟨a, ha, hword⟩ := List.mem_map.mp hmem
      have hopens : a.opens = true := by
        rw [Grain.opens, Grain.token, (Prod.mk.inj hword).1, (Prod.mk.inj hword).2]
        decide
      exact absurd hopens (by simp [(Token.grains_operator _ a ha).1])
    next => simp [List.count_singleton, Grain.word, word, isSymbol, has]

namespace Cursor

variable {t : Text} {ts : List Token} {c : Cursor}

theorem count_braces_ofText (hts : Token.tokenize t = .ok ts) (h : ofText t = .ok c) :
    (c.grains.map Grain.word).count (.symbol, "\x7b".toList) ≤ ts.countP (·.isSymbol "\x7b") := by
  obtain ⟨d, hd, htokens⟩ := tokens_ofText hts
  obtain rfl : d = c := Except.ok.inj (hd.symm.trans h)
  have hunspaced : (·.isSymbol "\x7b") ∘ Token.unspaced = (·.isSymbol "\x7b") := rfl
  calc (d.grains.map Grain.word).count (.symbol, "\x7b".toList)
      = d.ahead.countP (·.isSymbol "\x7b") := Token.count_braces _ _ _
    _ ≤ (Token.significant ts).countP (·.isSymbol "\x7b") := by
      rw [← htokens, tokens, List.countP_append, List.countP_append]
      omega
    _ = (ts.filter fun t => !t.kind.isTrivia).countP (·.isSymbol "\x7b") := by
      rw [← Token.significant_unspaced hts, List.countP_map, hunspaced]
    _ ≤ ts.countP (·.isSymbol "\x7b") := List.filter_sublist.countP_le

/-- In a text without opening braces, none is opened ahead. -/
theorem braceless_ofText (hts : Token.tokenize t = .ok ts) (hb : ∀ u ∈ ts, u.isSymbol "\x7b" = false)
    (h : ofText t = .ok c) : c.Braceless := by
  refine ⟨reached_ofText h, fun a ha hword => ?_⟩
  have hcount := count_braces_ofText hts h
  rw [List.countP_eq_zero.mpr fun u hu => by simp [hb u hu], Nat.le_zero, List.count_eq_zero] at hcount
  exact hcount (hword ▸ List.mem_map_of_mem ha)

end Cursor

namespace Parser

/-- A text that is read as a type is one as a whole. -/
theorem runOn_isType {s : Text} {T : TypeTree} {V : List Grain} (hT : Grammar.IsType s T V) :
    runOn (whole type) s = .ok T := by
  obtain ⟨c, hc, hbraceless, hgrains⟩ := hT.spells.exists_ofText ⟨Token.stops_nil.free, by simp⟩
  obtain ⟨c', hread, hl, hnil⟩ := hT.reads (c.room + 1) V c [] (by
    rw [← hgrains]
    exact hbraceless.reached.length_le_room.trans (Nat.le_succ _)) (.refl V) hbraceless
    (by rw [hgrains, List.append_nil]) (by decide)
  exact runOn_whole_of_ok hc hread ((hbraceless.lead hl).reached.grains_eq_nil_iff.mp hnil)

/-- A signature is read as a type as a whole, which has it for its signature. -/
theorem runOn_isSignature {s : Text} (h : Grammar.IsSignature s) :
    ∃ T, runOn (whole type) s = .ok T ∧ T.signature = s :=
  let ⟨T, _, hT, hsig⟩ := h
  ⟨T, runOn_isType hT, hsig⟩

/-- The signature of an annotation in which no brace is opened is accepted as a type, and is the signature
of that type. -/
theorem signature_stable {t : Text} {T : TypeTree} (h : runOn (whole type) t = .ok T)
    (hb : ∀ ts, Token.tokenize t = .ok ts → ∀ u ∈ ts, u.isSymbol "\x7b" = false) :
    ∃ T', runOn (whole type) T.signature = .ok T' ∧ T'.signature = T.signature := by
  obtain ⟨c, c', hc, hT, -⟩ := of_runOn_whole h
  cases hts : Token.tokenize t with
  | error e =>
    rw [Cursor.ofText, hts] at hc
    cases hc
  | ok ts =>
    have hbraceless := Cursor.braceless_ofText hts (hb ts hts) hc
    exact runOn_isSignature (Grammar.upTo_signature (c.room + 2) c T c' hbraceless hT).2.2

theorem signature_stable_escaping : ∃ T T', runOn (whole type) "(Int, x: [String : T<U>])!.Type??".toList = .ok T ∧
    T.signature = "@escaping (Int, x: [String : T<U>]).Type??".toList ∧
    runOn (whole type) T.signature = .ok T' ∧ T'.signature = T.signature := by
  have hsig : (runOn (whole type) "(Int, x: [String : T<U>])!.Type??".toList).toOption.map TypeTree.signature =
      some "@escaping (Int, x: [String : T<U>]).Type??".toList := by decide +kernel
  have hb : ((Token.tokenize "(Int, x: [String : T<U>])!.Type??".toList).toOption.all fun ts =>
      ts.all fun u => !u.isSymbol "\x7b") = true := by decide +kernel
  cases h : runOn (whole type) "(Int, x: [String : T<U>])!.Type??".toList with
  | error e =>
    rw [h] at hsig
    cases hsig
  | ok T =>
    rw [h] at hsig
    obtain ⟨T', hT', heq⟩ := signature_stable h fun ts hts u hu => by
      rw [hts] at hb
      simpa using List.all_eq_true.mp hb u hu
    exact ⟨T, T', rfl, Option.some.inj hsig, hT', heq⟩

/-- A closure in the arguments of an attribute can take up more of the source than they do. Without the
exclamation mark of a type behind it, it does not. -/
theorem signature_rejected : (runOn (whole type)
      "[[@a(x ? [[\x7b)))) X: [[[@c(\x7d (T)]: try!]: if]]: @d(if) \x7b \x7d) Z]".toList).toOption.map
        TypeTree.signature =
      some "[[@a(x ? [[\x7b)))) X: [[[@c(\x7d (T)]: try]: if]]: @d(if) \x7b \x7d) Z]".toList ∧
    (runOn (whole type) "[[@a(x ? [[\x7b)))) X: [[[@c(\x7d (T)]: try]: if]]: @d(if) \x7b \x7d) Z]".toList).toOption.isNone =
      true := by
  decide +kernel

end Parser

end SwiftMacros
