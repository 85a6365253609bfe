import Mathlib
import SwiftMacros.Proofs.Grammar.Chain
import SwiftMacros.Proofs.Grammar.Signature

/-! Types put together of types. Any type can be an element of a tuple, with a label or without, a
parameter or the result of a function, and a part of an array or a dictionary. -/

namespace SwiftMacros

open Token (Word Told)
open Grain (Alike Stands Loose Halting Spells)
open SwiftMacros.Parser

namespace Parser

/-- A loop whose first step ends it leaves all as it was. -/
theorem extend_ends {σ : Type} {step : σ → Parser (Option σ)} {s s' : σ} {c c' : Cursor}
    (hstop : step s c = .ok none c) (h : extend step s c = .ok s' c') : s' = s ∧ c' = c := by
  obtain ⟨n, -, hsteps⟩ := extend_eq_ok.mp h
  cases hsteps with
  | stop hs =>
    rw [hstop] at hs
    cases hs
    exact ⟨rfl, rfl⟩
  | step hs _ =>
    rw [hstop] at hs
    cases hs

end Parser

namespace Grammar

section Labels

variable {g : Grammar} {c c₁ : Cursor} {T : TypeTree}

/-- At the colon of a label, or at the one name or the two in front of it. -/
def InLabel (c : Cursor) : Prop := c.peek.isSymbol ":" = true ∨ c.peek.kind = .identifier ∧
  ((c.peek 1).isSymbol ":" = true ∨ (c.peek 1).kind = .identifier ∧ (c.peek 2).isSymbol ":" = true)

namespace InLabel

theorem kind (h : InLabel c) : c.peek.kind = .symbol ∨ c.peek.kind = .identifier :=
  h.imp Token.kind_of_isSymbol And.left

theorem advance (h : InLabel c) (hk : c.peek.kind = .identifier) : InLabel (c.advance 1) := by
  rcases h with h | ⟨-, h⟩
  · rw [Token.kind_of_isSymbol h] at hk
    cases hk
  · simpa [InLabel, Cursor.peek_advance] using h.imp_right fun h => ⟨h.1, .inl h.2⟩

/-- No operator, dot or attribute stands there. -/
theorem not_kind (h : InLabel c) {k : Token.Kind} (hk : k ≠ .symbol) (hk' : k ≠ .identifier) :
    c.peek.kind ≠ k := by
  rcases h.kind with h | h <;> rw [h]
  · exact hk.symm
  · exact hk'.symm

theorem not_symbol (h : InLabel c) {n : String} (hn : n ≠ ":") : c.peek.isSymbol n = false := by
  rcases h with h | ⟨h, -⟩
  · have ht := congrArg Prod.snd (Token.word_of_isSymbol h)
    simp only [Token.isSymbol, Token.has, Bool.and_eq_false_iff, beq_eq_false_iff_ne]
    refine .inr fun heq => hn ?_
    exact String.toList_inj.mp (heq.symm.trans ht)
  · simp [Token.isSymbol, Token.has, h]

end InLabel

/-- What reads a type does not get over the colon of a label. -/
structure Labels (g : Grammar) : Prop where
  type : ∀ c T c₁, InLabel c → g.type c = .ok T c₁ → InLabel c₁
  constraint : ∀ c T c₁, InLabel c → g.constraint c = .ok T c₁ → InLabel c₁

theorem namedType_inLabel (h : InLabel c) (hk : c.peek.kind = .identifier) (hT : g.namedType c = .ok T c₁) :
    InLabel c₁ := by
  have h := h.advance hk
  have hgenerics : genericsFollow (c.advance 1) = false := by
    simp [genericsFollow, Token.isOperatorWith, h.not_kind]
  rcases ite_eq_ok.mp (get_bind_eq_ok.mp (consume_bind_eq_ok.mp hT)) with ⟨hfollow, -⟩ | ⟨-, hT⟩
  · rw [hgenerics] at hfollow
    cases hfollow
  · obtain ⟨generics, c₂, hnone, hT⟩ := of_bind_ok hT
    obtain ⟨-, rfl⟩ := pure_eq_ok.mp hnone
    rw [sliceFrom_bind_eq_ok] at hT
    obtain ⟨-, rfl⟩ := extend_ends (by rw [get_bind_eq_ok, if_neg (by simp [h.not_kind])]; rfl) hT
    exact h

theorem typeSuffixes_inLabel {start : Token} {base : TypeTree} (h : InLabel c)
    (hT : typeSuffixes start base c = .ok T c₁) : InLabel c₁ := by
  have hstop : suffix start base c = .ok none c := by
    rw [suffix, get_bind_eq_ok, if_neg (by simp [Token.isMark, h.not_kind]), if_neg (by simp [h.not_kind])]
    rfl
  obtain ⟨-, rfl⟩ := extend_ends hstop hT
  exact h

theorem constraintRule_inLabel (hg : g.Labels) (h : InLabel c) (hT : g.constraintRule c = .ok T c₁) :
    InLabel c₁ := by
  rcases ite_eq_ok.mp (get_bind_eq_ok.mp hT) with ⟨-, hT⟩ | ⟨-, hT⟩
  · obtain ⟨as, c₂, has, hT⟩ := of_bind_ok hT
    obtain ⟨B, c₃, hB, hT⟩ := of_bind_ok hT
    rw [sliceFrom_bind_eq_ok] at hT
    obtain ⟨-, rfl⟩ := pure_eq_ok.mp hT
    refine hg.type _ _ _ ?_ hB
    refine (of_collectWhile (I := fun _ c => InLabel c) has h fun _ c a c' hI hm ha => ?_).1
    rcases ite_eq_ok.mp (current_bind_eq_ok.mp ha) with ⟨hat, -⟩ | ⟨hat, ha⟩
    · exact absurd (by simpa using hat) (hI.not_kind (k := .atName) (by decide) (by decide))
    · rw [consume_bind_eq_ok] at ha
      obtain ⟨-, rfl⟩ := pure_eq_ok.mp ha
      refine hI.advance ?_
      simp only [qualifiesType, Bool.or_eq_true] at hm
      exact Token.kind_of_isIdentifierIn (hm.resolve_left hat)
  · rcases ite_eq_ok.mp hT with ⟨hu, hT⟩ | ⟨-, hT⟩
    · obtain ⟨B, c₂, hB, hT⟩ := of_bind_ok (skip_bind_eq_ok.mp hT)
      rw [sliceFrom_bind_eq_ok] at hT
      obtain ⟨-, rfl⟩ := pure_eq_ok.mp hT
      simp only [Bool.and_eq_true] at hu
      exact hg.constraint _ _ _ (h.advance (Token.kind_of_isIdentifierIn hu.1)) hB
    · obtain ⟨base, c₂, hbase, hT⟩ := of_bind_ok hT
      refine typeSuffixes_inLabel ?_ hT
      rw [simpleType, current_bind_eq_ok, if_neg (by simp [h.not_symbol]), if_neg (by simp [h.not_symbol])] at hbase
      rcases ite_eq_ok.mp hbase with ⟨hk, hbase⟩ | ⟨-, hbase⟩
      · exact namedType_inLabel h (by simpa using hk) hbase
      · cases hbase

theorem typeRule_inLabel (hg : g.Labels) (h : InLabel c) (hT : g.typeRule c = .ok T c₁) : InLabel c₁ := by
  obtain ⟨first, c₂, hfirst, hT⟩ := of_bind_ok (current_bind_eq_ok.mp hT)
  have h := constraintRule_inLabel hg h hfirst
  have hnone : (c₂.peek.has .operator "&") = false := by simp [Token.has, h.not_kind]
  obtain ⟨others, c₃, hothers, hrest⟩ := of_bind_ok hT
  have hstay : c₃ = c₂ := by
    cases (collect_eq_ok.mp hothers).1 with
    | stop hs =>
      rw [get_bind_eq_ok, if_neg (by simp [hnone])] at hs
      exact (pure_eq_ok.mp hs).2.symm
    | round hs _ =>
      rw [get_bind_eq_ok, if_neg (by simp [hnone])] at hs
      cases (pure_eq_ok.mp hs).1
  rw [← hstay] at h
  rcases ite_eq_ok.mp hrest with ⟨-, hrest⟩ | ⟨-, hrest⟩
  · obtain ⟨-, rfl⟩ := pure_eq_ok.mp hrest
    exact h
  · rw [sliceFrom_bind_eq_ok] at hrest
    obtain ⟨-, rfl⟩ := pure_eq_ok.mp hrest
    exact h

theorem upTo_labels (m : Nat) : (upTo m).Labels := by
  induction m with
  | zero => exact ⟨fun _ _ _ _ h => (by cases h), fun _ _ _ _ h => (by cases h)⟩
  | succ m ih => exact ⟨fun _ _ _ h => typeRule_inLabel ih h, fun _ _ _ h => constraintRule_inLabel ih h⟩

end Labels

section Elements

variable {g : Grammar} {c c₁ : Cursor} {s l : Text} {T : TypeTree} {V Y : List Grain} {n : Nat}

/-- No type starts with a closing parenthesis. -/
theorem not_close_of_typeRule (h : g.typeRule c = .ok T c₁) : c.peek.isSymbol ")" = false := by
  rw [Bool.eq_false_iff]
  intro hclose
  have hword : c.peek.word = (.symbol, [')']) := Token.word_of_isSymbol hclose
  obtain ⟨hq, hu⟩ := plain_of_symbol hword
  obtain ⟨_, _, h, -⟩ := of_bind_ok (current_bind_eq_ok.mp h)
  rw [constraintRule, get_bind_eq_ok, if_neg (by simp [hq]), if_neg (by simp [hu])] at h
  obtain ⟨_, _, h, -⟩ := of_bind_ok h
  rw [simpleType, current_bind_eq_ok, if_neg (not_at_symbol (n := "(") (d := '(') hword rfl (by decide)),
    if_neg (not_at_symbol (n := "[") (d := '[') hword rfl (by decide)),
    if_neg (by simp [(Prod.mk.inj hword).1])] at h
  cases h

/-- A type is read as an element behind its label. -/
theorem IsType.exists_elementBehind (h : IsType s T V) (first : Token) (label : Option Text) {V' : List Grain}
    (hn : V.length ≤ n) (halike : Alike V V') (hc : c.Braceless) (hY : c.grains = V' ++ Y)
    (hend : Grain.lead Y ∈ Replays.ends ')') : ∃ c₁, (upTo n).typeRule c = .ok T c₁ ∧
      elementBehind (upTo (n + 1)) first label c = .ok ⟨T, label, c₁.sliceFrom first⟩ c₁ ∧ c.Leads c₁ ∧
      c₁.grains = Y := by
  have hcalm : ∀ w ∈ Replays.ends ')', w ∈ calm := by decide
  obtain ⟨c₁, hT, hl, hY₁⟩ := h.reads n V' c Y hn halike hc hY (hcalm _ hend)
  have hdots : c₁.peek.has .operator "..." = false :=
    (hc.lead hl).reached.told_front (Token.told_has (by simp [Token.isMarkChar])) (hY₁ ▸ hend) (by decide)
  have hnone : skipEllipsis c₁ = .ok () c₁ := by
    rw [skipEllipsis, current_bind_eq_ok, if_neg (by simp [hdots])]
    rfl
  exact ⟨c₁, hT, (bind_of_ok hT).trans ((bind_of_ok hnone).trans rfl), hl, hY₁⟩

/-- A type can be an element without a label: it does not begin with one. -/
theorem IsType.element (h : IsType s T V) : IsElement ⟨T, none, s⟩ V := by
  refine ⟨h.spells.mono fun r hr => hr.loose, fun hlead => ?_, fun n V' c Y hn halike hc hY hend => ?_⟩
  · obtain ⟨c, -, hc, hgrains⟩ := h.spells.exists_ofText ⟨Token.stops_nil.free, by simp⟩
    obtain ⟨c₁, hT, -⟩ := h.reads V.length V c [] le_rfl (.refl V) hc (by rw [hgrains, List.append_nil])
      (by decide)
    have hclose := not_close_of_typeRule hT
    rw [hc.reached.told (Token.told_isSymbol ")"), hgrains, hlead] at hclose
    cases hclose
  · obtain ⟨c₁, hT, he, hl, hY₁⟩ := h.exists_elementBehind c.peek none hn halike hc hY hend
    have hlabel : ¬ Labelled c.grains := fun hlabel => by
      have hin := typeRule_inLabel (upTo_labels n) (.inr ((labelled_iff hc.reached).mp hlabel)) hT
      have hreached := (hc.lead hl).reached
      have hcolon := hreached.told_front (Token.told_isSymbol ":") (hY₁ ▸ hend) (b := false) (by decide)
      have hname := hreached.told_front (Token.told_kind (· == .identifier)) (hY₁ ▸ hend) (b := false) (by decide)
      rcases hin with hin | ⟨hin, -⟩
      · exact Bool.false_ne_true (hcolon.symm.trans hin)
      · simp [hin] at hname
    refine ⟨c₁, ?_, hl, hY₁⟩
    rw [← h.spells.bare, ← hc.slice_eq hl (hY₁ ▸ hY) halike h.spells.ne_nil]
    exact (label_none hc.reached hlabel).trans he

/-- A name in front of anything that no word goes on with. -/
theorem spells_name (hl : Token.IsName l) :
    Spells (fun r => ∀ d ∈ r.head?, Text.isWord d = false) l [⟨[], .identifier, l⟩] where
  stands := fun r B hr hB => by
    have hyields := Chain.yields_cons (Token.IsName.lexeme_eq hl hr) (by decide) hB
    simpa using hyields
  bare := by simp [Grain.bare]
  spell := by simp
  ne_nil := by simp
  plain := by simp [Grain.word]

/-- A type behind a label and a colon. -/
theorem IsType.labelled (h : IsType s T V) (hl : Token.IsName l) :
    IsElement ⟨T, some l, l ++ ": ".toList ++ s⟩
      (⟨[], .identifier, l⟩ :: ⟨[], .symbol, [':']⟩ :: Grain.spaced V) := by
  have hspells : Spells Halting (l ++ ": ".toList ++ s)
      (⟨[], .identifier, l⟩ :: ⟨[], .symbol, [':']⟩ :: Grain.spaced V) := by
    have hcolon := (spells_name hl).append (Spells.symbol (S := Halting) (c := ':') rfl (by decide))
      fun r _ => by
        rintro d ⟨⟩
        rfl
    simpa using hcolon.space (h.spells.mono fun r (hr : Halting r) => hr.loose) Grain.halting_space
  refine ⟨hspells, fun hlead => (by cases hlead), fun n V' c Y hn halike hc hY hend => ?_⟩
  have hlen := (Grain.alike_spaced V).length_eq
  obtain ⟨a, rfl, ha⟩ := Grain.alike_cons.mp halike
  obtain ⟨hword, hnext⟩ := hc.reached.next hY (by
    rintro ⟨m, -, hm⟩
    rw [← ha] at hm
    cases (Prod.mk.inj hm).1)
  have hk : c.peek.kind = .identifier := (Prod.mk.inj (hword.trans ha.symm)).1
  have htext : c.peek.text = l := (Prod.mk.inj (hword.trans ha.symm)).2
  obtain ⟨hcolon, hc₂, hnext₂⟩ := symbol_ahead (hc.lead (hc.sound.advance 1)) hnext rfl
  have hcolon := at_symbol (n := ":") hcolon rfl
  rw [Cursor.peek_advance] at hcolon
  rw [← Cursor.advance_add] at hc₂ hnext₂
  obtain ⟨c₁, -, he, hl₁, hY₁⟩ := h.exists_elementBehind c.peek (some l) (n := n)
    (by simp only [List.length_cons] at hn; omega) (Grain.alike_spaced V) hc₂ hnext₂ hend
  have hl₁ := (hc.sound.advance 2).trans hl₁
  refine ⟨c₁, ?_, hl₁, hY₁⟩
  rw [hc.slice_eq hl₁ (hY₁ ▸ hY) halike hspells.ne_nil, hspells.bare] at he
  exact (label_one hk hcolon).trans (skip_bind_eq_ok.mpr (htext ▸ he))

end Elements

section Functions

variable {es : List TypeElement} {Vs : List (List Grain)} {r : Text} {R : TypeTree} {U : List Grain}

theorem spells_arrow : Spells (fun _ => True) "->".toList [⟨[], .arrow, "->".toList⟩] where
  stands := fun r B _ hB => by
    have hl : Token.lexeme ("->".toList ++ r) = .ok (.arrow, "->".toList.length) := by rfl
    have hyields := Chain.yields_cons hl (by decide) hB
    simpa using hyields
  bare := by simp [Grain.bare]
  spell := by simp
  ne_nil := by simp
  plain := by simp [Grain.word]

/-- A function from elements to a type. -/
theorem IsType.function (h : es.Forall₂ IsElement Vs) (hr : IsType r R U) :
    IsType ('(' :: Text.join ", ".toList (es.map (·.text)) ++ ") -> ".toList ++ r)
      (.function es R [] ('(' :: Text.join ", ".toList (es.map (·.text)) ++ ") -> ".toList ++ r))
      (Grain.enclosed '(' ')' (listed Vs) ++ ⟨[' '], .arrow, "->".toList⟩ :: Grain.spaced U) := by
  have hspells : Spells Loose ('(' :: Text.join ", ".toList (es.map (·.text)) ++ ") -> ".toList ++ r)
      (Grain.enclosed '(' ')' (listed Vs) ++ ⟨[' '], .arrow, "->".toList⟩ :: Grain.spaced U) := by
    have := (spells_enclosed h).space (spells_arrow.space hr.spells fun _ => trivial) fun r =>
      (Grain.halting_space r).loose
    simpa [Grain.spaced] using this
  refine ⟨hspells, rfl, fun n V' c Y hn halike hc hY hcalm => ?_⟩
  have hlen : (listed Vs).length < n ∧ U.length < n := by
    have := (Grain.alike_spaced U).length_eq
    simp only [Grain.enclosed, List.length_append, List.length_cons] at hn
    omega
  obtain ⟨A, rfl, hA⟩ := Alike.of_append halike (by simp [Grain.enclosed])
  rw [List.append_assoc] at hY
  obtain ⟨hword, c₁, hes, hl₁, hY₁⟩ := exists_bracketed h hlen.1 hA hc hY
  have hc₁ := hc.lead hl₁
  obtain ⟨harrow, hnext⟩ := hc₁.reached.next hY₁ (by
    rintro ⟨m, -, hm⟩
    cases (Prod.mk.inj hm).1)
  have hl₂ := hc₁.sound.advance 1
  obtain ⟨n, rfl⟩ : ∃ k, n = k + 1 := ⟨n - 1, by omega⟩
  obtain ⟨c₃, hR, hl₃, hY₃⟩ := hr.reads n _ _ Y (by omega) (Grain.alike_spaced U) (hc₁.lead hl₂) hnext hcalm
  have hl := hl₁.trans (hl₂.trans hl₃)
  have hc₃ := hc.lead hl
  obtain ⟨hk, ht⟩ := Prod.mk.inj harrow
  have heffects : effects c₁ = .ok [] c₁ := effects_none (by
    have hk : c₁.peek.kind = .arrow := hk
    simp [isEffect, Token.isIdentifierIn, hk])
  have hhas : c₁.peek.has .arrow "->" = true := by
    have hk : c₁.peek.kind = .arrow := hk
    have ht : c₁.peek.text = "->".toList := ht
    simp [Token.has, hk, ht]
  have hbase : (upTo (n + 1)).simpleType c = .ok (.function es R []
      ('(' :: Text.join ", ".toList (es.map (·.text)) ++ ") -> ".toList ++ r)) c₃ := by
    rw [simpleType, current_bind_eq_ok, if_pos (at_symbol (n := "(") hword rfl)]
    refine current_bind_eq_ok.mpr ((bind_of_ok hes).trans ((bind_of_ok heffects).trans ?_))
    rw [current_bind_eq_ok, if_pos hhas, skip_bind_eq_ok]
    refine (bind_of_ok hR).trans ?_
    rw [sliceFrom_bind_eq_ok, hc.slice_eq hl (by rw [hY, hY₃, List.append_assoc]) halike hspells.ne_nil,
      hspells.bare]
    rfl
  refine ⟨c₃, typeRule_of_constraint hc₃ ?_ (hY₃ ▸ hcalm), hl, hY₃⟩
  obtain ⟨hq, hu⟩ := plain_of_symbol hword
  rw [constraintRule, get_bind_eq_ok, if_neg (by simp [hq]), if_neg (by simp [hu])]
  exact (bind_of_ok hbase).trans (Suffixes.refl.ok hc₃ (not_suffixed_of_calm (hY₃ ▸ hcalm)))

end Functions

end Grammar

end SwiftMacros
