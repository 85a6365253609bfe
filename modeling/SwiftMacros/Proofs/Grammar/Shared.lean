import Mathlib
import SwiftMacros.Proofs.Grammar.Chain
import SwiftMacros.Proofs.Grammar.Signature
import SwiftMacros.Proofs.Setter.Omission

/-! Names that share an annotation. Of several names in front of one annotation only the last is read
with the type, so all of them are eligible, but the others have nothing that tells a type, and no setter
is made for them. -/

namespace SwiftMacros

open Token (IsName Yields)
open Grain (Stands Loose)
open SwiftMacros.Parser

/-- A binding that is a name only. -/
structure Binding.Plain (b : Binding) (n : Text) : Prop where
  name : b.name = some n
  type : b.type = none
  initializer : b.initializer = none
  accessors : b.accessors = none

/-- A binding that is a name with a type. -/
structure Binding.Annotated (b : Binding) (n : Text) (T : TypeTree) : Prop where
  name : b.name = some n
  type : b.type = some T
  initializer : b.initializer = none
  accessors : b.accessors = none

namespace Grammar

variable {g : Grammar} {c c' : Cursor} {gap gap' n : Text} {A Y Z : List Grain} {T : TypeTree}

/-- What neither goes on with a binding nor is followed by one more. -/
def EndsBinding (Y : List Grain) : Prop :=
  Grain.lead Y ∉ [(.operator, ['=']), (.symbol, ['\x7b']), (.symbol, [','])]

theorem not_has {k : Token.Kind} {x : String} (hc : c.Reached)
    (hx : ∀ m ∈ x.toList.head?, k = .operator → Token.isMarkChar m = false)
    (hY : Grain.lead c.grains ≠ (k, x.toList)) : c.peek.has k x = false := by
  rw [hc.told (Token.told_has hx), Token.has, Token.ofWord, Bool.and_eq_false_iff, beq_eq_false_iff_ne,
    beq_eq_false_iff_ne]
  by_contra h
  rw [not_or, not_not, not_not] at h
  exact hY (Prod.ext h.1 h.2)

theorem at_end (hc : c.Reached) (hY : EndsBinding c.grains) : c.peek.has .operator "=" = false ∧
    c.peek.isSymbol "\x7b" = false ∧ c.peek.isSymbol "," = false := by
  simp only [EndsBinding, List.mem_cons, List.not_mem_nil, or_false, not_or] at hY
  have hequal : ∀ m ∈ "=".toList.head?, Token.Kind.operator = .operator → Token.isMarkChar m = false := by
    rintro m ⟨⟩
    decide
  exact ⟨not_has hc hequal hY.1, not_has hc (fun _ _ h => by cases h) hY.2.1,
    not_has hc (fun _ _ h => by cases h) hY.2.2⟩

/-- In front of a comma a name is a binding of its own. -/
theorem bindingRule_plain (hc : c.Reached) (hY : c.grains = ⟨gap, .identifier, n⟩ :: A)
    (hA : Grain.lead A = (.symbol, [','])) :
    ∃ b, g.bindingRule c = .ok b (c.advance 1) ∧ b.Plain n ∧ (c.advance 1).grains = A := by
  obtain ⟨hword, hnext⟩ := hc.next hY (Chain.not_mark (by decide))
  obtain ⟨hkind, htext⟩ := Prod.mk.inj hword
  have hview := (hc.lead (hc.sound.advance 1)).view_peek
  rw [hnext, hA] at hview
  have hcomma : (c.advance 1).peek.word = (.symbol, [',']) := by
    rw [← Token.view_of_kind, hview]
    rw [← Token.view_fst, hview]
    decide
  refine ⟨⟨(c.advance 1).sliceFrom c.peek, some c.peek.text, none, none, none, (c.advance 1).sliceFrom c.peek⟩, ?_,
    ⟨congrArg some htext, rfl, rfl, rfl⟩, hnext⟩
  rw [bindingRule, current_bind_eq_ok, if_pos (by simp [hkind]), consume_bind_eq_ok, pure_bind_eq_ok,
    sliceFrom_bind_eq_ok, current_bind_eq_ok, if_neg (not_at_symbol (n := ":") (d := ':') hcomma rfl (by decide)),
    pure_bind_eq_ok, current_bind_eq_ok, if_neg (by simp [Token.has, (Prod.mk.inj hcomma).1]), pure_bind_eq_ok,
    current_bind_eq_ok, if_neg (by simp [not_at_symbol (n := "\x7b") (d := '\x7b') hcomma rfl (by decide)]),
    pure_bind_eq_ok, sliceFrom_bind_eq_ok]
  rfl

/-- A name with an annotation is a binding with that type. -/
theorem bindingRule_annotated (hc : c.Reached)
    (hY : c.grains = ⟨gap, .identifier, n⟩ :: ⟨gap', .symbol, [':']⟩ :: Z)
    (hT : ∀ c₁ : Cursor, c.Leads c₁ → c₁.grains = Z → Answers g.type c₁ T Y) (hend : EndsBinding Y) :
    ∃ b c₂, g.bindingRule c = .ok b c₂ ∧ b.Annotated n T ∧ c.Leads c₂ ∧ c₂.grains = Y := by
  obtain ⟨hword, hnext⟩ := hc.next hY (Chain.not_mark (by decide))
  obtain ⟨hkind, htext⟩ := Prod.mk.inj hword
  have hl := hc.sound.advance 1
  obtain ⟨hcolon, hnext'⟩ := (hc.lead hl).next hnext (Chain.not_mark (by decide))
  obtain ⟨c₂, hread, hl₂, hY₂⟩ := hT _ (hl.trans (hl.sound.advance 1)) hnext'
  have hl₂ := (hl.trans (hl.sound.advance 1)).trans hl₂
  obtain ⟨hequal, hbrace, -⟩ := at_end (hc.lead hl₂) (hY₂ ▸ hend)
  refine ⟨⟨(c.advance 1).sliceFrom c.peek, some c.peek.text, some T, none, none, c₂.sliceFrom c.peek⟩, c₂, ?_,
    ⟨congrArg some htext, rfl, rfl, rfl⟩, hl₂, hY₂⟩
  have htype : orRest g.type .raw ((c.advance 1).advance 1) = .ok T c₂ := by
    rw [orRest, current_bind_eq_ok]
    exact (bind_of_ok (attempt_eq_some.mpr hread)).trans rfl
  rw [bindingRule, current_bind_eq_ok, if_pos (by simp [hkind]), consume_bind_eq_ok, pure_bind_eq_ok,
    sliceFrom_bind_eq_ok, current_bind_eq_ok, if_pos (at_symbol (n := ":") hcolon rfl), skip_bind_eq_ok]
  refine (bind_of_ok htype).trans ?_
  rw [pure_bind_eq_ok, current_bind_eq_ok, if_neg (by simp [hequal]), pure_bind_eq_ok,
    current_bind_eq_ok, if_neg (by simp [hbrace]), pure_bind_eq_ok, sliceFrom_bind_eq_ok]
  rfl

/-- The grains of names with commas between them. -/
inductive Listed : List Text → List Grain → Prop
  | one (gap n : Text) : Listed [n] [⟨gap, .identifier, n⟩]
  | more (gap n gap' : Text) {ns : List Text} {A : List Grain} : Listed ns A →
      Listed (n :: ns) (⟨gap, .identifier, n⟩ :: ⟨gap', .symbol, [',']⟩ :: A)

theorem collectWhile_none {α : Type} {more : Cursor → Bool} {item : Parser α} (h : more c = false) :
    collectWhile more item c = .ok [] c := by
  refine collect_eq_ok.mpr ⟨.stop (get_bind_eq_ok.mpr ?_), Nat.zero_le _⟩
  rw [if_neg (by simp [h])]
  rfl

/-- One more binding behind a comma. -/
def nextBinding (g : Grammar) : Parser (Option Binding) := do
  if (← get).peek.isSymbol "," then
    return some (← do
      skip 1
      g.bindingRule)
  else return none

theorem separated_eq_ok {b : Binding} {bs : List Binding} {c₁ : Cursor} (hb : g.bindingRule c = .ok b c₁)
    (hbs : collect g.nextBinding c₁ = .ok bs c') : separated g.bindingRule c = .ok (b :: bs) c' :=
  (bind_of_ok hb).trans ((bind_of_ok hbs).trans rfl)

theorem nextBinding_some {b : Binding} (hcomma : c.peek.isSymbol "," = true)
    (hb : g.bindingRule (c.advance 1) = .ok b c') : g.nextBinding c = .ok (some b) c' := by
  rw [nextBinding, get_bind_eq_ok, if_pos hcomma, skip_bind_eq_ok]
  exact (bind_of_ok hb).trans rfl

theorem nextBinding_none (hcomma : c.peek.isSymbol "," = false) : g.nextBinding c = .ok none c := by
  rw [nextBinding, get_bind_eq_ok, if_neg (by simp [hcomma])]
  rfl

theorem Listed.ne_nil {ns : List Text} {B : List Grain} (h : Listed ns B) : ns ≠ [] ∧ ns.length ≤ B.length := by
  induction h with
  | one gap n => simp
  | more gap n gap' _ ih => simpa using ih.2.trans (Nat.le_succ _)

/-- Names behind commas and the annotation of the last of them: each name is a binding of its own. -/
theorem rounds_bindings {ns ms : List Text} {B : List Grain} (hB : Listed ns B) (hns : ns = ms ++ [n])
    (hc : c.Reached) (hY : c.grains = ⟨gap, .symbol, [',']⟩ :: (B ++ ⟨gap', .symbol, [':']⟩ :: Z))
    (hT : ∀ c₁ : Cursor, c.Leads c₁ → c₁.grains = Z → Answers g.type c₁ T Y) (hend : EndsBinding Y) :
    ∃ bs b c₂, Rounds g.nextBinding c (bs ++ [b]) c₂ ∧ bs.Forall₂ Binding.Plain ms ∧ b.Annotated n T ∧
      c.Leads c₂ ∧ c₂.grains = Y := by
  induction hB generalizing ms c gap with
  | one gap₁ n₁ =>
    obtain ⟨rfl, rfl⟩ : ms = [] ∧ n₁ = n := by
      cases ms with
      | nil => exact ⟨rfl, by simpa using hns⟩
      | cons m ms => simp at hns
    obtain ⟨hcomma, hnext⟩ := hc.next hY (Chain.not_mark (by decide))
    have hl := hc.sound.advance 1
    obtain ⟨b, c₂, hb, hannotated, hl₂, hY₂⟩ := bindingRule_annotated (hc.lead hl) hnext
      (fun c₁ h₁ => hT c₁ (hl.trans h₁)) hend
    have hstop := (at_end (hc.lead (hl.trans hl₂)) (hY₂ ▸ hend)).2.2
    exact ⟨[], b, c₂, .round (nextBinding_some (at_symbol (n := ",") hcomma rfl) hb) (.stop (nextBinding_none hstop)),
      .nil, hannotated, hl.trans hl₂, hY₂⟩
  | @more gap₁ n₁ gap₂ ns B hB ih =>
    obtain ⟨m, ms, rfl⟩ : ∃ m ms', ms = m :: ms' := by
      cases ms with
      | nil => exact absurd (List.cons.inj hns).2 hB.ne_nil.1
      | cons m ms => exact ⟨m, ms, rfl⟩
    obtain ⟨rfl, rfl⟩ := List.cons.inj hns
    obtain ⟨hcomma, hnext⟩ := hc.next hY (Chain.not_mark (by decide))
    have hl := hc.sound.advance 1
    obtain ⟨b, hb, hplain, hrest⟩ := bindingRule_plain (g := g) (hc.lead hl) hnext rfl
    have hl' := hl.trans (hl.sound.advance 1)
    obtain ⟨bs, b', c₂, hrounds, hbs, hb', hl₂, hY₂⟩ := ih rfl (hc.lead hl') hrest fun c₁ h₁ => hT c₁ (hl'.trans h₁)
    exact ⟨b :: bs, b', c₂, .round (nextBinding_some (at_symbol (n := ",") hcomma rfl) hb) hrounds,
      .cons hplain hbs, hb', hl'.trans hl₂, hY₂⟩

/-- Names with one annotation at their end are read as bindings of which only the last has a type. -/
theorem bindings_shared {ns : List Text} {B : List Grain} (hB : Listed (ns ++ [n]) B) (hc : c.Reached)
    (hY : c.grains = B ++ ⟨gap', .symbol, [':']⟩ :: Z)
    (hT : ∀ c₁ : Cursor, c.Leads c₁ → c₁.grains = Z → Answers g.type c₁ T Y) (hend : EndsBinding Y) :
    ∃ bs b c₂, separated g.bindingRule c = .ok (bs ++ [b]) c₂ ∧ bs.Forall₂ Binding.Plain ns ∧
      b.Annotated n T ∧ c.Leads c₂ ∧ c₂.grains = Y := by
  cases ns with
  | nil =>
    cases hB with
    | one gap₁ =>
      obtain ⟨b, c₂, hb, hannotated, hl₂, hY₂⟩ := bindingRule_annotated hc hY hT hend
      have hstop := (at_end (hc.lead hl₂) (hY₂ ▸ hend)).2.2
      have hloop : collect g.nextBinding c₂ = .ok [] c₂ :=
        collect_eq_ok.mpr ⟨.stop (nextBinding_none hstop), Nat.zero_le _⟩
      exact ⟨[], b, c₂, separated_eq_ok hb hloop, .nil, hannotated, hl₂, hY₂⟩
    | more _ _ _ h => exact absurd rfl h.ne_nil.1
  | cons m ns =>
    generalize hms : m :: ns ++ [n] = ms at hB
    cases hB with
    | one gap₁ m' => exact absurd (List.cons.inj hms).2 (by simp)
    | @more gap₁ m' gap₂ ms B hB =>
      obtain ⟨rfl, rfl⟩ := List.cons.inj hms
      obtain ⟨b, hb, hplain, hrest⟩ := bindingRule_plain (g := g) hc hY rfl
      have hl := hc.sound.advance 1
      obtain ⟨bs, b', c₂, hrounds, hbs, hb', hl₂, hY₂⟩ := rounds_bindings hB rfl (hc.lead hl) hrest
        (fun c₁ h₁ => hT c₁ (hl.trans h₁)) hend
      have hroom : (B ++ ⟨gap', .symbol, [':']⟩ :: Z).length + 1 ≤ (c.advance 1).room :=
        (congrArg List.length hrest).symm.le.trans (hc.lead hl).length_le_room
      have hlen : ns.length + 1 ≤ B.length := by simpa using hB.ne_nil.2
      have hsame := hbs.length_eq
      rw [List.length_append] at hroom
      have hloop : collect g.nextBinding (c.advance 1) = .ok (bs ++ [b']) c₂ :=
        collect_eq_ok.mpr ⟨hrounds, by rw [List.length_append, List.length_singleton]; omega⟩
      exact ⟨b :: bs, b', c₂, separated_eq_ok hb hloop, .cons hplain hbs, hb',
        hl.trans hl₂, hY₂⟩

/-- A variable declaration of names that share the type `T` at their end. -/
structure Shares (v : Variable) (ns : List Text) (n : Text) (T : TypeTree) : Prop where
  specifier : v.specifier = "var".toList
  modifiers : v.modifiers = []
  bindings : ∃ bs b, v.bindings = bs ++ [b] ∧ bs.Forall₂ Binding.Plain ns ∧ b.Annotated n T

theorem isIdentifierIn_eq {t : Token} {x : Text} (h : t.word = (.identifier, x)) (ws : List String) :
    t.isIdentifierIn ws = ws.any fun w => x == w.toList := by
  obtain ⟨hk, ht⟩ := Prod.mk.inj h
  simp [Token.isIdentifierIn, hk, ht]

theorem attributesRule_none (h : c.peek.kind ≠ .atName) : g.attributesRule c = .ok [] c :=
  collectWhile_none (by simpa using h)

theorem modifiersRule_none (h : modifierFollows c = false) : g.modifiersRule c = .ok [] c :=
  collectWhile_none h

/-- Where more grains have been ahead, the position is another. -/
theorem position_ne (hc : c.Reached) (hl : c.Leads c') (hlt : c'.grains.length < c.grains.length) :
    c'.position ≠ c.position := by
  obtain ⟨ts, hts, hgrains⟩ := hc.grains_eq hl
  intro h
  obtain rfl : ts = [] := by simpa [Cursor.position, hts] using h
  rw [hgrains] at hlt
  exact lt_irrefl _ hlt

/-- A variable declaration of names that share a type, wherever it stands in a source. -/
theorem memberRule_shared {ns : List Text} {B : List Grain} (hB : Listed (ns ++ [n]) B) (hc : c.Reached)
    (hY : c.grains = ⟨gap, .identifier, "var".toList⟩ :: (B ++ ⟨gap', .symbol, [':']⟩ :: Z))
    (hT : ∀ c₁ : Cursor, c.Leads c₁ → c₁.grains = Z → Answers g.type c₁ T Y) (hend : EndsBinding Y) :
    ∃ v c₂, g.memberRule c = .ok (.binding v) c₂ ∧ Shares v ns n T ∧ c.Leads c₂ ∧ c₂.grains = Y := by
  obtain ⟨hword, hnext⟩ := hc.next hY (Chain.not_mark (by decide))
  have hvar := isIdentifierIn_eq hword
  have hl := hc.sound.advance 1
  obtain ⟨bs, b, c₂, hbindings, hbs, hb, hl₂, hY₂⟩ := bindings_shared hB (hc.lead hl) hnext
    (fun c₁ h₁ => hT c₁ (hl.trans h₁)) hend
  have hmodifier : modifierFollows c = false := by
    simp only [modifierFollows, hvar modifierWords]
    rfl
  refine ⟨⟨c.peek.text, bs ++ [b], [], [], c₂.sliceFrom c.peek⟩, c₂, ?_,
    ⟨(Prod.mk.inj hword).2, rfl, bs, b, rfl, hbs, hb⟩, hl.trans hl₂, hY₂⟩
  rw [memberRule, current_bind_eq_ok]
  refine (bind_of_ok (attributesRule_none (by simp [(Prod.mk.inj hword).1]))).trans
    ((bind_of_ok (modifiersRule_none hmodifier)).trans ?_)
  rw [memberBody, current_bind_eq_ok, if_pos (by rw [hvar]; rfl), skip_bind_eq_ok]
  refine (bind_of_ok hbindings).trans ?_
  rw [sliceFrom_bind_eq_ok]
  rfl

/-- A block of one such declaration. -/
theorem memberBlockRule_shared {ns : List Text} {B : List Grain} {o e : Text} (hB : Listed (ns ++ [n]) B)
    (hc : c.Reached) (hY : c.grains = ⟨o, .symbol, ['\x7b']⟩ :: ⟨gap, .identifier, "var".toList⟩ ::
      (B ++ ⟨gap', .symbol, [':']⟩ :: Z))
    (hT : ∀ c₁ : Cursor, c.Leads c₁ → c₁.grains = Z → Answers g.type c₁ T [⟨e, .symbol, ['\x7d']⟩]) :
    ∃ v b c₂, g.memberBlockRule c = .ok b c₂ ∧ b.members = [.binding v] ∧ Shares v ns n T := by
  obtain ⟨hopen, hnext⟩ := hc.next hY (Chain.not_mark (by decide))
  have hl := hc.sound.advance 1
  obtain ⟨v, c₂, hmember, hshares, hl₂, hY₂⟩ := memberRule_shared hB (hc.lead hl) hnext
    (fun c₁ h₁ => hT c₁ (hl.trans h₁)) (by simp [EndsBinding, Grain.word])
  obtain ⟨hclose, -⟩ := (hc.lead (hl.trans hl₂)).next hY₂ (Chain.not_mark (by decide))
  obtain ⟨hvar, -⟩ := (hc.lead hl).next hnext (Chain.not_mark (by decide))
  have hroom : 1 ≤ (c.advance 1).room := by
    refine le_trans ?_ (hc.lead hl).length_le_room
    rw [hnext]
    simp
  have hposition := position_ne (hc.lead hl) hl₂ (by
    rw [hY₂, hnext]
    simp)
  have hsymbol : ∀ x, (c.advance 1).peek.isSymbol x = false := fun x => by
    simp [Token.isSymbol, Token.has, (Prod.mk.inj hvar).1]
  have hahead : (c.advance 1).isEof = false := by
    have := mt (hc.lead hl).grains_eq_nil_iff.mpr (by rw [hnext]; simp)
    simpa [Cursor.isEof] using this
  have hfirst : g.blockItem (c.advance 1) = .ok (some [.binding v]) c₂ := by
    rw [blockItem, get_bind_eq_ok, if_neg (by simp [hsymbol]), if_neg (by simp [hahead]), if_neg (by simp [hsymbol])]
    refine (bind_of_ok hmember).trans ?_
    rw [get_bind_eq_ok, if_neg hposition]
    rfl
  have hlast : g.blockItem c₂ = .ok none c₂ := by
    rw [blockItem, get_bind_eq_ok, if_pos (at_symbol (n := "\x7d") hclose rfl)]
    rfl
  refine ⟨v, ⟨[[Member.binding v]].flatten, (c₂.advance 1).sliceFrom c.peek, c.peek.start, c₂.peek.stop⟩,
    c₂.advance 1, ?_, rfl, hshares⟩
  rw [memberBlockRule, expect_bind_eq_ok]
  refine ⟨reads_of_word hopen, ?_⟩
  refine (bind_of_ok (collect_eq_ok.mpr ⟨.round hfirst (.stop hlast), hroom⟩)).trans ?_
  rw [expect_bind_eq_ok]
  refine ⟨reads_of_word hclose, ?_⟩
  rw [sliceFrom_bind_eq_ok]
  rfl

theorem groupHeader_none {name : Text} (h : c.peek.isSymbol "\x7b" = true) : groupHeader name c = .ok () c := by
  refine extend_eq_ok.mpr ⟨0, Nat.zero_le _, .stop (get_bind_eq_ok.mpr ?_)⟩
  rw [if_pos h]
  rfl

/-- A type declaration whose block has one such declaration. -/
theorem declarationRule_shared {keyword : String} (hkeyword : keyword ∈ ["struct", "class"]) {S : Text}
    (hS : ∀ w ∈ memberKeywords ++ modifierWords, S ≠ w.toList) {ns : List Text} {B : List Grain}
    {gap₁ gap₂ o e : Text} (hB : Listed (ns ++ [n]) B) (hc : c.Reached)
    (hY : c.grains = ⟨gap₁, .identifier, keyword.toList⟩ :: ⟨gap₂, .identifier, S⟩ :: ⟨o, .symbol, ['\x7b']⟩ ::
      ⟨gap, .identifier, "var".toList⟩ :: (B ++ ⟨gap', .symbol, [':']⟩ :: Z))
    (hT : ∀ c₁ : Cursor, c.Leads c₁ → c₁.grains = Z → Answers g.type c₁ T [⟨e, .symbol, ['\x7d']⟩]) :
    ∃ d v c₂, g.declarationRule c = .ok (.group d) c₂ ∧ d.keyword = keyword.toList ∧
      d.block.members = [.binding v] ∧ Shares v ns n T := by
  obtain ⟨hfirst, hnext⟩ := hc.next hY (Chain.not_mark (by decide))
  have hl := hc.sound.advance 1
  obtain ⟨hname, hnext'⟩ := (hc.lead hl).next hnext (Chain.not_mark (by decide))
  have hl' := hl.trans (hl.sound.advance 1)
  obtain ⟨hopen, -⟩ := (hc.lead hl').next hnext' (Chain.not_mark (by decide))
  obtain ⟨v, b, c₂, hblock, hmembers, hshares⟩ := memberBlockRule_shared hB (hc.lead hl') hnext'
    fun c₁ h₁ => hT c₁ (hl'.trans h₁)
  -- `class` is a modifier too, in front of another word of a declaration
  have hmodifier : modifierFollows c = false := by
    have hdeclaration : isDeclarationWord (c.peek 1) = false := by
      rw [Cursor.peek_advance] at hname
      rw [isDeclarationWord, isIdentifierIn_eq hname, isIdentifierIn_eq hname, ← List.any_append,
        List.any_eq_false]
      exact fun w hw => by simpa using hS w hw
    have hkind : (c.peek 1).kind ≠ .atName := by
      rw [Cursor.peek_advance] at hname
      simp [(Prod.mk.inj hname).1]
    have hdetail : c.peek.isIdentifierIn detailedModifiers = false := by
      rw [isIdentifierIn_eq hfirst]
      rcases List.mem_pair.mp hkeyword with rfl | rfl <;> rfl
    simp [modifierFollows, hdetail, hdeclaration, hkind]
  have hgroup : c.peek.isIdentifierIn groupKeywords = true := by
    rw [isIdentifierIn_eq hfirst]
    rcases List.mem_pair.mp hkeyword with rfl | rfl <;> rfl
  refine ⟨⟨c.peek.text, (c.advance 1).peek.text, b, [], [], c₂.sliceFrom c.peek, c.peek.start, b.stop,
    c.peek.line, c.peek.column⟩, v, c₂, ?_, (Prod.mk.inj hfirst).2, hmembers, hshares⟩
  rw [declarationRule, current_bind_eq_ok]
  refine (bind_of_ok (attributesRule_none (by simp [(Prod.mk.inj hfirst).1]))).trans
    ((bind_of_ok (modifiersRule_none hmodifier)).trans ?_)
  rw [current_bind_eq_ok, if_pos hgroup]
  refine (bind_of_ok ?_).trans rfl
  rw [groupBody, consume_bind_eq_ok, current_bind_eq_ok, if_neg (by simp [(Prod.mk.inj hname).1]),
    consume_bind_eq_ok]
  refine (bind_of_ok (groupHeader_none (at_symbol (n := "\x7b") hopen rfl))).trans
    ((bind_of_ok hblock).trans ?_)
  rw [sliceFrom_bind_eq_ok]
  rfl

section Source

/-- Names behind a space each, with commas between them. -/
theorem exists_listed {ms : List Text} (hms : ∀ m ∈ ms, IsName m) (hne : ms ≠ []) {u : Text}
    (hu : ∀ d ∈ u.head?, Text.isWord d = false) (h : Yields u A []) :
    ∃ B, Listed ms B ∧ Yields (' ' :: (Text.join ", ".toList ms ++ u)) (B ++ A) [] := by
  induction ms with
  | nil => exact absurd rfl hne
  | cons m ms ih =>
    have hm := hms m List.mem_cons_self
    cases ms with
    | nil =>
      have hyields := (Chain.yields_cons (hm.lexeme_eq hu) (by decide) h).gap (c := ' ') (by decide)
      exact ⟨_, .one _ m, hyields⟩
    | cons m' ms =>
      obtain ⟨B, hB, hyields⟩ := ih (fun x hx => hms x (List.mem_cons_of_mem _ hx)) (by simp)
      have hcomma := Chain.yields_cons (x := [',']) (Token.lexeme_of_symbol (by decide) _) (by decide) hyields
      have hname := (Chain.yields_cons (hm.lexeme_eq (by rintro d ⟨⟩; rfl)) (by decide) hcomma).gap (c := ' ')
        (by decide)
      exact ⟨_, .more _ m _ hB, by simpa [Text.join] using hname⟩

/-- A declaration named `S` of variables that share an annotation, which is written `t`. -/
def sharedText (keyword : String) (S : Text) (ms : List Text) (t : Text) : Text :=
  keyword.toList ++ ' ' :: (S ++ " \x7b var ".toList ++ Text.join ", ".toList ms ++ ": ".toList ++ t ++ " \x7d".toList)

/-- The grains of such a declaration. -/
theorem yields_shared {keyword : String} (hkeyword : keyword ∈ ["struct", "class"]) {S t : Text} (hS : IsName S)
    {ms : List Text} (hms : ∀ m ∈ ms, IsName m) (hne : ms ≠ []) {V : List Grain} (ht : Grain.Spells Loose t V) :
    ∃ B, Listed ms B ∧ Yields (sharedText keyword S ms t)
      (⟨[], .identifier, keyword.toList⟩ :: ⟨[' '], .identifier, S⟩ :: ⟨[' '], .symbol, ['\x7b']⟩ ::
        ⟨[' '], .identifier, "var".toList⟩ :: (B ++ ⟨[], .symbol, [':']⟩ ::
          (Grain.spaced V ++ [⟨[' '], .symbol, ['\x7d']⟩]))) [] := by
  have hspace : ∀ {u : Text}, ∀ d ∈ (' ' :: u).head?, Text.isWord d = false := by
    rintro u d ⟨⟩
    rfl
  have hclose : Yields [' ', '\x7d'] [⟨[' '], .symbol, ['\x7d']⟩] [] :=
    (Chain.yields_cons (x := ['\x7d']) (Token.lexeme_of_symbol (by decide) []) (by decide) (.done [])).gap
      (c := ' ') (by decide)
  have htype := ht.stands _ _ (Grain.halting_space _).loose hclose
  rw [ht.spell] at htype
  obtain ⟨a, A, rfl⟩ := List.exists_cons_of_ne_nil ht.ne_nil
  have hcolon := Chain.yields_cons (x := [':']) (Token.lexeme_of_symbol (by decide) _) (by decide)
    (htype.gap (c := ' ') (by decide))
  obtain ⟨B, hB, hnames⟩ := exists_listed hms hne (by rintro d ⟨⟩; rfl) hcolon
  have hvar : IsName "var".toList := ⟨[], by decide +kernel⟩
  have hkey : IsName keyword.toList := by
    rcases List.mem_pair.mp hkeyword with rfl | rfl <;> exact ⟨[], by decide +kernel⟩
  have hvars := (Chain.yields_cons (hvar.lexeme_eq hspace) (by decide) hnames).gap (c := ' ') (by decide)
  have hopen := (Chain.yields_cons (x := ['\x7b']) (Token.lexeme_of_symbol (by decide) _) (by decide) hvars).gap
    (c := ' ') (by decide)
  have hname := (Chain.yields_cons (hS.lexeme_eq hspace) (by decide) hopen).gap (c := ' ') (by decide)
  refine ⟨B, hB, ?_⟩
  simpa [sharedText, Grain.spaced] using Chain.yields_cons (hkey.lexeme_eq hspace) (by decide) hname

/-- Such a declaration is read. -/
theorem group_shared {keyword : String} (hkeyword : keyword ∈ ["struct", "class"]) {S t : Text} (hS : IsName S)
    (hfree : ∀ w ∈ memberKeywords ++ modifierWords, S ≠ w.toList) {ns : List Text}
    (hns : ∀ m ∈ ns ++ [n], IsName m) {V : List Grain} (ht : IsType t T V) :
    ∃ d v, runOn group (sharedText keyword S (ns ++ [n]) t) = .ok d ∧ d.keyword = keyword.toList ∧
      d.block.members = [.binding v] ∧ Shares v ns n T := by
  obtain ⟨B, hB, hyields⟩ := yields_shared hkeyword hS hns (by simp) ht.spells
  obtain ⟨c, hc, hgrains⟩ := hyields.exists_ofText
  have hreached := Cursor.reached_ofText hc
  have hplain : ∀ a ∈ Grain.spaced V ++ [⟨[' '], .symbol, ['\x7d']⟩], a.word ≠ (.symbol, "\x7b".toList) := by
    intro a ha
    rcases List.mem_append.mp ha with ha | ha
    · obtain ⟨b, U, rfl⟩ := List.exists_cons_of_ne_nil ht.spells.ne_nil
      rcases List.mem_cons.mp ha with rfl | ha
      · exact ht.spells.plain b List.mem_cons_self
      · exact ht.spells.plain a (List.mem_cons_of_mem _ ha)
    · obtain rfl := List.mem_singleton.mp ha
      simp [Grain.word]
  have hroom : V.length ≤ c.room := by
    refine le_trans ?_ hreached.length_le_room
    rw [hgrains, (Grain.alike_spaced V).length_eq]
    simp only [List.length_cons, List.length_append]
    omega
  obtain ⟨d, v, c₂, hread, hword, hmembers, hshares⟩ := declarationRule_shared (g := upTo (c.room + 1))
    hkeyword hfree hB hreached hgrains fun c₁ hl hY => ht.reads c.room _ c₁ _ hroom (Grain.alike_spaced V)
      ⟨hreached.lead hl, hY ▸ hplain⟩ hY (by decide)
  refine ⟨d, v, ?_, hword, hmembers, hshares⟩
  have hgroup : group c = .ok d c₂ := (bind_of_ok (show declaration c = _ from hread)).trans rfl
  simp only [runOn, hc, hgroup]

end Source

section Setters

variable {v : Variable} {ns : List Text} {T : TypeTree} {n : Text}

theorem Shares.property (h : Shares v ns n T) (b : Binding) : Property.ofBinding? v b = b.name.map fun m =>
    { name := m, type := b.type, initializer := b.initializer, hasAccessors := b.accessors.isSome } := by
  have hspecifier : (v.specifier == "let".toList) = false := by
    rw [h.specifier]
    rfl
  rw [Property.ofBinding?, hspecifier]
  simp [Variable.hasModifier, h.modifiers]

theorem Shares.plain (h : Shares v ns n T) {bs : List Binding} {ms : List Text} (hbs : bs.Forall₂ Binding.Plain ms) :
    bs.filterMap (Property.ofBinding? v) = ms.map fun m => { name := m } := by
  induction hbs with
  | nil => rfl
  | cons hb _ ih =>
    rw [List.filterMap_cons, h.property, hb.name, ih, hb.type, hb.initializer, hb.accessors]
    rfl

/-- The properties of names that share an annotation: only the last has a type. -/
def sharedProperties (ns : List Text) (n : Text) (T : TypeTree) : List Property :=
  ns.map (fun m => { name := m }) ++ [{ name := n, type := some T }]

theorem Shares.properties (h : Shares v ns n T) : (Member.binding v).properties = sharedProperties ns n T := by
  obtain ⟨bs, b, hbindings, hbs, hb⟩ := h.bindings
  rw [Member.properties, hbindings, List.filterMap_append, h.plain hbs, List.filterMap_cons, h.property, hb.name,
    hb.type, hb.initializer, hb.accessors]
  rfl

theorem eligible_shared (ns : List Text) (n : Text) (T : TypeTree) :
    (sharedProperties ns n T).filter Property.isEligible = sharedProperties ns n T := by
  rw [List.filter_eq_self]
  intro p hp
  simp only [sharedProperties, List.mem_append, List.mem_map, List.mem_singleton] at hp
  rcases hp with ⟨m, -, rfl⟩ | rfl <;> rfl

/-- Names without a type of their own have no setter. -/
theorem ofProperties_shared (ns : List Text) (n : Text) (T : TypeTree) :
    Setter.ofProperties (sharedProperties ns n T) = [⟨n, T.signature⟩] := by
  induction ns with
  | nil => rfl
  | cons m ns ih => exact ih

theorem ofProperties_append (ps qs : List Property) :
    Setter.ofProperties (ps ++ qs) = Setter.ofProperties ps ++ Setter.ofProperties qs := List.filterMap_append

theorem setters_eq {d : Group} {kind : Composite} (h : d.composite = .ok kind) : d.setters = .ok {
    kind
    setters := (Setter.ofProperties d.candidates).filter fun s => !Signature.isSentinel s.signature
    warnings := ((Setter.ofProperties d.candidates).filter fun s => Signature.isSentinel s.signature).map
      (Setter.warning d.name) } := by
  rw [Group.setters, h, Group.eligibleProperties_eq h]
  rfl

theorem candidates_shared {d : Group} {before after : List Member} (h : Shares v ns n T)
    (hd : d.block.members = before ++ .binding v :: after) : d.candidates =
      (before.flatMap Member.properties).filter Property.isEligible ++ sharedProperties ns n T ++
        (after.flatMap Member.properties).filter Property.isEligible := by
  rw [Group.candidates, hd, List.flatMap_append, List.flatMap_cons, List.filter_append, List.filter_append,
    h.properties, eligible_shared, List.append_assoc]

end Setters

end Grammar

namespace Parser

open Grammar (memberKeywords modifierWords sharedText Shares sharedProperties)

/-- Names in front of one annotation are read as bindings of which only the last has a type. All of them
are eligible, wherever the declaration stands among the members of a struct or class, but the last alone
can have a setter; nothing is said of the others, not even in a warning. -/
theorem shared_type {keyword : String} (hkeyword : keyword ∈ ["struct", "class"]) {S : Text} (hS : IsName S)
    (hfree : ∀ w ∈ memberKeywords ++ modifierWords, S ≠ w.toList) {ns : List Text} {n : Text}
    (hns : ∀ m ∈ ns ++ [n], IsName m) {t : Text} {T : TypeTree} (hT : runOn (whole type) t = .ok T)
    (hb : ∀ ts, Token.tokenize t = .ok ts → ∀ u ∈ ts, u.isSymbol "\x7b" = false) :
    (∃ d v, runOn group (sharedText keyword S (ns ++ [n]) T.text) = .ok d ∧ d.keyword = keyword.toList ∧
      d.block.members = [.binding v] ∧ Shares v ns n T) ∧
    ∀ (d : Group) kind before v after, d.composite = .ok kind → d.block.members = before ++ .binding v :: after →
      Shares v ns n T → ∃ ps qs, ps = (before.flatMap Member.properties).filter Property.isEligible ∧
        qs = (after.flatMap Member.properties).filter Property.isEligible ∧
        d.eligibleProperties = .ok (ps ++ sharedProperties ns n T ++ qs) ∧
        ∃ all, all = Setter.ofProperties ps ++ ⟨n, T.signature⟩ :: Setter.ofProperties qs ∧ d.setters = .ok {
          kind
          setters := all.filter fun s => !Signature.isSentinel s.signature
          warnings := (all.filter fun s => Signature.isSentinel s.signature).map (Setter.warning d.name) } := by
  refine ⟨?_, fun d kind before v after hkind hd hshares => ⟨_, _, rfl, rfl, ?_, _, rfl, ?_⟩⟩
  · obtain ⟨c, c', hc, hread, -⟩ := of_runOn_whole hT
    cases hts : Token.tokenize t with
    | error e =>
      rw [Cursor.ofText, hts] at hc
      cases hc
    | ok ts =>
      obtain ⟨V, hV⟩ := Grammar.IsType.of_typeRule (m := c.room + 1)
        (Cursor.braceless_ofText hts (hb ts hts) hc) hread
      exact Grammar.group_shared hkeyword hS hfree hns hV
  · rw [Group.eligibleProperties_eq hkind, Grammar.candidates_shared hshares hd]
  · rw [Grammar.setters_eq hkind, Grammar.candidates_shared hshares hd, Grammar.ofProperties_append,
      Grammar.ofProperties_append, Grammar.ofProperties_shared, List.append_assoc, List.singleton_append]

theorem shared_type_pair : ∃ T, runOn (whole type) "Int".toList = .ok T ∧
    ∃ d v, runOn group "struct A \x7b var a, b: Int \x7d".toList = .ok d ∧ Shares v [['a']] ['b'] T ∧
      d.eligibleProperties = .ok [{ name := ['a'] }, { name := ['b'], type := some T }] ∧
      d.setters = .ok ⟨.value, [⟨['b'], "Int".toList⟩], []⟩ := by
  have htype : (runOn (whole type) "Int".toList).toOption.map (fun T => (T.text, T.signature)) =
      some ("Int".toList, "Int".toList) := by decide +kernel
  have hplain : ((Token.tokenize "Int".toList).toOption.all fun ts => ts.all fun u => !u.isSymbol "\x7b") = true := by
    decide +kernel
  cases hT : runOn (whole type) "Int".toList with
  | error e =>
    rw [hT] at htype
    cases htype
  | ok T =>
    rw [hT] at htype
    obtain ⟨htext, hsignature⟩ := Prod.mk.inj (Option.some.inj htype)
    have hnames : ∀ m ∈ [['a']] ++ [['b']], IsName m := by
      rintro m (_ | ⟨_, _ | ⟨_, ⟨⟩⟩⟩) <;> exact ⟨[], by decide +kernel⟩
    obtain ⟨⟨d, v, hd, hkeyword, hmembers, hshares⟩, hsetters⟩ := @shared_type "struct" (by decide) ['A']
      ⟨[], by decide +kernel⟩ (by decide) [['a']] ['b'] hnames _ T hT fun ts hts u hu => by
        rw [hts] at hplain
        simpa using List.all_eq_true.mp hplain u hu
    obtain ⟨ps, qs, rfl, rfl, heligible, all, rfl, hall⟩ := hsetters d .value [] v [] (by
      rw [Group.composite, hkeyword]
      rfl) hmembers hshares
    rw [htext] at hd
    rw [hsignature] at hall
    exact ⟨T, rfl, d, v, hd, hshares, heligible, hall⟩

/-- Both names are eligible, but only the last of them has a setter. -/
theorem shared_type_dropped : ((runOn group "struct A \x7b var a, b: Int \x7d".toList).toOption.bind fun d =>
      d.setters.toOption.map fun l => (d.candidates.map Property.name, l.setters, l.warnings)) =
    some ([['a'], ['b']], [⟨['b'], "Int".toList⟩], []) := by
  decide +kernel

end Parser

end SwiftMacros
