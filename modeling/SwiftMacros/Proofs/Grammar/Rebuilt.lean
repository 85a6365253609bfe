import Mathlib
import SwiftMacros.Proofs.Grammar.Echo
import SwiftMacros.Proofs.Cursor.Yields
import SwiftMacros.Proofs.Token.Seam
import SwiftMacros.Setter.Signature

/-! Types whose text is put together of others. What is read of the parts is read again where their
grains stand in the whole, as long as nothing belongs to a type that comes behind a part. -/

namespace SwiftMacros

open Token (Word Told Yields isSymbolChar isMarkChar)
open Grain (Alike Stands Loose Halting)
open SwiftMacros.Parser

namespace Grain

variable {S S' : Text → Prop} {s s' : Text} {V V' : List Grain}

/-- The grains with a space before them. -/
def spaced : List Grain → List Grain
  | [] => []
  | a :: A => { a with gap := ' ' :: a.gap } :: A

theorem alike_spaced (V : List Grain) : Alike V (spaced V) := by
  cases V with
  | nil => exact .refl _
  | cons a A => exact alike_cons.mpr ⟨_, rfl, rfl⟩

/-- The grains between two symbols. -/
def enclosed (o e : Char) (V : List Grain) : List Grain :=
  ⟨[], .symbol, [o]⟩ :: (V ++ [⟨[], .symbol, [e]⟩])

/-- The text `s` is made of the grains `V`, of which none opens a brace; no gap is before them. -/
structure Spells (S : Text → Prop) (s : Text) (V : List Grain) : Prop where
  stands : Stands S V
  bare : bare V = s
  spell : spell V = s
  ne_nil : V ≠ []
  plain : ∀ a ∈ V, a.word ≠ (.symbol, "\x7b".toList)

namespace Spells

theorem mono (h : Spells S s V) (hS : ∀ r, S' r → S r) : Spells S' s V :=
  { h with stands := fun r B hr hB => h.stands r B (hS r hr) hB }

theorem bare_append (hne : V ≠ []) (V' : List Grain) : Grain.bare (V ++ V') = Grain.bare V ++ Grain.spell V' := by
  obtain ⟨a, A, rfl⟩ := List.exists_cons_of_ne_nil hne
  simp [Grain.bare]

theorem append (h : Spells S s V) (h' : Spells S' s' V') (hS : ∀ r, S' r → S (s' ++ r)) :
    Spells S' (s ++ s') (V ++ V') where
  stands := h.stands.append h'.stands fun r hr => h'.spell.symm ▸ hS r hr
  bare := by rw [bare_append h.ne_nil, h.bare, h'.spell]
  spell := by rw [spell_append, h.spell, h'.spell]
  ne_nil := by simp [h.ne_nil]
  plain := fun a ha => (List.mem_append.mp ha).elim (h.plain a) (h'.plain a)

theorem symbol {c : Char} (hc : isSymbolChar c = true) (hb : c ≠ '\x7b') : Spells S [c] [⟨[], .symbol, [c]⟩] where
  stands := .symbol hc .nil
  bare := by simp [Grain.bare]
  spell := by simp
  ne_nil := by simp
  plain := by simpa [Grain.word] using hb

theorem symbol_cons {c : Char} (hc : isSymbolChar c = true) (hb : c ≠ '\x7b') (h : Spells S s V) :
    Spells S (c :: s) (⟨[], .symbol, [c]⟩ :: V) where
  stands := h.stands.symbol hc
  bare := by simp [Grain.bare, h.spell]
  spell := by simp [h.spell]
  ne_nil := by simp
  plain := by simpa [Grain.word, hb] using h.plain

theorem mark {c : Char} (hc : isMarkChar c = true) : Spells Loose [c] [⟨[], .operator, [c]⟩] where
  stands := .mark hc
  bare := by simp [Grain.bare]
  spell := by simp
  ne_nil := by simp
  plain := by simp [Grain.word]

/-- A lexeme that no name goes on with. -/
theorem of_lexeme {x : Text} {k : Token.Kind} (hl : Token.lexeme x = .ok (k, x.length))
    (hk : k.isTrivia = false) (hop : k ≠ .operator) (hx : x ≠ [] ∧ x ≠ "\x7b".toList)
    (hend : (x.getLast?.all fun d => !Token.isOperatorChar d && d != '.') = true) :
    Spells Loose x [⟨[], k, x⟩] where
  stands := fun r B hr hB => by
    have hlast : ∀ d ∈ x.getLast?, Token.isOperatorChar d = false ∧ d ≠ '.' := fun d hd => by
      rw [Option.mem_def.mp hd] at hend
      simpa using hend
    have hl' := Token.lexeme_append (x := x) (r := []) (by rwa [List.append_nil]) le_rfl hk
      (.inl ⟨hr.1, fun c _ d hd => ⟨fun _ => hlast d hd, fun _ => (hlast d hd).2⟩⟩) fun h => absurd h hr.2
    have hyields : Yields ([] ++ (x ++ _)) (Token.Word.grains [] (k, x) ++ B) _ := .word (.done _) hl' hk hB
    simpa [Token.Word.grains, hop] using hyields
  bare := by simp [Grain.bare]
  spell := by simp
  ne_nil := by simp
  plain := by simpa [Grain.word] using fun _ => hx.2

/-- A point in front of a name. -/
theorem point {c : Char} {t : Text} (h : Spells S (c :: t) V) (hc : c ≠ '.' ∧ c ≠ '<') :
    Spells S ('.' :: c :: t) (⟨[], .dot, ['.']⟩ :: V) where
  stands := fun r B hr hB => by
    have hl : Token.lexeme (['.'] ++ (Grain.spell V ++ r)) = .ok (.dot, 1) := by
      rw [h.spell]
      refine Token.lexeme_point ?_
      simp [hc.1.symm]
    exact @Yields.word [] ['.'] _ _ _ (V ++ B) (.done _) hl rfl (h.stands r B hr hB)
  bare := by simp [Grain.bare, h.spell]
  spell := by simp [h.spell]
  ne_nil := by simp
  plain := by simpa [Grain.word] using h.plain

/-- A text behind a space. -/
theorem space (h : Spells S s V) (h' : Spells S' s' V') (hS : ∀ r, S (' ' :: r)) :
    Spells S' (s ++ ' ' :: s') (V ++ spaced V') := by
  obtain ⟨a, A, rfl⟩ := List.exists_cons_of_ne_nil h'.ne_nil
  have hspell : Grain.spell (spaced (a :: A)) = ' ' :: s' := by rw [← h'.spell]; simp [spaced]
  refine ⟨h.stands.append (h'.stands.gap rfl) fun r _ => ?_, ?_, ?_, by simp [h.ne_nil], fun b hb => ?_⟩
  · rw [show Grain.spell _ = _ from hspell]
    exact hS _
  · rw [bare_append h.ne_nil, h.bare, hspell]
  · rw [spell_append, h.spell, hspell]
  · rcases List.mem_append.mp hb with hb | hb
    · exact h.plain b hb
    · rcases List.mem_cons.mp hb with rfl | hb
      · exact h'.plain a (by simp)
      · exact h'.plain b (by simp [hb])

theorem enclose {o e : Char} (ho : isSymbolChar o = true ∧ o ≠ '\x7b') (he : isSymbolChar e = true ∧ e ≠ '\x7b')
    (h : Spells S s V) (hS : ∀ r, S (e :: r)) : Spells S' (o :: s ++ [e]) (enclosed o e V) :=
  (h.append (symbol he.1 he.2) fun r _ => hS r).symbol_cons ho.1 ho.2

/-- The text is a source of its own, made of these grains. -/
theorem exists_ofText (h : Spells S s V) (hS : S []) :
    ∃ c, Cursor.ofText s = .ok c ∧ c.Braceless ∧ c.grains = V := by
  have hyields := h.stands [] [] hS (.done [])
  rw [List.append_nil, List.append_nil, h.spell] at hyields
  obtain ⟨c, hc, rfl⟩ := hyields.exists_ofText
  exact ⟨c, hc, ⟨Cursor.reached_ofText hc, h.plain⟩, rfl⟩

/-- It neither begins nor ends with white space. -/
theorem trim (h : Spells S s V) (hS : S []) : Text.trim s = s := by
  obtain ⟨c, -, hc, hgrains⟩ := h.exists_ofText hS
  have hl := hc.sound.advance c.ahead.length
  have hend : (c.advance c.ahead.length).grains = [] := by simp [Cursor.grains, Cursor.advance, Token.grainsFrom]
  have hV : c.grains = V ++ (c.advance c.ahead.length).grains := by rw [hgrains, hend, List.append_nil]
  rw [← h.bare, ← hc.reached.upTo_eq hl hV h.ne_nil]
  exact hl.trim_upTo (hc.reached.peek_lt hl hV h.ne_nil) hc.sound

end Spells

theorem loose_symbol {c : Char} (hc : isSymbolChar c = true) (r : Text) : Loose (c :: r) :=
  (halting_symbol hc r).loose

theorem halting_space (r : Text) : Halting (' ' :: r) := ⟨Token.stops_cons (by decide), by simp⟩

theorem loose_mark {c : Char} (hc : isMarkChar c = true) (r : Text) : Loose (c :: r) := by
  refine ⟨Token.free_of_mark rfl hc, ?_⟩
  rintro h
  obtain rfl : c = '"' := by simpa using h
  cases hc

end Grain

namespace Cursor

variable {c c' : Cursor} {V V' : List Grain}

/-- What is kept of the source is spelled by the grains that have been taken. -/
theorem Braceless.slice_eq (hc : c.Braceless) (hl : c.Leads c') (hV : c.grains = V' ++ c'.grains)
    (halike : Alike V V') (hne : V ≠ []) : c'.sliceFrom c.peek = Grain.bare V := by
  have hne' : V' ≠ [] := by
    rintro rfl
    exact hne (by simpa using halike.1)
  rw [sliceFrom_eq rfl (hc.reached.peek_lt hl hV hne'), hc.reached.upTo_eq hl hV hne', halike.bare]

end Cursor

namespace Grammar

/-- The grains are read as a type where nothing belongs to a type behind them, whatever is before them. -/
def ReadAs (T : TypeTree) (V : List Grain) : Prop :=
  ∀ n V' (c : Cursor) Y, V.length ≤ n → Alike V V' → c.Braceless → c.grains = V' ++ Y →
    Grain.lead Y ∈ calm → Answers (upTo n).typeRule c T Y

/-- The text `s` is read as the type `T`. -/
structure IsType (s : Text) (T : TypeTree) (V : List Grain) : Prop where
  spells : Grain.Spells Loose s V
  text : T.text = s
  reads : ReadAs T V

/-- Suffixes behind a type that begins at `start`. -/
inductive Suffixes (start : Token) (base : TypeTree) (c : Cursor) : TypeTree → Cursor → Prop
  | refl : Suffixes start base c base c
  | snoc {T T' : TypeTree} {c₁ c₂ : Cursor} : Suffixes start base c T c₁ →
      suffix start T c₁ = .ok (some T') c₂ → Suffixes start base c T' c₂

theorem Suffixes.leads {start : Token} {base T : TypeTree} {c c₁ : Cursor}
    (h : Suffixes start base c T c₁) (hc : c.Braceless) : c.Leads c₁ := by
  induction h with
  | refl => exact hc.sound.refl
  | snoc _ hs ih => exact ih.trans (suffix_takes (hc.lead ih).reached hs).1

theorem suffix_none {start : Token} {T : TypeTree} {c : Cursor} (hc : c.Braceless) (hend : ¬ Suffixed c.grains) :
    suffix start T c = .ok none c := by
  rw [suffixed_iff hc.reached, not_or] at hend
  rw [suffix, get_bind_eq_ok, if_neg hend.1, if_neg hend.2]
  rfl

/-- Where no more suffix comes, all have been read. -/
theorem Suffixes.ok {start : Token} {base T : TypeTree} {c c₁ : Cursor} (h : Suffixes start base c T c₁)
    (hc : c.Braceless) (hend : ¬ Suffixed c₁.grains) : typeSuffixes start base c = .ok T c₁ := by
  have hsteps : ∀ {T c₁}, Suffixes start base c T c₁ → ∀ {n T' c₂}, Steps (suffix start) n T c₁ T' c₂ →
      n ≤ c₁.grains.length → ∃ m ≤ c.grains.length, Steps (suffix start) m base c T' c₂ := by
    intro T c₁ h
    induction h with
    | refl => exact fun hs hn => ⟨_, hn, hs⟩
    | snoc h hs ih =>
      intro n T' c₂ hsteps hn
      have := (suffix_takes (hc.lead (h.leads hc)).reached hs).2
      exact ih (.step hs hsteps) (by omega)
  obtain ⟨m, hm, hs⟩ := hsteps h (.stop (suffix_none (hc.lead (h.leads hc)) hend)) (Nat.zero_le _)
  exact extend_eq_ok.mpr ⟨m, hm.trans hc.reached.length_le_room, hs⟩

/-- From `c` on, a name, a tuple or a collection is read, and then suffixes up to the type `T`. -/
structure Climbs (g : Grammar) (c : Cursor) (T : TypeTree) (Y : List Grain) : Prop where
  unqualified : qualifiesType c.peek = false
  unbound : (c.peek.isIdentifierIn ["some", "any"] && typeFollows (c.peek 1)) = false
  reads : ∃ base c₁ c₂, g.simpleType c = .ok base c₁ ∧ Suffixes c.peek base c₁ T c₂ ∧ c₂.grains = Y

/-- The text `s` is read as a type that more suffixes can come behind. -/
structure IsStem (s : Text) (T : TypeTree) (V : List Grain) : Prop where
  spells : Grain.Spells Loose s V
  text : T.text = s
  climbs : ∀ n V' (c : Cursor) Y, V.length ≤ n → Alike V V' → c.Braceless → c.grains = V' ++ Y →
    Simple [] Y → (upTo n).Climbs c T Y

/-- The text is read as such a type, and is the signature of it. -/
structure IsChain (s : Text) (T : TypeTree) (V : List Grain) : Prop extends IsStem s T V where
  signature : T.signature = s

variable {g : Grammar} {c c' : Cursor} {s : Text} {T : TypeTree} {V Y : List Grain}

theorem simple_of_calm (h : Grain.lead Y ∈ calm) : Simple [] Y :=
  .inl (List.mem_cons_of_mem _ (List.mem_cons_of_mem _ (List.mem_cons_of_mem _ h)))

theorem not_suffixed_of_calm (h : Grain.lead Y ∈ calm) : ¬ Suffixed Y := by
  have hcalm : ∀ w ∈ calm, (Token.ofWord w).isMark = false ∧ w ≠ (.dot, ['.']) := by decide
  rintro (⟨a, A, rfl, -, hm⟩ | ⟨a, b, A, rfl, ha, -⟩)
  · exact Bool.false_ne_true ((hcalm _ h).1.symm.trans hm)
  · exact (hcalm _ h).2 ha

/-- A constraint is a type if no other one is linked to it. -/
theorem typeRule_of_constraint (hc : c'.Braceless) (h : g.constraintRule c = .ok T c')
    (hcalm : Grain.lead c'.grains ∈ calm) : g.typeRule c = .ok T c' := by
  have hplain : ∀ w ∈ calm, (Token.ofWord w).has .operator "&" = false := by decide
  have hend : collectWhile (fun c => c.peek.has .operator "&") (skip 1 >>= fun _ => g.constraintRule) c' =
      .ok [] c' := by
    have hm := hc.reached.told_front told_ampersand hcalm hplain
    exact collect_eq_ok.mpr ⟨.stop (get_bind_eq_ok.mpr (ite_eq_ok.mpr (.inr ⟨by simp [hm], rfl⟩))),
      Nat.zero_le _⟩
  exact (bind_of_ok h).trans ((bind_of_ok hend).trans rfl)

theorem Climbs.leads (hg : g.Pairs) (hc : c.Braceless) (h : g.Climbs c T Y) : ∃ base c₁ c₂,
    g.simpleType c = .ok base c₁ ∧ Suffixes c.peek base c₁ T c₂ ∧ c₁.Braceless ∧ c.Leads c₂ ∧ c₂.grains = Y := by
  obtain ⟨base, c₁, c₂, hbase, hs, hY⟩ := h.reads
  have hl := (simpleType_paired hg hc.reached base c₁ hbase).leads
  have hc₁ := hc.lead hl
  exact ⟨base, c₁, c₂, hbase, hs, hc₁, hl.trans (hs.leads hc₁), hY⟩

/-- Where no more suffix comes, a type has been read. -/
theorem Climbs.typeRule (hg : g.Pairs) (hc : c.Braceless) (h : g.Climbs c T Y) (hcalm : Grain.lead Y ∈ calm) :
    Answers g.typeRule c T Y := by
  obtain ⟨base, c₁, c₂, hbase, hs, hc₁, hl, rfl⟩ := h.leads hg hc
  have hend := hs.ok hc₁ (not_suffixed_of_calm hcalm)
  refine ⟨c₂, typeRule_of_constraint (hc.lead hl) ?_ hcalm, hl, rfl⟩
  rw [constraintRule, get_bind_eq_ok, if_neg (by simp [h.unqualified]), if_neg (by simp [h.unbound])]
  exact (bind_of_ok hbase).trans hend

/-- What more suffixes can come behind is a type where none comes. -/
theorem IsStem.isType (h : IsStem s T V) : IsType s T V :=
  ⟨h.spells, h.text, fun n V' c Y hn halike hc hY hcalm =>
    (h.climbs n V' c Y hn halike hc hY (simple_of_calm hcalm)).typeRule (upTo_pairs n) hc hcalm⟩

/-- One more suffix is read. -/
theorem Climbs.snoc {T' : TypeTree} {Z : List Grain} (hg : g.Pairs) (hc : c.Braceless) (h : g.Climbs c T Z)
    (hs : ∀ c₁ : Cursor, c₁.Braceless → c.Leads c₁ → c₁.grains = Z →
      ∃ c₂, suffix c.peek T c₁ = .ok (some T') c₂ ∧ c₂.grains = Y) : g.Climbs c T' Y := by
  obtain ⟨base, c₁, c₂, hbase, hchain, hc₁, hl, hZ⟩ := h.leads hg hc
  obtain ⟨c₃, hs, hY⟩ := hs c₂ (hc.lead hl) hl hZ
  exact ⟨h.unqualified, h.unbound, base, c₁, c₃, hbase, hchain.snoc hs, hY⟩

/-- A mark directly behind a type is a suffix. -/
theorem exists_suffix_mark (start : Token) {m : Char} (hm : m = '?' ∨ m = '!') (hc : c.Braceless)
    (hY : c.grains = ⟨[], .operator, [m]⟩ :: Y) : ∃ c', suffix start T c = .ok (some (if m = '?' then
      .optional T (c'.sliceFrom start) else .unwrapped T (c'.sliceFrom start))) c' ∧ c.Leads c' ∧ c'.grains = Y := by
  have hchar : isMarkChar m = true := by rcases hm with rfl | rfl <;> rfl
  have hview : c.peek.view = (.operator, [m]) := (hc.reached.faces hY).view
  have hsuffix : (c.peek.isMark && !c.peek.spaceBefore) = true := by
    rw [Token.told_isMark c.peek, hview, (hc.reached.faces hY).space]
    rcases hm with rfl | rfl <;> rfl
  obtain ⟨hl, htext, -, a, ha, -⟩ := hc.reached.grains_mark hchar hview
  refine ⟨(c.splitOperator 1).advance 1, ?_, hl, (List.cons.inj (ha.symm.trans hY)).2⟩
  rw [suffix, get_bind_eq_ok, if_pos hsuffix, consumePart_bind_eq_ok, sliceFrom_bind_eq_ok, htext]
  rcases hm with rfl | rfl <;> rfl

/-- An optional of a type. -/
theorem IsChain.optional (h : IsChain s T V) :
    IsChain (s ++ ['?']) (.optional T (s ++ ['?'])) (V ++ [⟨[], .operator, ['?']⟩]) := by
  have hspells := h.spells.append (Grain.Spells.mark (c := '?') rfl) fun r _ => Grain.loose_mark rfl r
  refine ⟨⟨hspells, rfl, fun n V' c Y hn halike hc hY hsimple => ?_⟩, ?_⟩
  · obtain ⟨V', rfl, hV'⟩ := Alike.of_append halike h.spells.ne_nil
    rw [List.append_assoc] at hY
    refine (h.climbs n V' c _ ((by simp : V.length ≤ _).trans hn) hV' hc hY
      (.inl List.mem_cons_self)).snoc (upTo_pairs n) hc
      fun c₁ hc₁ hl hc₁Y => ?_
    obtain ⟨c₂, hs, hl₂, rfl⟩ := exists_suffix_mark (T := T) c.peek (.inl rfl) hc₁ hc₁Y
    rw [if_pos rfl, hc.slice_eq (hl.trans hl₂) (by simpa using hY) halike hspells.ne_nil, hspells.bare] at hs
    exact ⟨c₂, hs, rfl⟩
  · show T.signature ++ ['?'] = _
    rw [h.signature]

/-- A name behind a point that is that of a metatype. -/
def metatypeGrains (specifier : Text) : List Grain := [⟨[], .dot, ['.']⟩, ⟨[], .identifier, specifier⟩]

theorem spells_metatype {x : Text} (hx : isMetatypeName (Token.ofWord (.identifier, x)) = true) :
    Grain.Spells Loose ('.' :: x) (metatypeGrains x) ∧ ∀ r, Token.Pointless (x ++ r) := by
  have hname : x = "Type".toList ∨ x = "Protocol".toList := by
    simp only [isMetatypeName, Token.isIdentifierIn, Token.ofWord, List.any_cons, List.any_nil, Bool.or_false,
      Bool.and_eq_true, Bool.or_eq_true, beq_iff_eq] at hx
    exact hx.2
  rcases hname with rfl | rfl
  · exact ⟨(Grain.Spells.of_lexeme (k := .identifier) (by rfl) rfl (by decide) (by decide) (by decide)).point
      (by decide), fun r => Token.pointless_of_head (by decide) (by decide)⟩
  · exact ⟨(Grain.Spells.of_lexeme (k := .identifier) (by rfl) rfl (by decide) (by decide) (by decide)).point
      (by decide), fun r => Token.pointless_of_head (by decide) (by decide)⟩

/-- A metatype member behind a type is a suffix. -/
theorem exists_suffix_metatype (start : Token) {x : Text} (hc : c.Braceless)
    (hx : isMetatypeName (Token.ofWord (.identifier, x)) = true) (hY : c.grains = metatypeGrains x ++ Y) :
    ∃ c', suffix start T c = .ok (some (.metatype T x (c'.sliceFrom start))) c' ∧ c.Leads c' ∧ c'.grains = Y := by
  have hsuffix := (metatype_iff hc.reached).mp ⟨_, _, _, hY, rfl, hx⟩
  have hl := hc.sound.advance 1
  have hmark : ∀ k x, k ≠ .operator → ¬ (⟨[], k, x⟩ : Grain).IsMark := fun k x hk ⟨_, _, h⟩ =>
    hk (Prod.mk.inj h).1
  obtain ⟨hword, hnext⟩ := hc.reached.next hY (hmark _ _ (by decide))
  obtain ⟨hword', hnext'⟩ := (hc.lead hl).reached.next hnext (hmark _ _ (by decide))
  rw [Cursor.peek_advance] at hword'
  rw [← Cursor.advance_add] at hnext'
  have hk : c.peek.kind = .dot := (Prod.mk.inj hword).1
  have htext : (c.peek 1).text = x := (Prod.mk.inj hword').2
  refine ⟨c.advance 2, ?_, hc.sound.advance 2, hnext'⟩
  rw [suffix, get_bind_eq_ok, if_neg (by simp [Token.isMark, hk]), if_pos hsuffix, skip_bind_eq_ok,
    sliceFrom_bind_eq_ok, htext]
  rfl

/-- The metatype of a type. -/
theorem IsChain.metatype (h : IsChain s T V) {x : Text}
    (hx : isMetatypeName (Token.ofWord (.identifier, x)) = true) :
    IsChain (s ++ '.' :: x) (.metatype T x (s ++ '.' :: x)) (V ++ metatypeGrains x) := by
  obtain ⟨hmember, hpoint⟩ := spells_metatype hx
  have hspells := h.spells.append hmember fun r _ => ⟨by
    rintro _ _ ⟨⟩
    exact .inr (.inr ⟨rfl, hpoint r⟩), by simp⟩
  refine ⟨⟨hspells, rfl, fun n V' c Y hn halike hc hY hsimple => ?_⟩, ?_⟩
  · obtain ⟨V', rfl, hV'⟩ := Alike.of_append halike h.spells.ne_nil
    rw [List.append_assoc] at hY
    refine (h.climbs n V' c _ ((by simp : V.length ≤ _).trans hn) hV' hc hY
      (.inr ⟨_, _, Y, rfl, rfl, hx⟩)).snoc (upTo_pairs n) hc fun c₁ hc₁ hl hc₁Y => ?_
    obtain ⟨c₂, hs, hl₂, rfl⟩ := exists_suffix_metatype (T := T) c.peek hc₁ hx hc₁Y
    rw [hc.slice_eq (hl.trans hl₂) (by simpa using hY) halike hspells.ne_nil, hspells.bare] at hs
    exact ⟨c₂, hs, rfl⟩
  · show T.signature ++ '.' :: x = _
    rw [h.signature]

theorem IsType.trim (h : IsType s T V) : Text.trim s = s := h.spells.trim ⟨Token.stops_nil.free, by simp⟩

/-- A symbol is the token at the cursor. -/
theorem symbol_ahead (hc : c.Braceless) {a : Grain} {m : Char} (hY : c.grains = a :: Y)
    (ha : a.word = (.symbol, [m])) : c.peek.word = (.symbol, [m]) ∧ (c.advance 1).Braceless ∧
      (c.advance 1).grains = Y := by
  obtain ⟨hword, hnext⟩ := hc.reached.next hY fun ⟨_, _, h⟩ => by
    rw [ha] at h
    cases (Prod.mk.inj h).1
  exact ⟨hword.trans ha, hc.lead (hc.sound.advance 1), hnext⟩

theorem isSymbol_of_word {t : Token} {m : Char} (h : t.word = (.symbol, [m])) (n : Char) :
    t.isSymbol (String.singleton n) = (m == n) := by
  obtain ⟨hk, ht⟩ := Prod.mk.inj h
  rw [Token.isSymbol, Token.has, hk, ht, Bool.eq_iff_iff]
  simp

theorem reads_of_word {t : Token} {m : Char} (h : t.word = (.symbol, [m])) : t.reads [m] = true := by
  obtain ⟨hk, ht⟩ := Prod.mk.inj h
  simp [Token.reads, hk, ht]

/-- What starts with a symbol is no attribute, and no name that a type is bound by. -/
theorem plain_of_symbol {m : Char} (h : c.peek.word = (.symbol, [m])) : qualifiesType c.peek = false ∧
    (c.peek.isIdentifierIn ["some", "any"] && typeFollows (c.peek 1)) = false := by
  obtain ⟨hk, -⟩ := Prod.mk.inj h
  simp [qualifiesType, Token.isIdentifierIn, hk]

theorem at_symbol {m : Char} (h : c.peek.word = (.symbol, [m])) {n : String} (hn : n = String.singleton m) :
    c.peek.isSymbol n = true := by
  rw [hn, isSymbol_of_word h, beq_self_eq_true]

theorem not_at_symbol {m : Char} (h : c.peek.word = (.symbol, [m])) {n : String} {d : Char} (hn : n = String.singleton d)
    (hne : m ≠ d) : ¬ c.peek.isSymbol n = true := by
  rw [hn, isSymbol_of_word h]
  simpa using hne

theorem simpleType_bracket (h : c.peek.word = (.symbol, ['['])) : g.simpleType c = g.collectionType c := by
  show (if c.peek.isSymbol "(" = true then _ else if c.peek.isSymbol "[" = true then _ else _ : Parser _) c = _
  rw [if_neg (not_at_symbol (n := "(") (d := '(') h rfl (by decide)), if_pos (at_symbol (n := "[") h rfl)]

/-- An array of a type. -/
theorem IsType.array (h : IsType s T V) :
    IsChain ('[' :: s ++ [']']) (.array T ('[' :: s ++ [']'])) (Grain.enclosed '[' ']' V) := by
  have hspells : Grain.Spells Loose ('[' :: s ++ [']']) (Grain.enclosed '[' ']' V) := h.spells.enclose ⟨rfl, by decide⟩ ⟨rfl, by decide⟩
    fun r => Grain.loose_symbol rfl r
  refine ⟨⟨hspells, rfl, fun n V' c Y hn halike hc hY _ => ?_⟩, ?_⟩
  · obtain ⟨b, rfl, hb⟩ := Grain.alike_cons.mp halike
    obtain ⟨n, rfl⟩ : ∃ k, n = k + 1 := ⟨n - 1, by simp [Grain.enclosed] at hn; omega⟩
    obtain ⟨hword, hc₁, hY₁⟩ := symbol_ahead hc hY hb.symm
    obtain ⟨c₂, hT, hl₂, hY₂⟩ := h.reads n V _ ([(⟨[], .symbol, [']']⟩ : Grain)] ++ Y) (by simp [Grain.enclosed] at hn; omega)
      (.refl V) hc₁ (hY₁.trans (List.append_assoc _ _ _)) (show ((.symbol, [']']) : Word) ∈ calm from by decide)
    obtain ⟨hword₂, hc₃, hY₃⟩ := symbol_ahead (hc₁.lead hl₂) hY₂ rfl
    have hl₃ := (hc.sound.advance 1).trans (hl₂.trans (hl₂.sound.advance 1))
    refine ⟨(plain_of_symbol hword).1, (plain_of_symbol hword).2, _, c₂.advance 1, _, ?_, .refl, hY₃⟩
    rw [simpleType_bracket hword, collectionType, consume_bind_eq_ok]
    refine (bind_of_ok hT).trans ?_
    rw [current_bind_eq_ok, if_neg (not_at_symbol (n := ":") (d := ':') hword₂ rfl (by decide)), expect_bind_eq_ok]
    refine ⟨reads_of_word hword₂, ?_⟩
    rw [sliceFrom_bind_eq_ok, hc.slice_eq hl₃ (by rw [hY, hY₃]; rfl) halike hspells.ne_nil, hspells.bare]
    rfl
  · show '[' :: Text.trim T.text ++ [']'] = _
    rw [h.text, h.trim]

/-- A dictionary of two types. -/
theorem IsType.entries {k v : Text} {K U : TypeTree} {A B : List Grain} (hk : IsType k K A)
    (hv : IsType v U B) :
    IsStem ('[' :: k ++ ": ".toList ++ v ++ [']']) (.dictionary K U ('[' :: k ++ ": ".toList ++ v ++ [']']))
      (Grain.enclosed '[' ']' (A ++ [⟨[], .symbol, [':']⟩] ++ Grain.spaced B)) := by
  have hinner := (hk.spells.append (Grain.Spells.symbol (S := Loose) (c := ':') rfl (by decide))
    fun r _ => Grain.loose_symbol rfl r).space hv.spells fun r => (Grain.halting_space r).loose
  have hspells : Grain.Spells Loose ('[' :: (k ++ [':'] ++ ' ' :: v) ++ [']']) _ := hinner.enclose ⟨rfl, by decide⟩ ⟨rfl, by decide⟩
    fun r => Grain.loose_symbol rfl r
  have htext : '[' :: k ++ ": ".toList ++ v ++ [']'] = '[' :: (k ++ [':'] ++ ' ' :: v) ++ [']'] := by simp
  rw [← htext] at hspells
  refine ⟨hspells, rfl, fun n V' c Y hn halike hc hY _ => ?_⟩
  have hlen : A.length < n ∧ (Grain.spaced B).length < n := by
    simp only [Grain.enclosed, List.length_cons, List.length_append] at hn
    omega
  have hlenB := (Grain.alike_spaced B).length_eq
  obtain ⟨b, rfl, hb⟩ := Grain.alike_cons.mp halike
  obtain ⟨n, rfl⟩ : ∃ k, n = k + 1 := ⟨n - 1, by omega⟩
  obtain ⟨hword, hc₁, hY₁⟩ := symbol_ahead hc hY hb.symm
  obtain ⟨c₂, hT, hl₂, hY₂⟩ := hk.reads n A _ ((⟨[], .symbol, [':']⟩ : Grain) :: (Grain.spaced B ++
    ([(⟨[], .symbol, [']']⟩ : Grain)] ++ Y))) (by omega) (.refl A) hc₁ (hY₁.trans (by simp))
    (show ((.symbol, [':']) : Word) ∈ calm from by decide)
  obtain ⟨hword₂, hc₃, hY₃⟩ := symbol_ahead (hc₁.lead hl₂) hY₂ rfl
  obtain ⟨c₄, hU, hl₄, hY₄⟩ := hv.reads n _ _ _ (by omega) (Grain.alike_spaced B) hc₃ hY₃
    (show ((.symbol, [']']) : Word) ∈ calm from by decide)
  obtain ⟨hword₄, hc₅, hY₅⟩ := symbol_ahead (hc₃.lead hl₄) hY₄ rfl
  have hl₅ := (hc.sound.advance 1).trans (hl₂.trans ((hl₂.sound.advance 1).trans (hl₄.trans
    (hl₄.sound.advance 1))))
  refine ⟨(plain_of_symbol hword).1, (plain_of_symbol hword).2, _, c₄.advance 1, _, ?_, .refl, hY₅⟩
  rw [simpleType_bracket hword, collectionType, consume_bind_eq_ok]
  refine (bind_of_ok hT).trans ?_
  rw [current_bind_eq_ok, if_pos (at_symbol (n := ":") hword₂ rfl), skip_bind_eq_ok]
  refine (bind_of_ok hU).trans ?_
  rw [expect_bind_eq_ok]
  refine ⟨reads_of_word hword₄, ?_⟩
  rw [sliceFrom_bind_eq_ok, hc.slice_eq hl₅ (by rw [hY, hY₅]; rfl) halike hspells.ne_nil, hspells.bare]
  rfl

/-- A dictionary of two types that are their own signatures. -/
theorem IsType.dictionary {k v : Text} {K U : TypeTree} {A B : List Grain} (hk : IsType k K A)
    (hv : IsType v U B) (hK : K.signature = k) (hU : U.signature = v) :
    IsChain ('[' :: k ++ ": ".toList ++ v ++ [']']) (.dictionary K U ('[' :: k ++ ": ".toList ++ v ++ [']']))
      (Grain.enclosed '[' ']' (A ++ [⟨[], .symbol, [':']⟩] ++ Grain.spaced B)) := by
  refine ⟨hk.entries hv, ?_⟩
  show '[' :: K.signature ++ ": ".toList ++ U.signature ++ [']'] = _
  rw [hK, hU]

end Grammar

end SwiftMacros
