import Mathlib
import SwiftMacros.Proofs.Token.Severed
import SwiftMacros.Proofs.Setter.Parts

/-! Expressions that are written as types are. A name is read as a type with its generic arguments and
with the members behind it, unless it is a word that comes in front of a type, or a member is the index
of a tuple element or one of a metatype. -/

namespace SwiftMacros

open Grain (Alike)
open SwiftMacros.Parser

/-- Whether an expression is a name that can be one of a type, generic arguments and members included. -/
def Expression.isNominal : Expression → Bool
  | .reference name _ => !Grammar.qualifiesType (.ofWord (.identifier, name))
  | .specialization base _ _ => base.isNominal
  | .member base name _ => base.isNominal && !(name.head?.any Text.isDecimal) &&
      !Grammar.isMetatypeName (.ofWord (.identifier, name))
  | _ => false

namespace Token

/-- An integer literal starts with a digit. -/
theorem Placed.isDecimal_head {s : Text} {t : Token} (h : Placed s t) (hk : t.kind = .integer) :
    t.text.head?.any Text.isDecimal = true := by
  obtain ⟨d, x, hx⟩ := List.exists_cons_of_ne_nil h.text_ne_nil
  obtain ⟨f, hf, hn⟩ := lexeme_class (hk ▸ h.lexeme_text (by simp [hk])) rfl (by decide)
  obtain rfl : f = integerLength? := by simpa [classes] using hf
  have hzero : Text.isDecimal '0' = true := isDecimal_of_isDigit rfl
  have hmarked : ∀ mark p, d ≠ '0' → markedLength? mark p (d :: x ++ s.drop t.stop) = none := fun mark p hd => by
    unfold markedLength?
    split
    next heq => exact absurd (List.cons.inj heq).1 hd
    next => rfl
  by_contra hd
  have hd : Text.isDecimal d = false := by simpa [hx] using hd
  have hne : d ≠ '0' := by
    rintro rfl
    exact Bool.false_ne_true (hd.symm.trans hzero)
  rw [hx, integerLength?, hmarked _ _ hne, hmarked _ _ hne, hmarked _ _ hne] at hn
  simp [digitsLength?, hd] at hn

end Token

namespace Grammar

variable {g : Grammar} {c c' c₁ c₂ : Cursor} {e : Expression} {T : TypeTree} {W V Y : List Grain}

/-- One more member of the type that begins at `start`. -/
def memberStep (g : Grammar) (start : Token) (node : TypeTree) : Parser (Option TypeTree) := do
  let c ← get
  let name := c.peek 1
  if c.peek.kind == .dot && name.kind == .identifier && !isMetatypeName name then do
    skip 2
    if genericsFollow (← get) then
      let _ ← g.genericClause
    return some (.member node name.text (← sliceFrom start))
  else return none

/-- Behind the name and its generic arguments there are members. -/
theorem namedType_eq {x : Text}
    (h : (if genericsFollow (c.advance 1) then g.genericClause else pure []) (c.advance 1) = .ok x c₁) :
    g.namedType c = extend (g.memberStep c.peek) (.named c.peek.text x (c₁.sliceFrom c.peek)) c₁ := by
  show (if genericsFollow (c.advance 1) = true then _ else _ : Parser TypeTree) (c.advance 1) = _
  split at h
  next hf =>
    rw [if_pos hf]
    exact bind_of_ok h
  next hf =>
    rw [if_neg hf]
    obtain ⟨rfl, rfl⟩ := pure_eq_ok.mp h
    rfl

/-- A name at `c` is read as an expression up to a cursor, with generic arguments and members behind it. -/
inductive Nominal (c : Cursor) : Expression → Cursor → Prop
  | name {c₁ : Cursor} (hk : c.peek.kind = .identifier) (hl : (c.advance 1).Leads c₁)
      (hY : c₁.grains = (c.advance 1).grains) : Nominal c (.reference c.peek.text c.peek.text) c₁
  | generics {m : Nat} {x t : Text} {c₁ : Cursor} (hk : c.peek.kind = .identifier)
      (hf : genericsFollow (c.advance 1) = true) (h : (upTo m).genericClause (c.advance 1) = .ok x c₁) :
      Nominal c (.specialization (.reference c.peek.text c.peek.text) x t) c₁
  | member {e : Expression} {t : Text} {c₁ : Cursor} (h : Nominal c e c₁) (hdot : c₁.peek.kind = .dot)
      (hname : (c₁.peek 1).kind = .identifier ∨ (c₁.peek 1).kind = .integer) :
      Nominal c (.member e (c₁.peek 1).text t) (c₁.advance 2)

/-- At `c` a name is read as a type, and members behind it up to `T`, where the grains `Y` are ahead. -/
structure Heads (g : Grammar) (c : Cursor) (Y : List Grain) : Prop where
  kind : c.peek.kind = .identifier
  unbound : typeFollows (c.peek 1) = false
  reads : ∃ base c₁ T c₂, g.namedType c = extend (g.memberStep c.peek) base c₁ ∧ (c.advance 1).Leads c₁ ∧
    c₁.Leads c₂ ∧ c₂.grains = Y ∧ ∀ k T' c₃, k ≤ c₂.grains.length → Steps (g.memberStep c.peek) k T c₂ T' c₃ →
      ∃ k' ≤ c₁.grains.length, Steps (g.memberStep c.peek) k' base c₁ T' c₃

/-- What can come behind a name that is read as a type: nothing, or a member. -/
def pointed : List Token.Word := [(.eof, []), (.dot, ['.'])]

theorem genericsFollow_pointed (hc : c.Reached) (h : Grain.lead c.grains ∈ pointed) : genericsFollow c = false := by
  have htold : c.peek.isOperatorWith "<" = false :=
    hc.told_front (Token.told_isOperatorWith '<') h (by decide)
  rw [genericsFollow, htold, Bool.false_and]

theorem Nominal.leads (h : Nominal c e c₁) (hc : c.Reached) : (c.advance 1).Leads c₁ := by
  have hc₁ := hc.lead (hc.sound.advance 1)
  induction h with
  | name _ hl _ => exact hl
  | generics _ _ h => exact ((genericClause_spec (upTo_reliable _) hc₁.sound).ok h).1
  | member _ _ _ ih => exact ih.trans (ih.sound.advance 2)

/-- A name has no generic arguments where a member or nothing comes. -/
theorem Heads.of_name (hc : c.Reached) (hk : c.peek.kind = .identifier) (hY : (c.advance 1).grains = Y)
    (hpoint : Grain.lead Y ∈ pointed) : g.Heads c Y := by
  have hc₁ := hc.lead (hc.sound.advance 1)
  have hfollows : typeFollows (c.peek 1) = false := by
    have htold : Token.Told fun t => t.kind == .identifier || t.isSymbolIn ["(", "["] :=
      (Token.told_kind (· == .identifier)).or (Token.told_isSymbolIn _)
    have := hc₁.told_front (b := false) htold (hY ▸ hpoint) (by decide)
    rw [Cursor.peek_advance] at this
    rw [typeFollows, this, Bool.and_false]
  refine ⟨hk, hfollows, _, c.advance 1, _, c.advance 1, namedType_eq (x := []) ?_, hc₁.sound.refl,
    hc₁.sound.refl, hY, fun k T' c₃ hle hsteps => ⟨k, hle, hsteps⟩⟩
  rw [if_neg (by simp [genericsFollow_pointed hc₁ (hY ▸ hpoint)])]
  rfl

/-- Generic arguments that have been read in one place are read in the other. -/
theorem Heads.of_generics {m n : Nat} {x : Text} {U : List Grain} (hc : c.Reached) (hf : genericsFollow c = true)
    (h : (upTo m).genericClause c = .ok x c₁) (hU : c.grains = U ++ c₁.grains) (hnone : Grain.Unbraced U)
    (hn : U.length ≤ n) (hc' : c'.Braceless) (hk : c'.peek.kind = .identifier)
    (hY : (c'.advance 1).grains = U ++ Y) : (upTo n).Heads c' Y := by
  have hc₁' := hc'.lead (hc'.sound.advance 1)
  have hne : U ≠ [] := by
    rintro rfl
    exact absurd (genericClause_takes (upTo_echoes m n) hc x c₁ h).2 (by rw [hU]; exact lt_irrefl _)
  obtain ⟨u, U, rfl⟩ := List.exists_cons_of_ne_nil hne
  have hfollow : genericsFollow (c'.advance 1) = true :=
    (genericsFollow_congr (S := fun _ _ => True) hc hc₁' ⟨u, _, _, hU, hY, trivial⟩).trans hf
  obtain ⟨c₂, hx, hl₂, hY₂⟩ := ((genericClause_replay (upTo_echoes m n) hc x c₁ h).2 _ hU hnone _ (.refl _)).2
    (Nat.lt_succ_of_le hn) (c'.advance 1) (c'.advance 1) Y ⟨rfl, hc₁'⟩ hY trivial
  refine ⟨hk, ?_, _, c₂, _, c₂, namedType_eq (x := x) ?_, hl₂, hl₂.sound.refl, hY₂,
    fun k T' c₃ hle hsteps => ⟨k, hle, hsteps⟩⟩
  · simp only [genericsFollow, Bool.and_eq_true] at hfollow
    have hop := hfollow.1
    simp only [Token.isOperatorWith, Cursor.peek_advance, Bool.and_eq_true, beq_iff_eq] at hop
    simp [typeFollows, Token.isSymbolIn, hop.1]
  · rw [if_pos hfollow]
    exact hx

/-- One more member is read. -/
theorem Heads.member {a b : Grain} (hc : c.Reached) (h : g.Heads c (a :: b :: Y)) (ha : a.word = (.dot, ['.']))
    (hb : b.kind = .identifier) (hm : isMetatypeName (.ofWord b.word) = false) (hpoint : Grain.lead Y ∈ pointed) :
    g.Heads c Y := by
  obtain ⟨hk, hunbound, base, c₁, T, c₂, hnamed, hl₁, hl₂, hY₂, hsteps⟩ := h
  have hc₂ := ((hc.lead (hc.sound.advance 1)).lead hl₁).lead hl₂
  have hmark : ∀ {a : Grain}, a.kind ≠ .operator → ¬ a.IsMark := fun hk ⟨_, _, h⟩ => hk (Prod.mk.inj h).1
  obtain ⟨hword, hnext⟩ := hc₂.next hY₂ (hmark (by simp [(Prod.mk.inj ha).1]))
  obtain ⟨hword', hnext'⟩ := (hc₂.lead (hc₂.sound.advance 1)).next hnext (hmark (by simp [hb]))
  rw [Cursor.peek_advance] at hword'
  rw [← Cursor.advance_add] at hnext'
  have hl₃ := hc₂.sound.advance 2
  have hfollows : (c₂.peek.kind == .dot && (c₂.peek 1).kind == .identifier && !isMetatypeName (c₂.peek 1)) = true := by
    have hdot : c₂.peek.kind = .dot := (Prod.mk.inj (hword.trans ha)).1
    have hname : (c₂.peek 1).kind = .identifier := (Prod.mk.inj hword').1.trans hb
    have hmeta : isMetatypeName (c₂.peek 1) = false := by
      rw [told_isMetatypeName, Token.view_of_kind (by simp [hname]), hword', hm]
    simp [hdot, hname, hmeta]
  have hstep : g.memberStep c.peek T c₂ = .ok (some (.member T (c₂.peek 1).text ((c₂.advance 2).sliceFrom c.peek)))
      (c₂.advance 2) := by
    rw [memberStep, get_bind_eq_ok, if_pos hfollows, skip_bind_eq_ok, get_bind_eq_ok,
      if_neg (by simp [genericsFollow_pointed (hc₂.lead hl₃) (hnext' ▸ hpoint)])]
    rfl
  refine ⟨hk, hunbound, base, c₁, .member T (c₂.peek 1).text ((c₂.advance 2).sliceFrom c.peek), c₂.advance 2,
    hnamed, hl₁, hl₂.trans hl₃, hnext', fun k T' c₃ hle hrest => ?_⟩
  refine hsteps (k + 1) T' c₃ ?_ (.step hstep hrest)
  rw [hnext'] at hle
  rw [hY₂, List.length_cons, List.length_cons]
  omega

/-- A name is the token at another cursor as well, if it has alike grains ahead. -/
theorem front_of_alike {a : Grain} {A U : List Grain} (hc : c.Reached) (hk : c.peek.kind = .identifier)
    (ha : c.grains = a :: A) (hc' : c'.Reached) (halike : Alike (a :: U) V) (hY : c'.grains = V ++ Y) :
    c'.peek.kind = .identifier ∧ (c'.advance 1).grains = U ++ Y := by
  obtain ⟨x, hx, hword, hmark⟩ := hc.grains_whole (Token.whole_of_kind (t := c.peek) (by simp [hk]) (by simp [hk]))
  obtain ⟨rfl, -⟩ := List.cons.inj (hx.symm.trans ha)
  obtain ⟨b, rfl, hab⟩ := Grain.alike_cons.mp halike
  obtain ⟨hword', hnext⟩ := hc'.next hY fun ⟨m, hm, hb⟩ => hmark ⟨m, hm, hab.trans hb⟩
  exact ⟨(congrArg Prod.fst (hword'.trans (hab.symm.trans hword))).trans hk, hnext⟩

theorem not_qualifies (hk : c.peek.kind = .identifier) {t : Text}
    (hn : (Expression.reference c.peek.text t).isNominal = true) : qualifiesType c.peek = false := by
  rw [told_qualifiesType, Token.view_of_kind (by simp [hk]), Token.word, hk]
  simpa [Expression.isNominal] using hn

/-- A name in a source is read as a type where the same grains are, whatever is before them. -/
theorem Nominal.heads (h : Nominal c e c₁) (hc : c.Reached) (hn : e.isNominal = true) : c.peek.kind = .identifier ∧
    qualifiesType c.peek = false ∧ ∀ W, c.grains = W ++ c₁.grains → Grain.Unbraced W → ∀ n V (c' : Cursor) Y,
      W.length ≤ n → Alike W V → c'.Braceless → c'.grains = V ++ Y → Grain.lead Y ∈ pointed → (upTo n).Heads c' Y := by
  have hc₁ := hc.lead (hc.sound.advance 1)
  induction h with
  | @name c₁ hk hl hY =>
    obtain ⟨a, ha, -⟩ := hc.grains_whole (Token.whole_of_kind (t := c.peek) (by simp [hk]) (by simp [hk]))
    refine ⟨hk, not_qualifies hk hn, fun W hW hnone n V c' Y hlen halike hc' hY' hpoint => ?_⟩
    obtain rfl : W = [a] := List.append_cancel_right (by rw [← hW, ha, hY]; rfl)
    obtain ⟨hk', hnext⟩ := front_of_alike hc hk ha hc'.reached halike hY'
    exact .of_name hc'.reached hk' hnext hpoint
  | @generics m x t c₁ hk hf h =>
    obtain ⟨a, ha, -⟩ := hc.grains_whole (Token.whole_of_kind (t := c.peek) (by simp [hk]) (by simp [hk]))
    obtain ⟨U, hU⟩ := hc₁.taken ((genericClause_spec (upTo_reliable _) hc₁.sound).ok h).1
    refine ⟨hk, not_qualifies (t := c.peek.text) hk hn, fun W hW hnone n V c' Y hlen halike hc' hY' hpoint => ?_⟩
    obtain rfl : W = a :: U := List.append_cancel_right (by rw [← hW, ha, hU]; rfl)
    obtain ⟨hk', hnext⟩ := front_of_alike hc hk ha hc'.reached halike hY'
    exact .of_generics hc₁ hf h hU hnone.tail ((Nat.le_succ _).trans hlen) hc' hk' hnext
  | @member e t c₁ h hdot hname ih =>
    simp only [Expression.isNominal, Bool.and_eq_true, Bool.not_eq_true'] at hn
    obtain ⟨⟨hbase, hdigit⟩, hmeta⟩ := hn
    obtain ⟨hk, hq, ih⟩ := ih hbase
    refine ⟨hk, hq, fun W hW hnone n V c' Y hlen halike hc' hY' hpoint => ?_⟩
    have hl := h.leads hc
    have hr := hc₁.lead hl
    have hr₁ := hr.lead (hr.sound.advance 1)
    have hname : (c₁.peek 1).kind = .identifier := hname.resolve_right fun hk => by
      have hk : (c₁.advance 1).peek.kind = .integer := by rwa [Cursor.peek_advance]
      have hhead := (hr₁.sound.placed_peek (by simp [hk])).isDecimal_head hk
      rw [Cursor.peek_advance] at hhead
      exact Bool.false_ne_true (hdigit.symm.trans hhead)
    obtain ⟨U, hU⟩ := hc.taken ((hc.sound.advance 1).trans hl)
    obtain ⟨a, ha, hword, -⟩ := hr.grains_whole (Token.whole_of_kind (t := c₁.peek) (by simp [hdot]) (by simp [hdot]))
    obtain ⟨b, hb, hword', -⟩ := hr₁.grains_whole (Token.whole_of_kind (t := (c₁.advance 1).peek)
      (by simp [Cursor.peek_advance, hname]) (by simp [Cursor.peek_advance, hname]))
    rw [Cursor.peek_advance] at hword'
    rw [← Cursor.advance_add] at hb
    have hrest : c₁.grains = a :: b :: (c₁.advance 2).grains := by rw [ha, hb]
    obtain rfl : W = U ++ [a, b] := List.append_cancel_right (by rw [← hW, hU, hrest, List.append_assoc]; rfl)
    have hne : U ≠ [] := by
      obtain ⟨x, hx, -⟩ := hc.grains_whole (Token.whole_of_kind (t := c.peek) (by simp [hk]) (by simp [hk]))
      have hle := hc₁.length_le hl
      rintro rfl
      rw [List.nil_append, hx] at hU
      rw [← hU, List.length_cons] at hle
      omega
    obtain ⟨V, rfl, hV⟩ := Alike.of_append halike hne
    rw [List.append_assoc] at hY'
    have hdot : a.word = (.dot, ['.']) := hword.trans (hr.sound.whole_of_dot hdot).2
    have hb : b.kind = .identifier := (Prod.mk.inj hword').1.trans hname
    have hlen : U.length ≤ n := (List.length_append ▸ Nat.le_add_right _ _ : U.length ≤ (U ++ [a, b]).length).trans hlen
    refine (ih U hU hnone.left n V c' (a :: b :: Y) hlen hV hc' hY' ?_).member hc'.reached hdot hb ?_ hpoint
    · exact List.mem_cons.mpr (.inr (List.mem_singleton.mpr hdot))
    · rw [hword', Token.word, hname]
      exact hmeta

/-- What is read of a source opens no brace if its text opens none. -/
theorem unbraced_of_text (hc : c.Reached) (hk : c.peek.kind ≠ .operator) (hl : c.Leads c₁)
    (hW : c.grains = W ++ c₁.grains) (hb : Signature.braces (c.upTo c₁) = 0) : Grain.Unbraced W := by
  cases W with
  | nil => exact fun _ h => by cases h
  | cons a W =>
    have halike : Alike (a :: W) ({ a with gap := [] } :: W) := Grain.alike_cons.mpr ⟨_, rfl, rfl⟩
    have hspell : Grain.spell ({ a with gap := [] } :: W) = c.upTo c₁ := by
      rw [hc.upTo_eq hl hW (by simp), halike.bare]
      rfl
    have hyields := (hc.stands hk hl hW).1 [] [] ⟨Token.stops_nil, by simp⟩ (.done [])
    rw [List.append_nil, List.append_nil, hspell] at hyields
    obtain ⟨c', hc', hgrains⟩ := hyields.exists_ofText
    have hnone := (Signature.braceless_ofText hc' hb).none
    rw [hgrains] at hnone
    intro b hb
    rcases List.mem_cons.mp hb with rfl | hb
    · exact hnone { b with gap := [] } List.mem_cons_self
    · exact hnone b (List.mem_cons_of_mem _ hb)

/-- Where nothing comes behind a name and its members, they have been read as a type. -/
theorem Heads.typeRule (hg : g.Pairs) (hc : c.Braceless) (hq : qualifiesType c.peek = false) (h : g.Heads c []) :
    ∃ T, Answers g.typeRule c T [] := by
  obtain ⟨hk, hunbound, base, c₁, T, c₂, hnamed, hl₁, hl₂, hnil, hsteps⟩ := h
  have hc₁ := (hc.lead (hc.sound.advance 1)).lead hl₁
  have hstop : g.memberStep c.peek T c₂ = .ok none c₂ := by
    have heof : c₂.peek.kind = .eof := by
      rw [← Token.view_fst, ((hc₁.lead hl₂).reached.peek_of_nil hnil).2]
    rw [memberStep, get_bind_eq_ok, if_neg (by simp [heof])]
    rfl
  obtain ⟨k, hk', hsteps⟩ := hsteps 0 T c₂ (Nat.zero_le _) (.stop hstop)
  have hsymbol : ∀ n, c.peek.isSymbol n = false := fun n => by simp [Token.isSymbol, Token.has, hk]
  have hsimple : g.simpleType c = .ok T c₂ := by
    rw [simpleType, current_bind_eq_ok, if_neg (by simp [hsymbol]), if_neg (by simp [hsymbol]), if_pos (by simp [hk]),
      hnamed]
    exact extend_eq_ok.mpr ⟨k, hk'.trans hc₁.reached.length_le_room, hsteps⟩
  have hclimbs : g.Climbs c T [] := ⟨hq, by rw [hunbound, Bool.and_false], T, c₂, c₂, hsimple, .refl, hnil⟩
  exact ⟨T, hclimbs.typeRule hg hc (by decide)⟩

/-- A name is a type as it is written. -/
theorem Nominal.signed (h : Nominal c e c₁) (hc : c.Reached) (hn : e.isNominal = true)
    (hb : Signature.braces (c.upTo c₁) = 0) : Signature.Signed (c.upTo c₁) := by
  obtain ⟨hk, hq, hheads⟩ := h.heads hc hn
  have hl := (hc.sound.advance 1).trans (h.leads hc)
  have hlt := hc.sound.peek_lt (by simp [hk]) (h.leads hc)
  obtain ⟨W, hW⟩ := hc.taken hl
  have hnone := unbraced_of_text hc (by simp [hk]) hl hW hb
  obtain ⟨V, halike, hspells, -⟩ := hc.spells (by simp [hk]) hl hlt hW hnone
  obtain ⟨c', -, hc', hV⟩ := hspells.exists_ofText ⟨Token.stops_nil, by simp⟩
  have hne : W ≠ [] := by
    rintro rfl
    exact absurd (hc.grains_lt hl hlt) (by rw [hW]; exact lt_irrefl _)
  have hq' : qualifiesType c'.peek = false := by
    refine (hc.told_eq hc'.reached told_qualifiesType ?_).trans hq
    have := halike.lead hne []
    rw [List.append_nil] at this
    rw [hV, hW, Grain.lead_append hne, this]
  -- by itself, the name is a source that ends behind it
  obtain ⟨T, c₂, hT, hl₂, hnil⟩ := (hheads W hW hnone W.length V c' [] le_rfl halike hc'
    (by rw [hV, List.append_nil]) (by decide)).typeRule (upTo_pairs _) hc' hq'
  obtain ⟨V', hV'⟩ := IsType.of_typeRule hc' hT
  have htext : T.text = c.upTo c₁ := by
    rw [((typeRule_spec (upTo_reliable _) hc'.sound).ok hT).2.text, hc'.reached.upTo_eq hl₂
      (by rw [hV, hnil, List.append_nil]) hspells.ne_nil, hspells.bare]
  exact ⟨T, V', htext ▸ hV'⟩

/-- A name is read as one, also behind an attempt to read generic arguments. -/
theorem Nominal.of_nameExpression {m : Nat} (hc : c.Reached) (hk : c.peek.kind = .identifier)
    (h : (upTo m).nameExpression c = .ok e c₁) : Nominal c e c₁ := by
  have hs₁ := hc.sound.advance 1
  rcases ite_eq_ok.mp (get_bind_eq_ok.mp (consume_bind_eq_ok.mp h)) with ⟨hf, h⟩ | ⟨-, h⟩
  · obtain ⟨o, c₂, ho, h⟩ := of_bind_ok h
    cases o with
    | none =>
      obtain ⟨rfl, rfl⟩ := pure_eq_ok.mp h
      obtain ⟨err, c₃, he, rfl⟩ := attempt_eq_none.mp ho
      have hl := (specializationClause_spec (upTo_reliable m) hs₁.sound).error he
      exact .name hk hl.rewind.1 ((hc.lead hs₁).grains_rewind hl)
    | some x =>
      rw [sliceFrom_bind_eq_ok, pure_eq_ok] at h
      obtain ⟨rfl, rfl⟩ := h
      obtain ⟨x', c₃, hx, h⟩ := of_bind_ok (attempt_eq_some.mp ho)
      rcases ite_eq_ok.mp (current_bind_eq_ok.mp h) with ⟨-, h⟩ | ⟨-, h⟩
      · obtain ⟨rfl, rfl⟩ := pure_eq_ok.mp h
        exact .generics hk hf hx
      · cases h
  · obtain ⟨rfl, rfl⟩ := pure_eq_ok.mp h
    exact .name hk hs₁.sound.refl rfl

/-- The words that are no names are not written as types are. -/
theorem Nominal.of_wordExpression {m : Nat} (hc : c.Reached) (hk : c.peek.kind = .identifier)
    (h : (upTo m).wordExpression c = .ok e c₁) (hn : e.isNominal = true) : Nominal c e c₁ := by
  rcases ite_eq_ok.mp (current_bind_eq_ok.mp h) with ⟨-, h⟩ | ⟨-, h⟩
  · rw [skip_bind_eq_ok, pure_eq_ok] at h
    obtain ⟨rfl, -⟩ := h
    cases hn
  rcases ite_eq_ok.mp h with ⟨-, h⟩ | ⟨-, h⟩
  · rw [skip_bind_eq_ok, pure_eq_ok] at h
    obtain ⟨rfl, -⟩ := h
    cases hn
  rcases ite_eq_ok.mp h with ⟨-, h⟩ | ⟨-, h⟩
  · obtain ⟨-, c₂, -, h⟩ := of_bind_ok (consume_bind_eq_ok.mp h)
    rw [sliceFrom_bind_eq_ok, pure_eq_ok] at h
    obtain ⟨rfl, -⟩ := h
    cases hn
  · exact .of_nameExpression hc hk h

/-- What is behind an operand is a member, or it is written as no type is and stands for itself, or it is
a call and stands for what is called. -/
theorem suffixStep_cases {start : Token} {e' : Expression} (h : g.suffixStep start e c = .ok (some e') c₁) :
    (∃ t, c.peek.kind = .dot ∧ ((c.peek 1).kind = .identifier ∨ (c.peek 1).kind = .integer) ∧
      e' = .member e (c.peek 1).text t ∧ c₁ = c.advance 2) ∨
    e'.isNominal = false ∧ (e'.parts = [.source e'] ∨ e'.parts = [.source e]) := by
  rcases ite_eq_ok.mp (get_bind_eq_ok.mp h) with ⟨hm, h⟩ | ⟨-, h⟩
  · simp only [Bool.and_eq_true, Bool.or_eq_true, beq_iff_eq] at hm
    rw [skip_bind_eq_ok, sliceFrom_bind_eq_ok, pure_eq_ok] at h
    obtain ⟨he, rfl⟩ := h
    exact .inl ⟨_, hm.1, hm.2, (Option.some.inj he).symm, rfl⟩
  refine .inr ?_
  rcases ite_eq_ok.mp h with ⟨-, h⟩ | ⟨-, h⟩
  · obtain ⟨as, c₂, -, h⟩ := of_bind_ok h
    obtain ⟨k, c₃, -, h⟩ := of_bind_ok h
    rw [sliceFrom_bind_eq_ok, pure_eq_ok] at h
    obtain ⟨⟨⟩, -⟩ := h
    exact ⟨rfl, .inr rfl⟩
  rcases ite_eq_ok.mp h with ⟨-, h⟩ | ⟨-, h⟩
  · obtain ⟨as, c₂, -, h⟩ := of_bind_ok h
    rw [sliceFrom_bind_eq_ok, pure_eq_ok] at h
    obtain ⟨⟨⟩, -⟩ := h
    exact ⟨rfl, .inl rfl⟩
  rcases ite_eq_ok.mp h with ⟨-, h⟩ | ⟨-, h⟩
  · obtain ⟨k, c₂, -, h⟩ := of_bind_ok h
    rw [sliceFrom_bind_eq_ok, pure_eq_ok] at h
    obtain ⟨⟨⟩, -⟩ := h
    exact ⟨rfl, .inr rfl⟩
  rcases ite_eq_ok.mp h with ⟨-, h⟩ | ⟨-, h⟩
  · rw [consumePart_bind_eq_ok, sliceFrom_bind_eq_ok, pure_eq_ok] at h
    obtain ⟨⟨⟩, -⟩ := h
    exact ⟨rfl, .inl rfl⟩
  · cases (pure_eq_ok.mp h).1

/-- Where no suffix is, nothing is taken. -/
theorem suffixStep_eq_none {start : Token} (h : g.suffixStep start e c = .ok none c₁) : c₁ = c := by
  have hsome : ∀ {p : Parser Text} {f : Text → Expression} {c}, (p >>= fun x => pure (some (f x))) c ≠ .ok none c₁ :=
    fun {p f c} h => by
      obtain ⟨x, c₂, -, h⟩ := of_bind_ok h
      cases (pure_eq_ok.mp h).1
  rcases ite_eq_ok.mp (get_bind_eq_ok.mp h) with ⟨-, h⟩ | ⟨-, h⟩
  · exact absurd (skip_bind_eq_ok.mp h) hsome
  rcases ite_eq_ok.mp h with ⟨-, h⟩ | ⟨-, h⟩
  · obtain ⟨as, c₂, -, h⟩ := of_bind_ok h
    obtain ⟨k, c₃, -, h⟩ := of_bind_ok h
    exact absurd h hsome
  rcases ite_eq_ok.mp h with ⟨-, h⟩ | ⟨-, h⟩
  · obtain ⟨as, c₂, -, h⟩ := of_bind_ok h
    exact absurd h hsome
  rcases ite_eq_ok.mp h with ⟨-, h⟩ | ⟨-, h⟩
  · obtain ⟨k, c₂, -, h⟩ := of_bind_ok h
    exact absurd h hsome
  rcases ite_eq_ok.mp h with ⟨-, h⟩ | ⟨-, h⟩
  · exact absurd (consumePart_bind_eq_ok.mp h) hsome
  · exact (pure_eq_ok.mp h).2.symm


end Grammar

end SwiftMacros
