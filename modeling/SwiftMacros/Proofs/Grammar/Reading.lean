import Mathlib
import SwiftMacros.Proofs.Cursor.Slice
import SwiftMacros.Proofs.Parser.Spec
import SwiftMacros.Grammar.Basic
import SwiftMacros.Setter.Signature

/-! What the rules of the grammar answer with, told by the cursors before and behind. A type and an
expression keep the source between the two, and the signatures they yield are legible and have no
carriage return that is not in the source. -/

namespace SwiftMacros

open Token (Word Reads Legible LegibleIn Sturdy Placed)
open SwiftMacros.Parser (Spec)

namespace Token

variable {t : Token}

theorem kind_of_isSymbol {text : String} (h : t.isSymbol text = true) : t.kind = .symbol := by
  simp only [isSymbol, has, Bool.and_eq_true, beq_iff_eq] at h
  exact h.1

theorem word_of_isSymbol {text : String} (h : t.isSymbol text = true) :
    t.word = (.symbol, text.toList) := by
  simp only [isSymbol, has, Bool.and_eq_true, beq_iff_eq] at h
  exact Prod.ext h.1 h.2

theorem kind_of_isIdentifierIn {words : List String} (h : t.isIdentifierIn words = true) :
    t.kind = .identifier := by
  simp only [isIdentifierIn, Bool.and_eq_true, beq_iff_eq] at h
  exact h.1

theorem kind_of_has {kind : Kind} {text : String} (h : t.has kind text = true) : t.kind = kind := by
  simp only [has, Bool.and_eq_true, beq_iff_eq] at h
  exact h.1

theorem kind_of_isOpener (h : t.isOpener = true) : t.kind = .symbol := by
  simp only [isOpener, isSymbolIn, Bool.and_eq_true, beq_iff_eq] at h
  exact h.1

theorem mark_of_isMark (h : t.isMark = true) :
    t.kind = .operator ∧ ∃ m, t.text.head? = some m ∧ isMarkChar m = true := by
  simp only [isMark, Bool.and_eq_true, Bool.or_eq_true, beq_iff_eq] at h
  refine ⟨h.1, ?_⟩
  rcases h.2 with hm | hm
  · exact ⟨_, hm, rfl⟩
  · exact ⟨_, hm, rfl⟩

end Token

theorem Cursor.Leads.flat_upTo {c c' : Cursor} (h : c.Leads c') (hr : '\r' ∉ c.source) :
    '\r' ∉ c.upTo c' := Text.not_mem_slice (h.source ▸ hr) _ _

/-- The texts are, one after the other, the lexemes of the source between the two cursors, if the
source is cut behind them. -/
structure Cursor.Reading (c c' : Cursor) (ts : List Text) (lss : List (List Word)) : Prop where
  texts : ts.Forall₂ (fun t ls => Reads t ls []) lss
  flat : '\r' ∉ c'.source → ∀ t ∈ ts, '\r' ∉ t
  source : Cut c'.source c'.edge → Cut c'.source c.edge ∧
    Reads (c'.source.drop c.edge) lss.flatten (c'.source.drop c'.edge)

namespace Cursor.Reading

variable {c c' c'' : Cursor} {ts us : List Text} {lss mss : List (List Word)}

theorem nil (h : c'.edge = c.edge) : c.Reading c' [] [] := by
  refine ⟨.nil, by simp, fun hc => ?_⟩
  rw [h] at hc ⊢
  exact ⟨hc, .done _⟩

theorem trans (h : c.Reading c' ts lss) (h' : c'.Reading c'' us mss) (hs : c''.source = c'.source) :
    c.Reading c'' (ts ++ us) (lss ++ mss) := by
  refine ⟨List.rel_append h.texts h'.texts, fun hr => ?_, fun hc => ?_⟩
  · simpa [or_imp, forall_and] using ⟨h.flat (hs ▸ hr), h'.flat hr⟩
  obtain ⟨hc', hr'⟩ := h'.source hc
  rw [hs] at hc'
  obtain ⟨hcut, hr⟩ := h.source hc'
  rw [← hs] at hcut hr
  rw [List.flatten_append]
  exact ⟨hcut, hr.trans hr'⟩

/-- Where the source is cut, it is read as the texts are. -/
theorem reads {s : Text} (h : c.Reading c' ts lss) (hs : c'.source = s) (hc : Cut s c'.edge) :
    Cut s c.edge ∧ Reads (s.drop c.edge) lss.flatten (s.drop c'.edge) := by
  subst hs
  exact h.source hc

theorem join_option {o : Option Text} {lss : List (List Word)} (h : c.Reading c' o.toList lss) :
    Reads (o.getD []) lss.flatten [] := by
  cases o with
  | none =>
    obtain rfl := List.forall₂_nil_left_iff.mp h.texts
    exact .done []
  | some t =>
    obtain ⟨ls, rest, ht, hrest, rfl⟩ := List.forall₂_cons_left_iff.mp h.texts
    obtain rfl := List.forall₂_nil_left_iff.mp hrest
    simpa using ht

/-- A part of the source that starts with the token at a cursor. -/
theorem upTo (hs : c.Sound) (h : c.Leads c') (hlt : c.peek.start < c'.edge)
    (hk : c.peek.kind ≠ .operator ∨ ∃ t ∈ c.behind.head?, t.kind ≠ .operator) :
    ∃ ls, c.Reading c' [c.upTo c'] [ls] := by
  have heof := h.peek_ne_eof hlt hs
  obtain ⟨hedge, hread⟩ := hs.cut_edge hk heof
  have hcut := hs.cut_peek hk heof
  rw [← h.source] at hedge hread hcut
  have hflat : '\r' ∉ c'.source → ∀ t ∈ [c.upTo c'], '\r' ∉ t := fun hr => by
    simpa using h.flat_upTo (h.source ▸ hr)
  by_cases hc : Cut c'.source c'.edge
  · obtain ⟨ls, hls⟩ := hcut.reads hc hlt.le
    refine ⟨ls, .cons (reads_slice hlt.le hls) .nil, hflat, fun _ => ⟨hedge, ?_⟩⟩
    simpa using hread.trans hls
  · obtain ⟨ls, hls⟩ := h.legible_upTo hlt hcut
    exact ⟨ls, .cons hls .nil, hflat, fun h => absurd h hc⟩

end Cursor.Reading

/-- The cursor is behind a name, a symbol or a single mark. -/
def Cursor.Firm (c : Cursor) : Prop := ∃ t ∈ c.behind.head?, t.Firm

/-- The cursor is behind a token that is no operator. -/
def Cursor.Blunt (c : Cursor) : Prop := ∃ t ∈ c.behind.head?, t.kind ≠ .operator

structure ReadsType (c : Cursor) (T : TypeTree) (c' : Cursor) : Prop where
  lt : c.peek.start < c'.edge
  cut : Cut c'.source c.peek.start
  text : T.text = c.upTo c'
  firm : c'.Firm
  sturdy : Sturdy T.signature
  flat : '\r' ∉ c.source → '\r' ∉ T.signature

theorem ReadsType.legible {c c' : Cursor} {T : TypeTree} (h : ReadsType c T c') :
    LegibleIn c.source T.signature := ⟨h.sturdy.legible, h.flat⟩

/-- The signature of an expression can be told only if the source can be cut before it. -/
structure ReadsExpression (c : Cursor) (e : Expression) (c' : Cursor) : Prop where
  lt : c.peek.start < c'.edge
  text : e.toText = c.upTo c'
  legible : Cut c'.source c.peek.start → LegibleIn c.source e.signature
  operand : ∀ T t, e = .typeOperand T t → LegibleIn c.source T.signature

/-- A grammar whose rules read types and expressions. -/
structure Grammar.Reliable (g : Grammar) : Prop where
  type : ∀ c : Cursor, c.Sound → Spec g.type c (ReadsType c)
  constraint : ∀ c : Cursor, c.Sound → Spec g.constraint c (ReadsType c)
  expression : ∀ c : Cursor, c.Sound → Spec g.expression c (ReadsExpression c)
  operand : ∀ c : Cursor, c.Sound → Spec g.operand c (ReadsExpression c)

namespace Cursor

variable {c c' : Cursor}

theorem Leads.legibleIn_upTo (h : c.Leads c') (hlt : c.peek.start < c'.edge)
    (hcut : Cut c'.source c.peek.start) : LegibleIn c.source (c.upTo c') :=
  ⟨h.legible_upTo hlt hcut, h.flat_upTo⟩

/-- What stands between two cursors is sturdy behind a name, a symbol or a mark. -/
theorem Leads.sturdy_upTo (h : c.Leads c') (hlt : c.peek.start < c'.edge) (hf : c'.Firm)
    (hcut : Cut c'.source c.peek.start) : Sturdy (c.upTo c') := by
  obtain ⟨t, ts, hb, ht, hplaced⟩ := h.last_between hlt
  obtain ⟨u, hu, hfirm⟩ := hf
  obtain rfl : t = u := by simpa [hb] using hu
  rw [upTo, ← ht]
  exact hplaced.sturdy_slice hfirm hcut (by omega)

/-- A token that is no operator has been taken. -/
theorem firm_of_kind {t : Token} {ts : List Token} (h : c.behind = t :: ts)
    (hk : t.kind = .identifier ∨ t.kind = .symbol) : c.Firm :=
  ⟨t, by simp [h], hk.imp_right .inl⟩

theorem blunt_of_kind {t : Token} {ts : List Token} (h : c.behind = t :: ts)
    (hk : t.kind ≠ .operator) : c.Blunt := ⟨t, by simp [h], hk⟩

theorem Sound.blunt_advance (h : c.Sound) (hk : c.peek.kind ≠ .operator) (he : c.peek.kind ≠ .eof) :
    (c.advance 1).Blunt := blunt_of_kind (h.behind_advance he) hk

theorem Sound.firm_advance (h : c.Sound) (hk : c.peek.kind = .identifier ∨ c.peek.kind = .symbol) :
    (c.advance 1).Firm :=
  firm_of_kind (h.behind_advance (by rcases hk with hk | hk <;> simp [hk])) hk

/-- A symbol that has been asked for by its text. -/
theorem Sound.kind_of_reads (h : c.Sound) {m : Char} (hm : Token.isSymbolChar m = true)
    (hr : c.peek.reads [m] = true) : c.peek.kind = .symbol := by
  simp only [Token.reads, Bool.and_eq_true, beq_iff_eq, bne_iff_ne] at hr
  exact (h.placed_peek hr.2).kind_of_symbol hm hr.1.1

theorem Sound.firm_of_reads (h : c.Sound) {m : Char} (hm : Token.isSymbolChar m = true)
    (hr : c.peek.reads [m] = true) : (c.advance 1).Firm :=
  h.firm_advance (.inr (h.kind_of_reads hm hr))

end Cursor

/-- A token that is no operator is read as it stands. -/
theorem Cursor.Sound.reads_advance {c : Cursor} (h : c.Sound) (hk : c.peek.kind ≠ .operator)
    (he : c.peek.kind ≠ .eof) : Cut c.source (c.advance 1).edge ∧ Cut c.source c.edge ∧
      Reads (c.source.drop c.edge) [c.peek.word] (c.source.drop (c.advance 1).edge) := by
  obtain ⟨hcut, hread⟩ := h.cut_edge (.inl hk) he
  have hplaced := h.placed_peek he
  rw [h.edge_advance he]
  exact ⟨hplaced.cut_stop hk, hcut, hread.trans (hplaced.reads hk)⟩

/-- A property of the items between two marks. Each item stands behind the opening mark or a comma. -/
theorem Parser.Spec.listed {α : Type} {P : α → Prop} {c : Cursor} {first last : String}
    {separator : Wanted} {item : Parser α} (hs : c.Sound) (hfirst : c.peek.isSymbol first = true)
    (hitem : ∀ c', (c.advance 1).Leads c' → c'.Blunt → Spec item c' fun a _ => P a) :
    Spec (Parser.bracketed first last separator item) c fun as c' =>
      (∀ a ∈ as, P a) ∧ c'.Firm ∧ c.peek.start < c'.edge := by
  have hk := Token.kind_of_isSymbol hfirst
  have heof : c.peek.kind ≠ .eof := by simp [hk]
  refine (Spec.bracketed (I := fun as c' => (∀ a ∈ as, P a) ∧
    (c'.peek.isSymbol last = false → c'.Blunt)) hs ⟨by simp, fun _ => ?_⟩
    fun as c' hl hi hlast => ?_).mono fun as c' _ ⟨c'', hl, hi, hlast, heq⟩ => ?_
  · exact hs.blunt_advance (by simp [hk]) heof
  · refine (hitem c' hl (hi.2 hlast)).mono fun a c'' hl' ha => ?_
    have hall : ∀ b ∈ as ++ [a], P b := by simpa [or_imp, forall_and] using ⟨hi.1, ha⟩
    refine ⟨fun hcomma => ⟨hall, fun _ => ?_⟩, fun hend => ⟨hall, by simp [hend]⟩⟩
    have hcomma := Token.kind_of_isSymbol hcomma
    exact hl'.sound.blunt_advance (by simp [hcomma]) (by simp [hcomma])
  · have hend := Token.kind_of_isSymbol hlast
    subst heq
    refine ⟨hi.1, hl.sound.firm_advance (.inr hend), ?_⟩
    exact hs.peek_lt heof (hl.trans (hl.sound.advance 1))

end SwiftMacros
