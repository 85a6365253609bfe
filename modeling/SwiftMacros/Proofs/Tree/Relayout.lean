import Mathlib
import SwiftMacros.Proofs.Grammar.Redivided
import SwiftMacros.Proofs.Grammar.Accessors
import SwiftMacros.Proofs.Layout

/-! Laying a closure out twice. The text of a closure that has been laid out is read as a closure again, with
the same signature and the same lines, however its statements are put together the second time. -/

namespace SwiftMacros

open Token (Setting Twin Stretch Matched Laid Reads mark dropSeparators)
open SwiftMacros.Parser

/-- What stands in front of the body of a closure that is laid out. -/
def Signature.opening : Option Signature → Text
  | some s => "\x7b ".toList ++ s.toText
  | none => "\x7b".toList

theorem Closure.layout_eq (k : Closure) (unit : Text) :
    k.layout unit = Signature.opening k.signature ++ Text.body (k.statements.map (Statement.layout unit)) := by
  obtain ⟨signature, statements, text, unit'⟩ := k
  rw [← closureLayout_eq]
  cases signature <;> rfl

theorem Signature.exists_opening (s : Option Signature) : ∃ x, opening s = '\x7b' :: x := by
  cases s with
  | none => exact ⟨[], rfl⟩
  | some s => exact ⟨_, rfl⟩

/-- A text that is read to its end, from the opening brace on. -/
structure Cursor.Braced (t : Text) (c : Cursor) (o : Token) (T : List Token) (g : Token.Gap) : Prop where
  cursor : ofText t = .ok c
  ahead : c.ahead = o :: T
  word : o.word = mark '\x7b'
  start : o.start = 0
  stop : o.stop = 1
  stretch : Stretch t 1 t.length {} g T []

theorem Cursor.exists_braced {t x : Text} {ls : List Token.Word} (h : Reads t ls []) (ht : t = '\x7b' :: x) :
    ∃ c o T g, Braced t c o T g := by
  obtain ⟨c, hc, -⟩ := Cursor.exists_ofText h (.inl rfl)
  obtain ⟨-, hbehind, hlaid, -⟩ := Cursor.laid_ofText hc
  have hspaced := Cursor.spaced_ofText hc
  rw [Cursor.inner, hbehind, List.reverse_nil, List.nil_append] at hlaid hspaced
  obtain ⟨g, hall⟩ := hlaid.stretch_end hspaced (cut_zero t) h
  obtain ⟨o, T, hahead, hspot, hstart, hstop, hT⟩ := hall.skip_symbol (c := '\x7b') (r := x) ht rfl (by simp [ht])
  exact ⟨c, o, T, g, hc, hahead, congrArg Prod.snd hspot, hstart, hstop, hT⟩

namespace Cursor.Braced

variable {t : Text} {c : Cursor} {o : Token} {T : List Token} {g : Token.Gap} (h : Braced t c o T g)
include h

theorem sound : c.Sound := (sound_ofText h.cursor).1

theorem source : (c.advance 1).source = t := (sound_ofText h.cursor).2.1

theorem peek : c.peek = o := by simp [Cursor.peek, h.ahead]

theorem ahead_inside : (c.advance 1).ahead = T := by simp [advance, h.ahead]

theorem behind_inside : (c.advance 1).behind = [o] := by
  have hk : o.kind = .symbol := congrArg Prod.fst h.word
  rw [h.sound.behind_advance (by simp [h.peek, hk]), h.peek, (sound_ofText h.cursor).2.2]

theorem laid : Laid t 1 T := (List.append_nil T) ▸ h.stretch.laid

theorem spaced : Token.Spaced t 1 T := by
  have hall := spaced_ofText h.cursor
  rw [inner, (sound_ofText h.cursor).2.2, h.ahead] at hall
  exact h.stop ▸ hall.2.2

end Cursor.Braced

/-- A closure that is read from `c` on, in brackets that the brace `e` closes. Its body starts at `c₁`. -/
structure Closure.Enclosed (k : Closure) (t : Text) (c c₁ : Cursor) (o e : Token) (W Y : List Token) (n : Nat) :
    Prop where
  cursor : Cursor.ofText t = .ok c
  ahead : c.ahead = o :: W ++ e :: Y
  opening : o.reads ['\x7b'] = true
  brace : e.isSymbol "\x7d" = true
  nested : Token.nested [] W = true
  fenced : (c.advance 1).Fenced [e]
  signature : attempt (Grammar.upTo (c.room + 1)).closureSignature (c.advance 1) = .ok k.signature c₁
  statements : Grammar.statementsFrom c₁.source c₁.eof
    { start := c₁.previous.stop + ((c₁.source.drop c₁.previous.stop).takeWhile Text.isBlank).length } c₁.ahead =
      some (k.statements, n)
  closing : (c₁.advance n).peek.reads ['\x7d'] = true

theorem Closure.exists_enclosed {t : Text} {k : Closure} {c : Cursor} {o e : Token} {W Y : List Token}
    (hk : runOn closure t = .ok k) (hc : Cursor.ofText t = .ok c) (hahead : c.ahead = o :: W ++ e :: Y)
    (he : e.isSymbol "\x7d" = true) (hW : Token.nested [] W = true) (hsettled : Token.settled W = true) :
    ∃ c₁ n, k.Enclosed t c c₁ o e W Y n := by
  obtain ⟨d, c', hd, hrun⟩ := Parser.runOn_eq_ok.mp hk
  obtain rfl : c = d := by simpa [hc] using hd
  obtain ⟨c₁, n, hopen, hsig, hss, hclose, -⟩ := Grammar.closureRule_eq_ok.mp (get_bind_eq_ok.mp hrun)
  obtain ⟨ds, hds, -, hfenced⟩ := Token.Fenced.of_nested hW hsettled (Token.isCloser_of_isSymbol he (by simp)) (.done Y)
  obtain rfl : ds = [] := by simpa using hds
  have hpeek : c.peek = o := by simp [Cursor.peek, hahead]
  have hfenced' : (c.advance 1).Fenced [e] :=
    ⟨((Cursor.sound_ofText hc).1.advance 1).sound, by simpa [Cursor.advance, hahead] using hfenced⟩
  exact ⟨c₁, n, hc, hahead, hpeek ▸ hopen, he, hW, hfenced', hsig, hss, hclose⟩

namespace Closure.Enclosed

variable {t : Text} {k : Closure} {c c₁ : Cursor} {o e : Token} {W Y : List Token} {n : Nat}
  (h : k.Enclosed t c c₁ o e W Y n)
include h

theorem sound : c.Sound := (Cursor.sound_ofText h.cursor).1

theorem source : c.source = t := (Cursor.sound_ofText h.cursor).2.1

theorem peek : c.peek = o := by simp [Cursor.peek, h.ahead]

theorem ahead_inside : (c.advance 1).ahead = W ++ e :: Y := by simp [Cursor.advance, h.ahead]

theorem kind_opening : o.kind = .symbol := h.sound.kind_of_reads (m := '\x7b') rfl (h.peek ▸ h.opening) ▸ h.peek ▸ rfl

theorem behind_inside : (c.advance 1).behind = [o] := by
  rw [h.sound.behind_advance (by simp [h.peek, h.kind_opening]), h.peek, (Cursor.sound_ofText h.cursor).2.2]

theorem laid_inside : Laid t o.stop (W ++ e :: Y) ∧ Token.Spaced t o.stop (W ++ e :: Y) := by
  obtain ⟨-, hbehind, hlaid, -⟩ := Cursor.laid_ofText h.cursor
  have hspaced := Cursor.spaced_ofText h.cursor
  rw [Cursor.inner, hbehind, h.ahead] at hlaid hspaced
  exact ⟨hlaid.tail, hspaced.2.2⟩

theorem cut_opening : Cut t o.stop := by
  rw [← h.source]
  exact (h.sound.placed_ahead (t := o) (by simp [h.ahead])).cut_stop (by simp [h.kind_opening])

theorem leads : (c.advance 1).Leads c₁ ∧ (k.signature = none → c₁.behind = [o]) := by
  obtain ⟨hl, -, hnone⟩ := (Spec.attempt (Grammar.closureSignature_spec (Grammar.upTo_reliable _) h.fenced.sound)).ok
    h.signature
  exact ⟨hl, fun hk => (hnone hk).trans h.behind_inside⟩

theorem reached : c₁.Reached :=
  (Cursor.reached_ofText h.cursor).lead ((h.sound.advance 1).trans h.leads.1)

theorem inside : c₁.Fenced [e] :=
  Stays.attempt h.fenced (Grammar.closureSignature_spec (Grammar.upTo_reliable _) h.fenced.sound)
    (Grammar.closureSignature_stays (Grammar.upTo_fences _) h.fenced) _ _ h.signature

theorem source_inside : c₁.source = t := h.leads.1.source.trans h.source

/-- The source is divided into the statements of the closure. -/
theorem body {x : Token} (hx : c₁.behind.head? = some x) (hk : x.kind ≠ .operator) :
    ∃ i, c₁.BodyStart c₁.peek i ∧ c₁.ahead[n]? = some e ∧
      Grammar.statementsFrom c₁.source c₁.eof { start := i } c₁.ahead = some (k.statements, n) ∧
      Spans t i (Grammar.starts c₁.eof { start := i } c₁.ahead) k.statements e.start := by
  have hpeek := h.inside.sound.placed_ahead (t := c₁.peek) (by rw [h.inside.ahead_eq]; simp)
  have hcut := (h.inside.sound.cut_edge (.inr ⟨x, hx, hk⟩) hpeek.ne_eof).1
  have hw := ((h.sound.advance 1).trans h.leads.1).within_source (Cursor.within_ofText h.cursor)
  obtain ⟨hstart, hn, hspans⟩ := h.reached.body_spans h.inside h.brace hw hcut (by rintro hnil; simp [hnil] at hx) rfl
    h.statements h.closing
  exact ⟨_, hstart, hn, h.statements, h.source_inside ▸ hspans⟩

end Closure.Enclosed

/-- A token of a body up to `z`, in which no statement starts, and the one of another body that stands for it. -/
def Token.Matches (A A' : Nat → Prop) (front z : Nat) (t t' : Token) : Prop :=
  t.start < z → Matched A A' front t t' ∧ ∀ p, A p → p ≤ t.start ∨ t.start + t.text.length ≤ p

theorem Token.Matches.split {A A' : Nat → Prop} {front z : Nat} {t t' : Token} (h : Matches A A' front z t t')
    (hk : t.kind = .operator) (hlen : 1 < t.text.length) :
    Matches A A' front z t.front t'.front ∧ Matches A A' front z t.back t'.back := by
  constructor
  · intro hlt
    obtain ⟨hmatched, -⟩ := h hlt
    refine ⟨⟨⟨hmatched.kind, fun _ => ?_⟩, hmatched.opens, hmatched.gap⟩, fun p _ => ?_⟩
    · simp [Token.front, hmatched.text (by simp [hk])]
    · simp only [Token.front, List.length_take]
      omega
  · intro hlt
    have hlt' : t.start + 1 < z := hlt
    obtain ⟨hmatched, hapart⟩ := h (by omega)
    -- no statement starts within an operator
    have hno : ¬ A (t.start + 1) := fun hA => by
      rcases hapart _ hA with hle | hle <;> omega
    refine ⟨⟨⟨hmatched.kind, fun _ => ?_⟩, fun hA => absurd hA hno, fun _ _ => ⟨rfl, rfl⟩⟩, fun p hp => ?_⟩
    · simp [Token.back, hmatched.text (by simp [hk])]
    · have := hapart p hp
      have hne : p ≠ t.start + 1 := by
        rintro rfl
        exact hno hp
      simp only [Token.back, List.length_drop]
      omega

/-- Two bodies up to their closing braces. The first tokens of statements start lines in the second one. -/
def Token.Setting.bodies (A A' : Nat → Prop) (front : Nat) (e e' : Token) (Y : List Token) (he : e.isCloser = true) :
    Setting where
  place := Matches A A' front e.start
  front := front
  last := e
  last' := e'
  rest := Y
  rest' := []
  splits _ _ h hk hlen := h.split hk hlen
  ends := .inl he

/-- Bodies with the same lines are the same to a parser. -/
theorem Token.Twins.of_matched {A A' : Nat → Prop} {front : Nat} {e e' : Token} {W vs Y : List Token}
    (hcloser : e.isCloser = true) (hmatched : W.Forall₂ (Matched A A' front) vs) (hnested : Token.nested [] W = true)
    (hword : e'.word = e.word) (hbreaks : ∀ u ∈ W, A u.start → u.newlineBefore = true ∧ u.spaceBefore = true)
    (hapart : ∀ u ∈ W, ∀ p, A p → p ≤ u.start ∨ u.start + u.text.length ≤ p) :
    Token.Twins (.bodies A A' front e e' Y hcloser) [] (W ++ e :: Y) (vs ++ [e']) := by
  refine .of_nested (S := .bodies A A' front e e' Y hcloser) hnested ?_ ?_
  · refine ((List.forall₂_and_left _ _).mpr ⟨fun u hu => And.intro (hbreaks u hu) (hapart u hu), hmatched⟩).imp ?_
    rintro u v ⟨⟨hbreak, hpart⟩, hm⟩
    refine ⟨hm.toAlike, fun _ => ⟨hm, hpart⟩, fun hfront _ => ?_⟩
    by_cases hA : A u.start
    · obtain ⟨hline, hspace⟩ := hbreak hA
      obtain ⟨-, hline', hspace'⟩ := hm.opens hA
      exact ⟨hline'.trans hline.symm, hspace'.trans hspace.symm⟩
    · exact hm.gap hA hfront
  · refine ⟨⟨congrArg Prod.fst hword, fun _ => congrArg Prod.snd hword⟩, fun hlt => absurd hlt (lt_irrefl _), fun _ hc => ?_⟩
    exact absurd (hcloser.symm.trans hc) (by decide)

/-- A signature up to the word `in` that ends it. What comes behind does not matter. -/
def Token.Setting.signatures (front : Nat) (x x' : Token) (vs vs' : List Token) (hx : x.isIdentifierIn ["in"] = true) :
    Setting where
  place _ _ := True
  front := front
  last := x
  last' := x'
  rest := vs
  rest' := vs'
  splits _ _ _ _ _ := ⟨trivial, trivial⟩
  ends := .inr (by simp [Token.isSeam, hx])

theorem Token.Twins.of_carried {b : Nat} {f x x' : Token} {us us' vs vs' : List Token} (hx : x.isIdentifierIn ["in"] = true)
    (hus : us.Forall₂ (Token.Carried f.start b) us') (hlast : Token.Carried f.start b x x')
    (hnested : Token.nested [] us = true) :
    Token.Twins (.signatures (f.start + 1) x x' vs vs' hx) [] (us ++ x :: vs) (us' ++ x' :: vs') := by
  have htwin : ∀ {u v : Token}, Token.Carried f.start b u v → Twin (.signatures (f.start + 1) x x' vs vs' hx) u v :=
    fun h => ⟨⟨congrArg Prod.fst h.word, fun _ => congrArg Prod.snd h.word⟩, trivial, fun hfront _ => by
      have hgap := congrArg Prod.fst (h.spot hfront)
      exact ⟨congrArg Token.Gap.newline hgap, congrArg Token.Gap.space hgap⟩⟩
  exact .of_nested (S := .signatures (f.start + 1) x x' vs vs' hx) hnested (hus.imp fun _ _ h => htwin h) (htwin hlast)

/-- The tokens of a signature that stands behind an opening brace and a space. -/
theorem Token.Laid.resigned {t t' x rest : Text} {a : Nat} {f w : Token} {us vs T : List Token}
    (h : Laid t a (us ++ w :: vs)) (hs : Token.Spaced t a (us ++ w :: vs)) (ha : Cut t a)
    (hf : (us ++ w :: vs).head? = some f) (hx : x = Text.slice t f.start w.stop) (h' : Laid t' 1 T)
    (hs' : Token.Spaced t' 1 T) (ha' : Cut t' 1) (hd : t'.drop 1 = ' ' :: (x ++ rest)) (hrest : Token.Stops rest)
    (hq : rest.head? ≠ some '"') : ∃ us' w' T', T = us' ++ w' :: T' ∧ us.Forall₂ (Token.Carried f.start 2) us' ∧
      Token.Carried f.start 2 w w' := by
  obtain ⟨g, us₁, hus⟩ := List.exists_cons_of_ne_nil (l := us ++ [w]) (by simp)
  have hsplit : us ++ w :: vs = g :: us₁ ++ vs := by rw [List.append_cons, hus]
  obtain rfl : g = f := by simpa [hsplit] using hf
  have hw : w.start < w.stop ∧ w.stop ≤ t.length := by
    have hlaid := h.yields.2
    cases hlaid with
    | cons _ _ hlt hstop => exact ⟨hlt, hstop⟩
  -- the word is the last of them
  have hlast : ∀ u ∈ g :: us₁, u.start ≤ w.start ∧ u.stop ≤ w.stop := by
    intro u hu
    rw [← hus] at hu
    rcases List.mem_append.mp hu with hu | hu
    · obtain ⟨us₂, us₃, rfl⟩ := List.append_of_mem hu
      rw [List.append_assoc] at h
      have hle := h.behind.le_start w (by simp)
      have hlaid := h.yields.2
      cases hlaid with
      | cons _ _ hlt => exact ⟨hlt.le.trans hle, hle.trans hw.1.le⟩
    · obtain rfl := List.mem_singleton.mp hu
      exact ⟨le_rfl, le_rfl⟩
  have hle := (hlast g (by simp)).1.trans hw.1.le
  have hlen : x.length = w.stop - g.start := by rw [hx, slice_length hw.2]
  rw [hsplit] at h hs
  obtain ⟨vs', T', rfl, hall⟩ := h.transplant_from h' ha ha' hs hs' (x := x) (r := t.drop w.stop) (b := 2)
    (by rw [hx, slice_append_drop hle]) (by omega)
    (by
      rw [show (2 : Nat) = 1 + 1 from rfl, ← List.drop_drop, hd]
      exact Reads.of_gaps (w := [' ']) (by simp [Token.isGap, Token.isSpaceChar]) (x ++ rest))
    (by rw [show (2 : Nat) = 1 + 1 from rfl, ← List.drop_drop, hd]; rfl) hrest hq fun u hu => by
      have := (hlast u hu).2
      omega
  rw [← hus] at hall
  have hfront := List.forall₂_take_append vs' us [w] hall.flip
  obtain ⟨w', _, hw', hnil, hback⟩ := List.forall₂_cons_right_iff.mp (List.forall₂_drop_append vs' us [w] hall.flip)
  cases hnil
  refine ⟨vs'.take us.length, w', T', ?_, hfront.flip, hw'⟩
  rw [List.append_cons, ← hback, List.take_append_drop]

/-- The token at the cursor is carried along with the others. -/
theorem Cursor.carried_peek {c c' : Cursor} {a b : Nat} {x x' : Token} {us us' vs vs' : List Token}
    (hahead : c.ahead = us ++ x :: vs) (hahead' : c'.ahead = us' ++ x' :: vs')
    (hus : us.Forall₂ (Token.Carried a b) us') (hx : Token.Carried a b x x') : Token.Carried a b c.peek c'.peek := by
  cases hus with
  | nil => simpa [Cursor.peek, hahead, hahead'] using hx
  | cons hu _ => simpa [Cursor.peek, hahead, hahead'] using hu

/-- Behind both opening braces the cursors tell apart no more than their tokens, and all rules are open. -/
theorem Closure.Enclosed.twins {t t' : Text} {k : Closure} {c c₁ c' : Cursor} {o o' e : Token} {W Y T : List Token}
    {n : Nat} {g : Token.Gap} {S : Setting} (h : k.Enclosed t c c₁ o e W Y n) (h' : Cursor.Braced t' c' o' T g)
    (hfront : S.front ≤ (c.advance 1).peek.start + 1) (htwins : Token.Twins S [] (c.advance 1).ahead T) :
    (c.advance 1).Twins S ⟨false, (c.advance 1).room + 1, (c'.advance 1).room + 1, e, []⟩ (c'.advance 1) ∧
      (Stage.mk false ((c.advance 1).room + 1) ((c'.advance 1).room + 1) e []).next.Fits (c.room + 1) (c'.room + 1) := by
  have hroom := (h.sound.advance 1).room_le h.sound
  have hroom' := (h'.sound.advance 1).room_le h'.sound
  refine ⟨?_, by simp only [Stage.next]; omega, by simp only [Stage.next]; omega⟩
  exact {
    fenced := h.fenced
    sound' := (h'.sound.advance 1).sound
    ahead := h'.ahead_inside.symm ▸ htwins
    room := Nat.lt_succ_self _
    room' := Nat.lt_succ_self _
    front := hfront
    strict := fun hstrict => by cases hstrict }

/-- A closure that has been laid out, read up to its statements: they are laid out as the same lines. -/
structure Closure.Again (s : Option Signature) (unit t : Text) (bs : List Text) (c c₁ : Cursor) (U : List Token) (e : Token)
    (ss : List Statement) : Prop where
  signature : attempt (Grammar.upTo (c.room + 1)).closureSignature (c.advance 1) = .ok s c₁
  leads : (c.advance 1).Leads c₁
  ahead : c₁.ahead = U ++ [e]
  brace : e.isSymbol "\x7d" = true
  stop : e.stop = t.length
  statements : Grammar.statementsFrom c₁.source c₁.eof
    { start := c₁.previous.stop + ((c₁.source.drop c₁.previous.stop).takeWhile Text.isBlank).length } c₁.ahead =
      some (ss, U.length)
  layout : Text.stack (ss.map (Statement.layout unit)) = Text.stack bs

section Again

variable {t t' unit : Text} {k : Closure} {c c₁ c' : Cursor} {o o' e : Token} {W Y T : List Token} {n : Nat}
  {g : Token.Gap} {bs : List Text}

/-- A closure without a signature and without separators in its body. -/
theorem Closure.Enclosed.again_unsigned (h : k.Enclosed t c c₁ o e W Y n) (h' : Cursor.Braced t' c' o' T g)
    (hsig : k.signature = none) (hplain : dropSeparators 0 W = W) (hunit : ∀ c ∈ unit, Text.isIndent c = true)
    (hbs : k.statements.map (Statement.layout unit) = bs) (ht' : t' = ['\x7b'] ++ Text.body bs) :
    ∃ c₁' U e' ss, Closure.Again none unit t' bs c' c₁' U e' ss := by
  have hbehind := h.leads.2 hsig
  obtain ⟨i, hstart, hn, hss, hspans⟩ := h.body (x := o) (by rw [hbehind]; rfl) (by simp [h.kind_opening])
  have hcloser := Token.isCloser_of_isSymbol h.brace (by simp)
  -- the tokens of the body, and those of the second one
  have hcut := h.cut_opening
  obtain ⟨hlaid, hspaced⟩ := h.laid_inside
  obtain ⟨g₀, hW⟩ := hlaid.stretch hspaced hcut
  obtain ⟨j, hB⟩ := hstart.stretch (B := W) (W := e :: Y) (z := e.start) (g := {}) (k := g₀)
    (by rwa [h.source_inside, Cursor.edge, hbehind]) hspans.le.1
  have hhead := hstart.head
  rw [h.source_inside] at hB hhead
  have hfront : ∀ u ∈ W.head?, u.start < (c.advance 1).peek.start + 1 := fun u hu => by
    obtain ⟨us, rfl⟩ := List.head?_eq_some_iff.mp hu
    simp [Cursor.peek, h.ahead_inside]
  obtain ⟨vs, e', rfl, hmatched, he', hspace', hstart', hstop'⟩ := hspans.relaid hunit hB hhead hfront hbs ht' h'.stretch
  rw [hplain] at hmatched
  -- all that is told of them is the same
  generalize hA : Grammar.starts c₁.eof { start := i } c₁.ahead = ps at *
  have hbreaks := hspans.breaks hB hplain
  have hapart : ∀ u ∈ W, ∀ p, p ∈ ps → p ≤ u.start ∨ u.start + u.text.length ≤ p := fun u hu p hp => by
    obtain ⟨hlen, hcuts⟩ := hlaid.apart hcut u (by simp [hu])
    exact hlen ▸ hcuts p (hspans.starts p hp).1
  have hword : e'.word = e.word := (Token.word_of_isSymbol he').trans (Token.word_of_isSymbol h.brace).symm
  have htwins := Token.Twins.of_matched (Y := Y) hcloser hmatched h.nested hword hbreaks hapart
  obtain ⟨hcursors, hfits⟩ := h.twins h' le_rfl (h.ahead_inside ▸ htwins)
  obtain ⟨c₁', hsig', htwins₁, hb, hb', hl, hl'⟩ := Grammar.closureSignature_none
    (Grammar.upTo_agree _ (c.room + 1) (c'.room + 1)) hcursors hfits
    (fun hloose => absurd (hcloser.symm.trans hloose.2) (by decide)) (hsig ▸ h.signature)
  obtain ⟨U, U', hU, hU', hall, -⟩ : ∃ U U', c₁.ahead = U ++ e :: Y ∧ c₁'.ahead = U' ++ [e'] ∧ U.Forall₂ (Twin _) U' ∧ _ :=
    htwins₁.ahead.eq_append
  -- where operators have been split there are no separators either
  have hUplain : dropSeparators 0 U = U := by
    have hrefines := hl.refines
    rw [Cursor.inner, Cursor.inner, hb, h.ahead_inside, hU] at hrefines
    obtain ⟨ts₁, ts₂, hts, hts₁, -⟩ := (hrefines.of_append _).split_at (by simp [Token.kind_of_isCloser hcloser])
    have hnodup := h.fenced.sound.nodup_ahead
    rw [h.ahead_inside] at hnodup
    obtain ⟨rfl, -⟩ := Token.split_unique hnodup hts
    exact Token.dropSeparators_refines hts₁ hplain
  have hpair := h.inside.sound.ahead_pairwise
  rw [hU, List.pairwise_append] at hpair
  have hmatchedU : (dropSeparators 0 U).Forall₂
      (Matched (· ∈ Grammar.starts c₁.eof { start := i } c₁.ahead) (Text.Opens (['\x7b'].length + 1) bs)
        ((c.advance 1).peek.start + 1)) U' := by
    rw [hUplain, hA]
    refine ((List.forall₂_and_left _ _).mpr ⟨fun u hu => hpair.2.2 u hu e (by simp), hall⟩).imp ?_
    rintro u v ⟨hlt, htwin⟩
    exact (htwin.place hlt).1
  have hedge : c₁'.edge = ['\x7b'].length := by simp [Cursor.edge, hb', h'.behind_inside, h'.stop]
  have hblocks : ∀ b ∈ bs, Text.Block unit b := by
    rw [← hbs, List.forall_mem_map]
    exact hspans.blocks hunit (h.source_inside ▸ hstart.cut) hhead
  obtain ⟨ss', hss', hlayout⟩ := Grammar.statements_relaid h.inside.sound hl'.sound hunit hblocks
    (hl'.source.trans (h'.source.trans ht')) hedge (by simp [hb', h'.behind_inside]) hU hU' hss
    (h.inside.sound.length_eq hU hn) ⟨he', hspace'⟩ hstart' hmatchedU htwins₁.front
  exact ⟨c₁', U', e', ss', hsig', hl', hU', he', hstop', hss', hlayout⟩

/-- The signature is read from a slice of the source. -/
theorem Grammar.closureSignature_text {g : Grammar} {s : Signature} (h : g.closureSignature c = .ok s c') :
    s.text = c'.sliceFrom c.peek := by
  obtain ⟨parts, d, hparts, -, -, rfl⟩ := Grammar.closureSignature_eq_ok.mp h
  exact Grammar.signatureParts_text hparts _

theorem Text.stops_body (bs : List Text) : Token.Stops (Text.body bs) ∧ (Text.body bs).head? ≠ some '"' := by
  rw [Text.body]
  split
  · exact ⟨Token.stops_cons (by decide), by simp⟩
  · exact ⟨Token.stops_cons (by decide), by simp⟩

/-- A signature is read again from its text, behind a brace and a space. -/
theorem Closure.Enclosed.signature_again (h : k.Enclosed t c c₁ o e W Y n) (h' : Cursor.Braced t' c' o' T g)
    {s : Signature} {x : Token} {us vs : List Token} {r : Text} {ls : List Token.Word}
    (hs : (Grammar.upTo (c.room + 1)).closureSignature (c.advance 1) = .ok s c₁) (hl : (c.advance 1).Leads c₁)
    (hahead : (c.advance 1).ahead = us ++ x :: vs) (hin : x.isIdentifierIn ["in"] = true)
    (hnested : Token.nested [] us = true) (hx : c₁.behind.head? = some x) (hd : t'.drop 1 = ' ' :: (s.text ++ r))
    (hr : Token.Stops r) (hq : r.head? ≠ some '"') (hread : Reads t' ls []) :
    ∃ s' c₁' g', attempt (Grammar.upTo (c'.room + 1)).closureSignature (c'.advance 1) = .ok (some s') c₁' ∧
      s'.text = s.text ∧ (c'.advance 1).Leads c₁' ∧ c₁.ahead = vs ∧ c₁'.behind ≠ [] ∧ c₁'.edge = 2 + s.text.length ∧
      Stretch t' c₁'.edge t'.length {} g' c₁'.ahead [] := by
  have htext : s.text = Text.slice t (c.advance 1).peek.start x.stop := by
    rw [Grammar.closureSignature_text hs, Cursor.sliceFrom, h.source_inside, Cursor.previous, hx]
    rfl
  obtain ⟨hlaid, hspaced⟩ := h.laid_inside
  rw [← h.ahead_inside, hahead] at hlaid hspaced
  obtain ⟨us', x', T', rfl, hus, hxx⟩ := hlaid.resigned hspaced h.cut_opening (f := (c.advance 1).peek)
    (by rw [← hahead, h.fenced.ahead_eq]; rfl) htext h'.laid h'.spaced h'.stretch.cut hd hr hq
  have htwins : Token.Twins (.signatures ((c.advance 1).peek.start + 1) x x' vs T' hin) [] (us ++ x :: vs)
      (us' ++ x' :: T') := .of_carried hin hus hxx hnested
  obtain ⟨hcursors, hfits⟩ := h.twins h' le_rfl (hahead ▸ htwins)
  obtain ⟨s', c₁', hs', htext', hvs, hT', hx', hl'⟩ := Grammar.closureSignature_again
    (Grammar.upTo_agree _ (c.room + 1) (c'.room + 1)) hcursors hfits hs hl hx
  replace hx' : c₁'.behind.head? = some x' := hx'
  -- where the second one stands
  have hfirst := (Cursor.carried_peek hahead h'.ahead_inside hus hxx).start
  have hplaced := h.fenced.sound.placed_ahead (t := x) (by simp [hahead])
  have hle := (h.fenced.sound.peek_le_start (t := x) (by simp [hahead])).trans hplaced.lt.le
  have hlen : s.text.length = x.stop - (c.advance 1).peek.start := by
    rw [htext, slice_length]
    exact h.source ▸ hplaced.le
  have hstop := hxx.stop
  have hedge : c₁'.edge = x'.stop := by simp [Cursor.edge, hx']
  obtain ⟨g', hT₁⟩ := h'.laid.stretch_behind h'.spaced h'.stretch.cut hread
  refine ⟨s', c₁', g', attempt_eq_some.mpr hs', ?_, hl', hvs, by rintro hnil; simp [hnil] at hx', by omega, ?_⟩
  · have hprevious : c₁'.previous.stop = 2 + s.text.length := by
      simp only [Cursor.previous, hx', Option.getD_some]
      omega
    have hpeek : (c'.advance 1).peek.start = 2 := by omega
    rw [htext', Cursor.sliceFrom, hl'.source, h'.source, hpeek, hprevious, Text.slice, show (2 : Nat) = 1 + 1 from rfl,
      ← List.drop_drop, hd]
    simp
  · rw [hedge, hT']
    exact hT₁

/-- A closure with a signature. -/
theorem Closure.Enclosed.again_signed (h : k.Enclosed t c c₁ o e W Y n) (h' : Cursor.Braced t' c' o' T g) {s : Signature}
    (hsig : k.signature = some s) (hunit : ∀ c ∈ unit, Text.isIndent c = true)
    (hbs : k.statements.map (Statement.layout unit) = bs) (ht' : t' = '\x7b' :: ' ' :: s.text ++ Text.body bs)
    {ls : List Token.Word} (hread : Reads t' ls []) :
    ∃ s' c₁' U e' ss, s'.text = s.text ∧ Closure.Again (some s') unit t' bs c' c₁' U e' ss := by
  have hs := attempt_eq_some.mp (hsig ▸ h.signature)
  obtain ⟨us, x, vs, hahead, hin, hnested, hx, hl, -⟩ := Grammar.closureSignature_split (Grammar.upTo_fences _)
    (Grammar.upTo_verbatim _) h.fenced hs
  obtain ⟨s', c₁', g', hs', htext, hl', hvs, hbehind, hedge, hT⟩ := h.signature_again h' hs hl hahead hin hnested hx
    (by rw [ht']; rfl) (Text.stops_body bs).1 (Text.stops_body bs).2 hread
  -- the tokens of the body, and those of the second one
  obtain ⟨i, hstart, hn, hss, hspans⟩ := h.body hx (Token.not_operator_of_identifier hin)
  obtain ⟨B, Y₁, rfl, rfl⟩ : ∃ B Y₁, vs = B ++ e :: Y₁ ∧ B.length = n := by
    obtain ⟨hlt, he⟩ := List.getElem?_eq_some_iff.mp (hvs ▸ hn)
    refine ⟨vs.take n, vs.drop (n + 1), ?_, by simp; omega⟩
    rw [← he, ← List.drop_eq_getElem_cons, List.take_append_drop]
  obtain ⟨hlaid, hspaced⟩ := h.laid_inside
  rw [← h.ahead_inside, hahead] at hlaid hspaced
  obtain ⟨g₀, hB⟩ := hlaid.behind.stretch hspaced.behind (hlaid.cut_stop h.cut_opening)
  obtain ⟨j, hB⟩ := hstart.stretch (B := B) (W := e :: Y₁) (z := e.start) (g := {}) (k := g₀)
    (by rwa [h.source_inside, Cursor.edge, hx]) hspans.le.1
  have hhead := hstart.head
  rw [h.source_inside] at hB hhead
  have hfront : ∀ u ∈ B.head?, u.start < c₁.peek.start + 1 := fun u hu => by
    obtain ⟨us, rfl⟩ := List.head?_eq_some_iff.mp hu
    simp [Cursor.peek, hvs]
  replace hedge : c₁'.edge = ('\x7b' :: ' ' :: s.text).length := by
    rw [hedge, List.length_cons, List.length_cons]
    omega
  obtain ⟨U, e', hU, hmatched, he', hspace', hstart', hstop'⟩ := hspans.relaid hunit hB hhead hfront hbs ht' (hedge ▸ hT)
  have hblocks : ∀ b ∈ bs, Text.Block unit b := by
    rw [← hbs, List.forall_mem_map]
    exact hspans.blocks hunit (h.source_inside ▸ hstart.cut) hhead
  obtain ⟨ss', hss', hlayout⟩ := Grammar.statements_relaid h.inside.sound hl'.sound hunit hblocks
    (hl'.source.trans (h'.source.trans ht')) hedge hbehind hvs hU hss rfl ⟨he', hspace'⟩ hstart' hmatched le_rfl
  exact ⟨s', c₁', U, e', ss', htext, hs', hl', hU, he', hstop', hss', hlayout⟩

/-- A closure that has been laid out is read to its end. -/
theorem Closure.Again.closed {s : Option Signature} {U : List Token} {ss : List Statement}
    (h : Closure.Again s unit t bs c c₁ U e ss) (h' : Cursor.Braced t c o T g) :
    runOn (whole closure) t = .ok ⟨s, ss, t, Text.spaces 4⟩ := by
  have hpeek₁ : (c₁.advance U.length).peek = e := by
    rw [Cursor.peek_advance, Cursor.peek, h.ahead]
    simp
  have hend : ((c₁.advance U.length).advance 1).isEof = true ∧ ((c₁.advance U.length).advance 1).previous = e := by
    have hall : (U ++ [e]).take (U.length + 1) = U ++ [e] := List.take_of_length_le (by simp)
    rw [← Cursor.advance_add]
    simp [Cursor.isEof, Cursor.previous, Cursor.advance, h.ahead, hall]
  obtain ⟨hkind, htext⟩ := Prod.mk.inj h'.word
  have hbrace := h.brace
  simp only [Token.isSymbol, Token.has, Bool.and_eq_true, beq_iff_eq] at hbrace
  have hclosure : closure c = .ok ⟨s, ss, t, Text.spaces 4⟩ ((c₁.advance U.length).advance 1) := by
    refine get_bind_eq_ok.mpr (Grammar.closureRule_eq_ok.mpr ⟨c₁, U.length, ?_, h.signature, h.statements, ?_, rfl, ?_, rfl⟩)
    · simp [h'.peek, Token.reads, hkind, htext]
    · simp [hpeek₁, Token.reads, hbrace]
    · have hsource₁ : ((c₁.advance U.length).advance 1).source = t := h.leads.source.trans h'.source
      rw [Cursor.sliceFrom, hend.2, hsource₁, h'.peek, h'.start, h.stop]
      simp [Text.slice]
  refine Parser.runOn_eq_ok.mpr ⟨c, (c₁.advance U.length).advance 1, h'.cursor, bind_eq_ok.mpr ⟨_, _, hclosure, ?_⟩⟩
  rw [bind_eq_ok]
  refine ⟨(), _, ?_, rfl⟩
  rw [expectEof, get_bind_eq_ok, if_pos hend.1]
  rfl

end Again

/-- Laying a closure out is a fixed point: its text is read as a closure again, all of it, and laying that out
gives the same text. Between the braces brackets have to be in pairs, and `if`, `switch`, `do`, `else` and `catch`
have to have their blocks in their own brackets; where there is no signature, the statements have to stand on lines
of their own. -/
theorem Parser.closure_layout_fixed {t unit : Text} {k : Closure} {c : Cursor} {o e : Token} {W Y : List Token}
    (hk : runOn closure t = .ok k) (hunit : ∀ c ∈ unit, Text.isIndent c = true) (hc : Cursor.ofText t = .ok c)
    (hahead : c.ahead = o :: W ++ e :: Y) (he : e.isSymbol "\x7d" = true) (hW : Token.nested [] W = true)
    (hsettled : Token.settled W = true) (hplain : k.signature = none → dropSeparators 0 W = W) :
    ∃ k', runOn (whole closure) (k.layout unit) = .ok k' ∧ k'.text = k.layout unit ∧
      k'.layout unit = k.layout unit := by
  obtain ⟨c₁, n, h⟩ := Closure.exists_enclosed hk hc hahead he hW hsettled
  obtain ⟨d, d₁, d', hsited⟩ := closure_sited hk
  obtain ⟨head, body, lss, -, hhead, hss, -⟩ := hsited.reads
  obtain ⟨ls, -, hread⟩ := Closure.layout_reads hunit hhead hss
  obtain ⟨x, hx⟩ := Signature.exists_opening k.signature
  have hlayout := k.layout_eq unit
  obtain ⟨c', o', T, g, h'⟩ := Cursor.exists_braced hread (hlayout.trans (by rw [hx, List.cons_append]))
  have hclosed : ∀ {s : Option Signature} {c₁' : Cursor} {U : List Token} {e' : Token} {ss : List Statement},
      Signature.opening s = Signature.opening k.signature →
      Closure.Again s unit (k.layout unit) (k.statements.map (Statement.layout unit)) c' c₁' U e' ss →
      ∃ k', runOn (whole closure) (k.layout unit) = .ok k' ∧ k'.text = k.layout unit ∧
        k'.layout unit = k.layout unit := fun hopening hagain => by
    refine ⟨_, hagain.closed h', rfl, ?_⟩
    rw [Closure.layout_eq, hopening, Text.body_congr hagain.layout, ← hlayout]
  cases hsig : k.signature with
  | none =>
    obtain ⟨c₁', U, e', ss, hagain⟩ := h.again_unsigned h' hsig (hplain hsig) hunit rfl (by rw [hlayout, hsig]; rfl)
    exact hclosed (by rw [hsig]) hagain
  | some s =>
    have hne := hsited.signature_ne_nil hsig
    have hopening : Signature.opening k.signature = '\x7b' :: ' ' :: s.text := by
      rw [hsig, Signature.opening, Signature.toText_of_text hne]
      rfl
    obtain ⟨s', c₁', U, e', ss, htext, hagain⟩ := h.again_signed h' hsig hunit rfl (by rw [hlayout, hopening]) hread
    refine hclosed ?_ hagain
    rw [hopening, Signature.opening, Signature.toText_of_text (htext ▸ hne), htext]
    rfl

/-- Statements that share a line. The second one, on a line of its own, goes on with the first when it is read
again. -/
theorem Parser.closure_layout_fixed_signed : ∃ k k',
    runOn closure "\x7b (x: Int) in a; .f(x) // c\n   if x \x7b\n y[0] \x7d; g() \x7d".toList = .ok k ∧
    runOn (whole closure) (k.layout (Text.spaces 4)) = .ok k' ∧ k'.text = k.layout (Text.spaces 4) ∧
      k'.layout (Text.spaces 4) = k.layout (Text.spaces 4) := by
  generalize htext : "\x7b (x: Int) in a; .f(x) // c\n   if x \x7b\n y[0] \x7d; g() \x7d".toList = text
  have hread : (runOn closure text).toOption.map (·.signature.isSome) = some true := by
    rw [← htext]
    decide +kernel
  have hwords : (Cursor.ofText text).toOption.map (fun c => ((c.ahead.drop 1).getLast?.any
      (·.isSymbol "\x7d"), Token.nested [] (c.ahead.drop 1).dropLast,
      Token.settled (c.ahead.drop 1).dropLast)) = some (true, true, true) := by
    rw [← htext]
    decide +kernel
  cases hk : runOn closure text with
  | error x => simp [hk, Except.toOption] at hread
  | ok k =>
    obtain ⟨c, -, hc, -⟩ := runOn_eq_ok.mp hk
    simp only [hk, Except.toOption, Option.map_some, Option.some.injEq] at hread
    simp only [hc, Except.toOption, Option.map_some, Option.some.injEq, Prod.mk.injEq] at hwords
    obtain ⟨he, hW, hsettled⟩ := hwords
    obtain ⟨e, hlast, he⟩ := (Option.any_eq_true _ _).mp he
    obtain ⟨W, hW'⟩ := List.getLast?_eq_some_iff.mp hlast
    rw [hW', List.dropLast_concat] at hW hsettled
    cases ha : c.ahead with
    | nil => simp [ha] at hW'
    | cons o ts =>
      obtain rfl : ts = W ++ [e] := by simpa [ha] using hW'
      have hunit : ∀ c ∈ Text.spaces 4, Text.isIndent c = true := fun c hc => by
        rw [List.eq_of_mem_replicate hc]
        rfl
      obtain ⟨k', hagain⟩ := closure_layout_fixed hk hunit hc ha he hW hsettled
        (fun hnone => by simp [hnone] at hread)
      exact ⟨k, k', rfl, hagain⟩

/-- An `if` that finds no block in the arguments of an attribute goes on to one behind them. The statements that are
laid out then start in the middle of brackets, and cannot be read as a closure again. -/
theorem Parser.closure_layout_unread : ∃ k, runOn closure "\x7b @a(if ) in x \x7b \x7d ; ) in y ( \x7d".toList = .ok k ∧
    k.signature.isSome = true ∧
    k.layout (Text.spaces 4) = "\x7b @a(if ) in\n    x \x7b \x7d\n    ) in y (\n\x7d".toList ∧
    (runOn (whole closure) (k.layout (Text.spaces 4))).isOk = false := by
  have hread : (runOn closure "\x7b @a(if ) in x \x7b \x7d ; ) in y ( \x7d".toList).toOption.any (fun k =>
      k.signature.isSome && k.layout (Text.spaces 4) == "\x7b @a(if ) in\n    x \x7b \x7d\n    ) in y (\n\x7d".toList &&
        !(runOn (whole closure) (k.layout (Text.spaces 4))).isOk) = true := by decide +kernel
  obtain ⟨k, hk, hall⟩ := (Option.any_eq_true _ _).mp hread
  simp only [Bool.and_eq_true, beq_iff_eq, Bool.not_eq_true'] at hall
  obtain ⟨⟨hsig, hlayout⟩, hagain⟩ := hall
  cases hrun : runOn closure "\x7b @a(if ) in x \x7b \x7d ; ) in y ( \x7d".toList with
  | error x =>
    rw [hrun] at hk
    cases hk
  | ok k' =>
    rw [hrun] at hk
    obtain rfl : k' = k := Option.some.inj hk
    exact ⟨k', rfl, hsig, hlayout, hagain⟩

end SwiftMacros
