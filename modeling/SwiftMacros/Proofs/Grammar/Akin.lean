import Mathlib
import SwiftMacros.Proofs.Token.Held
import SwiftMacros.Proofs.Grammar.Signed
import SwiftMacros.Proofs.Grammar.Walks

/-! A macro with a closure behind it, read in two sources. What is between the macro and the end of its closure
stands in both of them, and what is behind that does not matter: where the macro can be read in the first source, it
can be read in the second one, and the same operators are split. -/

namespace SwiftMacros

open Token (Setting Twin Akin Refines Level nested settled segment)
open SwiftMacros.Parser

namespace Token

variable {t t' x x' : Token} {R R' : List Token} {hx : x.isCloser = true ∨ x.isSeam = true}

/-- Tokens compared with the gaps in front of them, up to `x` and `x'`. -/
def Setting.akin (x x' : Token) (R R' : List Token) (hx : x.isCloser = true ∨ x.isSeam = true) : Setting where
  place _ _ := True
  front := 0
  last := x
  last' := x'
  rest := R
  rest' := R'
  splits _ _ _ _ _ := ⟨trivial, trivial⟩
  ends := hx

theorem Akin.twin (h : Akin t t') : Twin (.akin x x' R R' hx) t t' := ⟨h.toAlike, trivial, fun _ => h.gap⟩

theorem Twin.akin (h : Twin (.akin x x' R R' hx) t t') : Akin t t' := ⟨h.toAlike, h.gap (Nat.zero_le _)⟩

end Token

namespace Token

/-- No word is a literal. -/
theorem Placed.awaitsBlock_literal {s : Text} {t : Token} (h : Placed s t) (hk : t.kind = .string) :
    t.awaitsBlock = false := by
  have hl := h.lexeme_text (by simp [hk])
  rw [hk] at hl
  have hlast := literal_last hl
  simp only [awaitsBlock, List.any_cons, List.any_nil, Bool.or_false, Bool.and_eq_false_imp]
  refine fun _ => Bool.eq_false_iff.mpr fun hw => ?_
  simp only [Bool.or_eq_true, beq_iff_eq] at hw
  rcases hw with hw | hw | hw | hw | hw <;> simp [hw] at hlast

end Token

/-- The closure `k` is read from `c` up to `c'`: `B` stands between its braces `o` and `z`. -/
structure Cursor.Braces (c : Cursor) (k : Closure) (o : Token) (B : List Token) (z : Token) (c' : Cursor) : Prop where
  sound : c.Sound
  ahead : ∃ R, c.ahead = o :: B ++ z :: R
  opening : o.isSymbol "\x7b" = true
  inside : nested [] B = true ∧ settled B = true
  closing : z.isSymbol "\x7d" = true
  reads : ∃ n, c.room ≤ n ∧ (Grammar.upTo n).closureRule c = .ok k c'

/-- A macro is read from `c` up to `c₁`, with the closure `k` behind it and the tokens `s` between its name and
the end of the closure. Words in them have what they ask for. -/
structure Cursor.Calls (c : Cursor) (s : List Token) (k : Closure) (o : Token) (B : List Token) (z : Token)
    (c₁ : Cursor) : Prop where
  ahead : ∃ R, c.ahead = c.peek :: s ++ R
  settled : settled s = true
  reads : ∃ m, Parser.expansion c = .ok m c₁ ∧ m.trailing = some k
  braces : ∃ d, (c.advance 1).Leads d ∧ d.Braces k o B z c₁
  block : ∃ A, s = A ++ o :: B ++ [z] ∧ Token.Block A o B z

namespace Cursor

variable {S : Setting} {L L₁ : Stage} {c c' c₁ c₁' : Cursor} {ss : List Text}

theorem Together.refl (hs : c.Sound) (hs' : c'.Sound) : Together S ss ss c c' c c' :=
  ⟨hs.refl, hs'.refl, [], [], rfl, rfl, fun _ _ h => h⟩

/-- In front of the last token in common, the tokens that have been taken are the same on both sides. -/
theorem Together.copied (h : Together S ss L.stack c c' c₁ c₁') (h₁ : c₁.Twins S L c₁') (hpeek : c₁.peek = S.last) :
    ∃ w w' : List Token, c₁.behind = w.reverse ++ c.behind ∧ c₁'.behind = w'.reverse ++ c'.behind ∧ w.Forall₂ (Twin S) w' ∧
      c₁.ahead = S.last :: S.rest ∧ c₁'.ahead = S.last' :: S.rest' := by
  obtain ⟨us, us', hus, hus', htwins, -⟩ := h₁.ahead.eq_append
  obtain ⟨rfl, -⟩ : us = [] ∧ (c₁.advance 1).ahead = S.rest := by
    have hahead := h₁.ahead_eq.1
    rw [hpeek] at hahead
    have hnodup := h₁.fenced.sound.nodup_ahead
    obtain ⟨h, h'⟩ := Token.split_unique (show (us ++ S.last :: S.rest).Nodup from hus ▸ hnodup)
      (show _ = [] ++ S.last :: (c₁.advance 1).ahead from hus.symm.trans hahead)
    exact ⟨h, h'.symm⟩
  cases htwins
  rw [List.nil_append] at hus hus'
  obtain ⟨w, w', hw, hw', htaken⟩ := h.taken
  obtain ⟨vs, vs', hvs, hvs', hall, -⟩ := (htaken _ _ h₁.ahead).eq_append
  rw [hus, List.append_cancel_right_eq] at hvs
  rw [hus', List.append_cancel_right_eq] at hvs'
  exact ⟨w, w', hw, hw', hvs ▸ hvs' ▸ hall, hus, hus'⟩

/-- In front of tokens that are alike. -/
theorem Twins.of_akin {f x x' : Token} {n n' : Nat} {W W' R R' : List Token} (hc : c.Fenced [f]) (hs' : c'.Sound)
    (hahead : c.ahead = W ++ x :: R) (hahead' : c'.ahead = W' ++ x' :: R') (hW : nested [] W = true)
    (hakin : W.Forall₂ Akin W') (hx : Akin x x') (hend : x.isCloser = true ∨ x.isSeam = true) (hroom : c.room < n)
    (hroom' : c'.room < n') : c.Twins (.akin x x' R R' hend) ⟨true, n, n', f, []⟩ c' where
  fenced := hc
  sound' := hs'
  ahead := by
    rw [hahead, hahead']
    exact Token.Twins.of_nested (S := .akin x x' R R' hend) hW (hakin.imp fun _ _ ht => ht.twin) hx.twin
  room := hroom
  room' := hroom'
  front := Nat.zero_le _
  strict _ := Nat.zero_le _

end Cursor

namespace Grammar

variable {g : Grammar} {c : Cursor} {x : Token}

/-- Behind a brace the same words come first in lists that are alike. -/
theorem accessorsFollow_akin {c' : Cursor} {o o' z z' : Token} {B B' R R' : List Token} (h : c.ahead = o :: B ++ z :: R)
    (h' : c'.ahead = o' :: B' ++ z' :: R') (hB : B.Forall₂ Akin B') (hz : Akin z z') (hc : z.isCloser = true) :
    accessorsFollow c' = accessorsFollow c := by
  have hk : ∀ {t t' : Token}, Akin t t' → (t'.kind == Token.Kind.atName) = (t.kind == Token.Kind.atName) :=
    fun ht => ht.kind_beq _
  have hend : (z.kind == Token.Kind.atName) = false := by simp [Token.kind_of_isCloser hc]
  have hdrop : c.ahead.drop 1 = B ++ z :: R ∧ c'.ahead.drop 1 = B' ++ z' :: R' := by simp [h, h']
  simp only [accessorsFollow, hdrop]
  clear h h' hdrop
  induction hB with
  | nil =>
    have hword : ∀ {t : Token}, t.kind = .symbol →
        t.isIdentifierIn ["get", "set", "didSet", "willSet", "_modify", "_read", "unsafeAddress"] = false := fun ht => by
      simp [Token.isIdentifierIn, ht]
    have hk₁ := Token.kind_of_isCloser hc
    simp [hend, hz.kind_beq, hword hk₁, hword (hz.kind.trans hk₁)]
  | @cons t t' B B' ht hB ih =>
    simp only [List.cons_append, List.dropWhile_cons, hk ht]
    split
    · exact ih
    · simp only [List.head?_cons, Option.getD_some, List.drop_succ_cons, List.drop_zero, ht.isIdentifierIn]
      cases hB with
      | nil => simp [hz.isSymbolIn]
      | cons hu _ => simp [hu.isSymbolIn]

/-- Where generic arguments cannot be read, an operator stays at the cursor. -/
theorem specialization_none {c₁ : Cursor} (hg : g.Reliable) (hs : c.Sound) (h : g.specialization c = .ok none c₁)
    (hf : genericsFollow c = true) : c₁.peek.kind = .operator := by
  rw [specialization, get_bind_eq_ok, if_pos hf] at h
  obtain ⟨e, c₂, he, rfl⟩ := attempt_eq_none.mp h
  obtain ⟨hl, hb⟩ := (Spec.error (specializationClause_spec hg hs) he).rewind
  simp only [genericsFollow, Token.isOperatorWith, Bool.and_eq_true, beq_iff_eq] at hf
  by_contra hk
  exact hk (hl.peek_eq hb (.inr hk) ▸ hf.1.1)

section Front

variable {S : Setting} {L : Stage} {g' : Grammar} {n n' : Nat} {c' c₁ c₂ : Cursor} {x : Option Text}
  {as : List Argument}

/-- What stands between a macro and the brace behind it, is read in both sources. -/
theorem front_keeps (hg : g.Agree S n n' g') (hr : g.Reliable) (h : c.Twins S L c') (hstrict : L.strict = true)
    (hL : L.next.Fits n n') (hx : g.specialization c = .ok x c₁) (has : g.parenthesized c₁ = .ok as c₂)
    (hl : c₁.Leads c₂) (hpeek : c₂.peek = S.last) (hlast : S.last.isSymbol "\x7b" = true)
    (hahead : c₂.ahead = c₂.peek :: (c₂.advance 1).ahead) :
    ∃ x' c₁' as' c₂', g'.specialization c' = .ok x' c₁' ∧ g'.parenthesized c₁' = .ok as' c₂' ∧
      c.Together S L.stack L.stack c' c₂ c₂' ∧ c₂.Twins S L c₂' := by
  have hkind := Token.kind_of_isSymbol hlast
  -- the brace is not taken by what stands in front of it
  have hpast : ∀ {d : Cursor}, d.Leads c₂ → ¬ Cursor.Past S d := fun {d} hd h => by
    have hle := hd.sound.stop_le_start (hd.behind.subset h) (u := S.last) (by rw [hahead, hpeek]; simp)
    have hlt := (hd.sound.placed_behind (hd.behind.subset h)).lt
    omega
  obtain ⟨x', c₁', hx', ht₁, h₁⟩ : ∃ x' c₁', g'.specialization c' = .ok x' c₁' ∧
      Cursor.Together S L.stack L.stack c c' c₁ c₁' ∧ c₁.Twins S L c₁' := by
    have hfollow := genericsFollow_twin h hstrict
    obtain ⟨hf, hx⟩ | ⟨hf, hx⟩ := ite_eq_ok.mp (get_bind_eq_ok.mp hx)
    · cases x with
      | some text =>
        have hclause := attempt_eq_some.mp hx
        obtain ⟨x', c₁', hx', -, ht₁, h₁⟩ | ⟨-, h₁⟩ := (specializationClause_keeps (l := True) hg (.inl h) hL
          fun _ => trivial).ok _ _ hclause
        · exact ⟨some x', c₁', get_bind_eq_ok.mpr (ite_eq_ok.mpr (.inl ⟨hfollow.trans hf, attempt_eq_some.mpr hx'⟩)),
            ht₁, h₁.within L.next_within⟩
        · exact absurd h₁ (hpast hl)
      | none =>
        -- an operator is neither an opening parenthesis nor a brace
        have hk := specialization_none hr h.fenced.sound (get_bind_eq_ok.mpr (ite_eq_ok.mpr (.inl ⟨hf, hx⟩))) hf
        rw [parenthesized, current_bind_eq_ok, if_neg (by simp [Token.isSymbol, Token.has, hk]), pure_eq_ok] at has
        obtain ⟨-, rfl⟩ := has
        rw [hpeek, hkind] at hk
        cases hk
    · obtain ⟨rfl, rfl⟩ := pure_eq_ok.mp hx
      exact ⟨none, c', get_bind_eq_ok.mpr (ite_eq_ok.mpr (.inr ⟨by rwa [hfollow], rfl⟩)),
        .refl h.fenced.sound h.sound', h⟩
  obtain ⟨as', c₂', has', ht₂, h₂⟩ : ∃ as' c₂', g'.parenthesized c₁' = .ok as' c₂' ∧
      Cursor.Together S L.stack L.stack c₁ c₁' c₂ c₂' ∧ c₂.Twins S L c₂' := by
    have hparen := paren_newline_twin h₁ hstrict
    obtain ⟨hp, has⟩ | ⟨hp, has⟩ := ite_eq_ok.mp (current_bind_eq_ok.mp has)
    · obtain ⟨as', c₂', has', -, ht₂, h₂⟩ | ⟨-, h₂⟩ := (arguments_keeps (l := True) (o := '(') (m := ')') hg (.inl h₁)
        (fun _ _ => trivial) hL (by simp) (by simp)).ok _ _ has
      · exact ⟨as', c₂', current_bind_eq_ok.mpr (ite_eq_ok.mpr (.inl ⟨hparen.trans hp, has'⟩)), ht₂,
          h₂.within L.next_within⟩
      · exact absurd h₂ (hpast hl.sound.refl)
    · obtain ⟨rfl, rfl⟩ := pure_eq_ok.mp has
      exact ⟨[], c₁', current_bind_eq_ok.mpr (ite_eq_ok.mpr (.inr ⟨by rwa [hparen], rfl⟩)),
        .refl h₁.fenced.sound h₁.sound', h₁⟩
  exact ⟨x', c₁', as', c₂', hx', has', ht₁.trans ht₂, h₂⟩

end Front

section Again

variable {c' c₁ : Cursor} {e : Token} {s s' R R' : List Token} {m : MacroExpansion}

/-- A macro that has been read with a closure behind it stands in front of a segment. -/
theorem expansion_encloses (hc : c.Fenced [e]) (h : Parser.expansion c = .ok m c₁) {k : Closure} (hk : k ∈ m.trailing) :
    ∃ A o B z A₁ B₁ R, c.ahead = c.peek :: (A ++ o :: B ++ [z]) ++ R ∧ Refines A A₁ ∧ Refines B B₁ ∧
      (upTo c.room).Encloses c c₁ k A₁ o B₁ z := by
  have hwalks : (upTo c.room).Walks c (fun _ => true) c.room := upTo_walks (fun _ _ => rfl) (by simp) c.room
  rw [← expansionRule_upTo hc.sound (Nat.lt_succ_self _)] at h
  obtain ⟨A₁, o, B₁, z, he⟩ := expansionRule_encloses hwalks ⟨hc, hc.sound.refl.rereads, Nat.lt_succ_self _⟩ h hk
  have hrefines := he.leads.refines
  rw [Cursor.inner, Cursor.inner, he.taken, List.reverse_append, List.reverse_reverse, List.append_assoc] at hrefines
  replace hrefines := hrefines.of_append _
  rw [hc.ahead_eq] at hrefines
  replace hrefines : Refines (c.advance 1).ahead ((A₁ ++ o :: B₁ ++ [z]) ++ c₁.ahead) :=
    Refines.of_append [c.peek] (by simpa using hrefines)
  obtain ⟨r, R, hr, hrs, -, -⟩ := hrefines.segment_front he.block.segment
  rw [List.append_assoc] at hrs
  obtain ⟨A, _, rfl, hA, hrs⟩ := hrs.split_at (by simp [Token.kind_of_isSymbol he.block.opening])
  obtain ⟨B, _, rfl, hB, hlast⟩ := hrs.split_at (by simp [Token.kind_of_isSymbol he.block.closing])
  cases hlast
  exact ⟨A, o, B, z, A₁, B₁, R, by rw [hc.ahead_eq, hr]; simp, hA, hB, he⟩

/-- A type takes no block, and stops in front of it. -/
theorem stops_at_block {d : Cursor} {A : List Token} {o : Token} (h : c.Takes Token.idle d)
    (hahead : c.ahead = A ++ o :: R) (hA : nested [] A = true ∧ Level (fun t _ => t.idle = true) [] A)
    (ho : o.isSymbol "\x7b" = true) : o ∉ d.behind ∧ (d.peek.isSymbol "\x7b" = true → d.peek = o) := by
  obtain ⟨w, hw, hnested, hlevel⟩ := h.taken
  have hrefines := h.leads.refines
  rw [Cursor.inner, Cursor.inner, hw, List.reverse_append, List.reverse_reverse, List.append_assoc] at hrefines
  replace hrefines := hahead ▸ hrefines.of_append _
  obtain ⟨A₁, vs, heq, hA₁, -⟩ := hrefines.divide_at (by simp [Token.kind_of_isSymbol ho])
  have hnested₁ : nested [] A₁ = true := by rw [Token.nested_refines hA₁, hA.1]
  have hidle := hA.2.refined hA₁ fun _ => Token.idle_of_operator
  have hpast : o ∈ d.ahead → o ∉ d.behind := fun hmem hbehind => by
    have hlt := (h.leads.sound.placed_behind hbehind).lt
    have hle := h.leads.sound.stop_le_start hbehind hmem
    omega
  rcases List.append_eq_append_iff.mp heq with ⟨C, rfl, hC⟩ | ⟨C, rfl, hC⟩
  · refine ⟨hpast (by simp [hC]), fun hpeek => ?_⟩
    cases C with
    | nil => simp [Cursor.peek, hC]
    | cons y C =>
      -- what is in front of the block is none
      have hy := (Level.back hnested hidle).1 rfl
      rw [Cursor.peek, hC] at hpeek
      simp [Token.not_brace hy] at hpeek
  · cases C with
    | nil =>
      have hnext : d.ahead = o :: vs := hC.symm
      exact ⟨hpast (by simp [hnext]), fun _ => by simp [Cursor.peek, hnext]⟩
    | cons y C =>
      obtain ⟨rfl, -⟩ := List.cons.inj hC
      have := (Level.back hnested₁ (hlevel.of_idle hnested)).1 rfl
      simp [Token.not_brace this] at ho

/-- The closure behind a brace is read in front of tokens that are alike. -/
theorem closureRule_again {g' : Grammar} {n n' : Nat} {o o' z z' : Token} {B B' : List Token} {k : Closure}
    (hg : ∀ S, g.Agree S n n' g') (hs : c.Sound) (hs' : c'.Sound) (hahead : c.ahead = o :: B ++ z :: R)
    (hahead' : c'.ahead = o' :: B' ++ z' :: R') (ho : o.isSymbol "\x7b" = true) (ho' : Akin o o')
    (hB : nested [] B = true) (hsettled : settled B = true) (hz : z.isSymbol "\x7d" = true)
    (hakin : B.Forall₂ Akin B') (hz' : Akin z z') (hn : c.room ≤ n) (hn' : c'.room ≤ n')
    (h : g.closureRule c = .ok k c₁) : ∃ k' c₁' w w', g'.closureRule c' = .ok k' c₁' ∧
      c₁.behind = (o :: w ++ [z]).reverse ++ c.behind ∧ c₁.ahead = R ∧
      c₁'.behind = (o' :: w' ++ [z']).reverse ++ c'.behind ∧ c₁'.ahead = R' ∧ w.Forall₂ Akin w' := by
  have hcloser := Token.isCloser_of_isSymbol hz (by simp)
  have hpeek : c.peek = o ∧ c'.peek = o' := by simp [Cursor.peek, hahead, hahead']
  have hkind : c.peek.kind ≠ .eof ∧ c'.peek.kind ≠ .eof := by
    simp [hpeek, ho'.kind, Token.kind_of_isSymbol ho]
  have hbehind := hs.behind_advance hkind.1
  have hbehind' := hs'.behind_advance hkind.2
  obtain ⟨ds, hds, -, hfenced⟩ := Token.Fenced.of_nested hB hsettled hcloser (.done R)
  obtain rfl : ds = [] := by simpa using hds
  have hahead₁ : ∀ {d : Cursor} {y : Token} {Y : List Token}, d.ahead = y :: Y →
      (d.advance 1).behind = y :: d.behind ∧ (d.advance 1).ahead = Y := fun h => by simp [Cursor.advance, h]
  have h₁ : (c.advance 1).Twins (.akin z z' R R' (.inl hcloser)) ⟨true, n, n', z, []⟩ (c'.advance 1) :=
    .of_akin ⟨(hs.advance 1).sound, by rw [(hahead₁ hahead).2]; exact hfenced⟩ (hs'.advance 1).sound
      (hahead₁ hahead).2 (hahead₁ hahead').2 hB hakin hz' _
      (((hs.advance 1).room_lt hs (by simp [hbehind])).trans_le hn)
      (((hs'.advance 1).room_lt hs' (by simp [hbehind'])).trans_le hn')
  rw [closureRule_eq, expect_bind_eq_ok] at h
  obtain ⟨hopening, h⟩ := h
  obtain ⟨p, c₂, hp, h⟩ := of_bind_ok h
  rw [expect_bind_eq_ok, sliceFrom_bind_eq_ok, pure_eq_ok] at h
  obtain ⟨hclosing, rfl, rfl⟩ := h
  obtain ⟨p', c₂', hp', -, htogether, h₂⟩ := ((closureInside_keeps (l := False) (hg _) (.inl h₁)
    (by simp [Stage.Loose, Token.Setting.akin, hcloser]) ⟨le_rfl, le_rfl⟩ hz fun _ => hz).ok _ _ hp).resolve_right (·.1)
  have hlast : c₂.peek = z :=
    (h₂.fenced.advance_closer (h₂.fenced.isCloser_of_reads (m := '\x7d') (by simp) hclosing)).1
  obtain ⟨w, w', hw, hw', hall, hend, hend'⟩ := htogether.copied h₂ hlast
  replace hend : c₂.ahead = z :: R := hend
  replace hend' : c₂'.ahead = z' :: R' := hend'
  have hpeek' : c₂'.peek = z' := by simp [Cursor.peek, hend']
  refine ⟨⟨p'.1, p'.2, (c₂'.advance 1).sliceFrom c'.peek, Text.spaces 4⟩, c₂'.advance 1, w, w', ?_, ?_,
    (hahead₁ hend).2, ?_, (hahead₁ hend').2, hall.imp fun _ _ ht => ht.akin⟩
  · rw [closureRule_eq]
    refine expect_bind_eq_ok.mpr ⟨?_, bind_eq_ok.mpr ⟨p', c₂', hp', expect_bind_eq_ok.mpr ⟨?_, rfl⟩⟩⟩
    · rw [hpeek.2, ho'.reads, ← hpeek.1]
      exact hopening
    · rw [hpeek', hz'.reads, ← hlast]
      exact hclosing
  · rw [(hahead₁ hend).1, hw, hbehind, hpeek.1]
    simp
  · rw [(hahead₁ hend').1, hw', hbehind', hpeek.2]
    simp

/-- Where a macro has been read with a closure behind it, it is read in front of tokens that are alike, and the same
operators are split. What is behind the closure is left as it is. -/
theorem expansion_again (hc : c.Fenced [e]) (h : Parser.expansion c = .ok m c₁) (hk : m.trailing.isSome = true)
    (hahead : c.ahead = c.peek :: s ++ R) (hs : segment [] false s = true) (hsettled : settled s = true)
    (hs' : c'.Sound) (hpound : c'.peek.kind = .poundName) (hahead' : c'.ahead = c'.peek :: s' ++ R')
    (hakin : s.Forall₂ Akin s') : ∃ k' o' B' z' c₁' w w', c'.Calls s' k' o' B' z' c₁' ∧
      c₁.behind = (c.peek :: w).reverse ++ c.behind ∧ c₁.ahead = R ∧
      c₁'.behind = (c'.peek :: w').reverse ++ c'.behind ∧ c₁'.ahead = R' ∧ Refines s w ∧ w.Forall₂ Akin w' := by
  obtain ⟨k, hk⟩ := Option.isSome_iff_exists.mp hk
  obtain ⟨A, o, B, z, A₁, B₁, R₀, hall, hA, hB, he⟩ := expansion_encloses hc h hk
  have hblock := he.block.of_refines hA hB
  obtain ⟨rfl, rfl⟩ := Token.segment_unique hs hblock.segment
    (show s ++ R = A ++ o :: B ++ [z] ++ R₀ from (List.cons.inj (hahead.symm.trans hall)).2)
  obtain ⟨x, d₁, as, d₂, hx, has, hl₁, hl₂, hpeek, hfollows, hclosure⟩ := he.closure
  have hcloses := hblock.closes
  have hseam : o.isCloser = true ∨ o.isSeam = true := .inr (by simp [Token.isSeam, Token.isOpener_of_brace hblock.opening])
  -- the parts of both segments
  obtain ⟨A', o', B', z', rfl, hAA', hoo', hBB', hzz'⟩ := hakin.block
  have hblock' : Token.Block A' o' B' z' := hblock.alike (hAA'.imp fun _ _ ht => ht.toAlike) hoo'.toAlike
    (hBB'.imp fun _ _ ht => ht.toAlike) hzz'.toAlike
  have hsettledB : settled B = true :=
    Token.settled_front (show settled (B ++ z :: []) = true from Token.settled_suffix hsettled ⟨A ++ [o], by simp⟩)
      hblock.inside hcloses.1
  -- both cursors behind the name of the macro
  have hplain := Token.not_bracket_of_kind (t := c.peek) (by simp [(expansionRule_eq_ok.mp
    ((expansionRule_upTo hc.sound (Nat.lt_succ_self _)).trans h)).1])
  have hbehind := hc.behind_advance
  have hbehind' := hs'.behind_advance (by simp [hpound])
  have hroom := (hc.sound.advance 1).room_lt hc.sound (by simp [hbehind])
  have hroom' := (hs'.advance 1).room_lt hs' (by simp [hbehind'])
  have h₁ : (c.advance 1).Twins (.akin o o' (B ++ z :: R) (B' ++ z' :: R') hseam) ⟨true, c.room, c'.room, e, []⟩
      (c'.advance 1) :=
    .of_akin (hc.advance hplain) (hs'.advance 1).sound (by simp [Cursor.advance, hahead])
      (by simp [Cursor.advance, hahead']) hblock.front.1 hAA' hoo' _ hroom hroom'
  obtain ⟨t, ht⟩ := hl₂.sound.ahead_eq (by rw [hpeek]; simp [Token.kind_of_isSymbol hblock.opening])
  obtain ⟨x', d₁', as', d₂', hx', has', htogether, h₂⟩ := front_keeps (upTo_agree _ c.room c'.room) (upTo_reliable _)
    h₁ rfl ⟨Nat.sub_le _ _, Nat.sub_le _ _⟩ hx has hl₁ hpeek hblock.opening (by simp [Cursor.advance, ht])
  obtain ⟨w, w', hw, hw', hfront, hend, hend'⟩ := htogether.copied h₂ hpeek
  replace hend : d₂.ahead = o :: B ++ z :: R := hend
  replace hend' : d₂'.ahead = o' :: B' ++ z' :: R' := hend'
  have hpeek' : d₂'.peek = o' := by simp [Cursor.peek, hend']
  have hclosureFollows : closureFollows d₂' = true := by
    rw [closureFollows, accessorsFollow_akin hend hend' hBB' hzz' hcloses.1, hpeek', hoo'.isSymbol,
      (hoo'.gap (Token.not_closer_of_opener (Token.isOpener_of_brace hblock.opening))).1, ← hpeek]
    exact hfollows
  have hle' := htogether.leads'.room_le (hs'.advance 1).sound |>.trans hroom'.le
  obtain ⟨k', c₁', v, v', hk', hv, hR, hv', hR', hvv'⟩ := closureRule_again (fun S => upTo_agree S c.room c'.room)
    hl₂.sound h₂.sound' hend hend' hblock.opening hoo' hblock.inside hsettledB hblock.closing hBB' hzz'
    (hl₂.room_le (hc.sound.advance 1).sound |>.trans hroom.le) hle' hclosure
  obtain ⟨m', hm', htrailing⟩ : ∃ m', Parser.expansion c' = .ok m' c₁' ∧ m'.trailing = some k' := by
    refine ⟨⟨c'.peek.text.drop 1, as', some k', c₁'.sliceFrom c'.peek, c'.peek.start, c₁'.previous.stop, c'.peek.line,
      c'.peek.column⟩, ?_, rfl⟩
    rw [← expansionRule_upTo hs' (Nat.lt_succ_self _), expansionRule_eq_ok]
    exact ⟨hpound, x', d₁', as', d₂', some k', hx', has',
      trailingClosure_eq_ok.mpr (.inl ⟨hclosureFollows, k', hk', rfl⟩), rfl⟩
  have hinside' : settled B' = true := Token.settled_alike (hBB'.imp fun _ _ ht => ht.toAlike) hsettledB fun u hu hku =>
    (h₂.sound'.placed_ahead (t := u) (by simp [hend', hu])).awaitsBlock_literal hku
  have hsettled' : settled (A' ++ o' :: B' ++ [z']) = true :=
    Token.settled_alike (hakin.imp fun _ _ ht => ht.toAlike) hsettled fun u hu hku =>
      (hs'.placed_ahead (hahead' ▸ List.mem_append_left R' (List.mem_cons_of_mem _ hu))).awaitsBlock_literal hku
  refine ⟨k', o', B', z', c₁', w ++ o :: v ++ [z], w' ++ o' :: v' ++ [z'], ⟨⟨R', hahead'⟩, hsettled', ⟨m', hm', htrailing⟩,
    ⟨d₂', htogether.leads', h₂.sound', ⟨R', hend'⟩, hblock'.opening, ⟨hblock'.inside, hinside'⟩, hblock'.closing,
      c'.room, hle', hk'⟩, ⟨A', rfl, hblock'⟩⟩, ?_, hR, ?_, hR', ?_, ?_⟩
  · rw [hv, hw, hbehind]
    simp
  · rw [hv', hw', hbehind']
    simp
  · have htaken := he.taken
    rw [hv, hw, hbehind] at htaken
    have heq : (c.peek :: (w ++ o :: v ++ [z])).reverse ++ c.behind =
        (c.peek :: A₁ ++ o :: B₁ ++ [z]).reverse ++ c.behind := by simpa using htaken
    rw [List.append_cancel_right_eq, List.reverse_inj] at heq
    obtain ⟨-, heq⟩ := List.cons.inj heq
    rw [heq]
    exact (hA.both (.keep o hB)).both (.keep z .nil)
  · exact List.rel_append (List.rel_append (hfront.imp fun _ _ ht => ht.akin) (.cons hoo' hvv')) (.cons hzz' .nil)

/-- Where a macro is read with a closure behind it or not at all, it is so in front of tokens that are alike. -/
theorem expansion_closes (hc : c.Fenced [e]) (hcalls : ∀ m c₁, Parser.expansion c = .ok m c₁ → m.trailing.isSome = true)
    {A B A' B' : List Token} {o z o' z' : Token} (hblock : Token.Block A o B z) (hpound : c.peek.kind = .poundName)
    (hahead : c.ahead = c.peek :: (A ++ o :: B ++ [z]) ++ R) (hs' : c'.Sound) (hpound' : c'.peek.kind = .poundName)
    (hahead' : c'.ahead = c'.peek :: (A' ++ o' :: B' ++ [z']) ++ R') (hA : A.Forall₂ Akin A') (ho : Akin o o')
    (hB : B.Forall₂ Akin B') (hz : Akin z z') {c₁' : Cursor} (h : Parser.expansion c' = .ok m c₁') :
    m.trailing.isSome = true := by
  have hseam : o.isCloser = true ∨ o.isSeam = true := .inr (by simp [Token.isSeam, Token.isOpener_of_brace hblock.opening])
  have hplain := Token.not_bracket_of_kind (t := c.peek) (by simp [hpound])
  have hbehind := hc.behind_advance
  have hbehind' := hs'.behind_advance (by simp [hpound'])
  have hroom := (hc.sound.advance 1).room_lt hc.sound (by simp [hbehind])
  have hroom' := (hs'.advance 1).room_lt hs' (by simp [hbehind'])
  obtain ⟨S, hS⟩ : ∃ S, S = Setting.akin o o' (B ++ z :: R) (B' ++ z' :: R') hseam := ⟨_, rfl⟩
  have hlast : S.last = o := by rw [hS]; rfl
  obtain ⟨L, hL⟩ : ∃ L, L = (⟨true, c.room, c'.room, e, []⟩ : Stage) := ⟨_, rfl⟩
  have hfits : L.next.Fits c.room c'.room := by rw [hL]; exact ⟨Nat.sub_le _ _, Nat.sub_le _ _⟩
  have hstrict : L.strict = true := by rw [hL]
  have h₁ : (c.advance 1).Twins S L (c'.advance 1) := by
    rw [hS, hL]
    exact .of_akin (hc.advance hplain) (hs'.advance 1).sound (by simp [Cursor.advance, hahead])
      (by simp [Cursor.advance, hahead']) hblock.front.1 hA ho _ hroom hroom'
  have hagree := upTo_agree S c.room c'.room
  have hreliable := upTo_reliable c.room
  have hwalks : (upTo c.room).Walks c (fun _ => true) c.room := upTo_walks (fun _ _ => rfl) (by simp) c.room
  have hfront : (c.advance 1).ahead = A ++ o :: (B ++ z :: R) := by simp [Cursor.advance, hahead]
  have hc₁ : Cursor.Amid c [e] c.room (c.advance 1) :=
    ⟨hc.advance hplain, (hc.sound.advance 1).rereads, hroom⟩
  rw [← expansionRule_upTo hs' (Nat.lt_succ_self _), expansionRule_eq_ok] at h
  obtain ⟨-, x', d₁', as', d₂', k', hx', has', hk', rfl⟩ := h
  have hcalls' : ∀ {x d₁ as d₂}, (upTo c.room).specialization (c.advance 1) = .ok x d₁ →
      (upTo c.room).parenthesized d₁ = .ok as d₂ → closureFollows d₂ = true := fun {x d₁ as d₂} hx has => by
    by_contra hnone
    have hread : Parser.expansion c = .ok ⟨c.peek.text.drop 1, as, none, d₂.sliceFrom c.peek, c.peek.start,
        d₂.previous.stop, c.peek.line, c.peek.column⟩ d₂ := by
      rw [← expansionRule_upTo hc.sound (Nat.lt_succ_self _), expansionRule_eq_ok]
      exact ⟨hpound, x, d₁, as, d₂, none, hx, has, trailingClosure_eq_ok.mpr (.inr ⟨by simpa using hnone, rfl, rfl⟩), rfl⟩
    cases hcalls _ _ hread
  -- the generic arguments
  obtain ⟨x, d₁, hx, ht₁, h₁⟩ : ∃ x d₁, (upTo c.room).specialization (c.advance 1) = .ok x d₁ ∧
      Cursor.Together S L.stack L.stack (c.advance 1) (c'.advance 1) d₁ d₁' ∧ d₁.Twins S L d₁' := by
    have hfollow := genericsFollow_twin h₁ hstrict
    cases hf : genericsFollow (c.advance 1) with
    | false =>
      rw [specialization, get_bind_eq_ok, if_neg (by rw [hfollow, hf]; simp), pure_eq_ok] at hx'
      obtain ⟨-, rfl⟩ := hx'
      exact ⟨none, _, get_bind_eq_ok.mpr (ite_eq_ok.mpr (.inr ⟨by simp [hf], rfl⟩)), .refl h₁.fenced.sound h₁.sound', h₁⟩
    | true =>
      rw [specialization, get_bind_eq_ok, if_pos (by rw [hfollow, hf])] at hx'
      cases hclause : (upTo c.room).specializationClause (c.advance 1) with
      | ok text d₁ =>
        have hx : (upTo c.room).specialization (c.advance 1) = .ok (some text) d₁ :=
          get_bind_eq_ok.mpr (ite_eq_ok.mpr (.inl ⟨hf, attempt_eq_some.mpr hclause⟩))
        have hpast := (stops_at_block (specialization_walks hwalks (hc₁.mono (Nat.le_succ _)) _ _ hx).2 hfront hblock.front
          hblock.opening).1
        obtain ⟨y, d, hy, -, ht, hd⟩ := ((specializationClause_keeps (l := True) hagree (.inl h₁) hfits
          fun _ => trivial).ok _ _ hclause).resolve_right fun h => hpast (hlast ▸ h.2)
        obtain ⟨rfl, rfl⟩ : some y = x' ∧ d = d₁' := by simpa [attempt_eq_some.mpr hy] using hx'
        exact ⟨some text, d₁, hx, ht, hd.within L.next_within⟩
      | error y d =>
        -- what cannot be read as generic arguments, stays in front of the closure
        obtain ⟨r, hr⟩ : ∃ r, (upTo c.room).specialization (c.advance 1) = .ok none r :=
          ⟨_, get_bind_eq_ok.mpr (ite_eq_ok.mpr (.inl ⟨hf, attempt_eq_none.mpr ⟨y, d, hclause, rfl⟩⟩))⟩
        have hk := specialization_none hreliable hc₁.sound hr hf
        have hnone : (upTo c.room).parenthesized r = .ok [] r := by
          rw [parenthesized, current_bind_eq_ok, if_neg (by simp [Token.isSymbol, Token.has, hk])]
          rfl
        have := hcalls' hr hnone
        simp [closureFollows, Token.isSymbol, Token.has, hk] at this
  -- the arguments
  obtain ⟨as, d₂, has, ht₂, h₂⟩ : ∃ as d₂, (upTo c.room).parenthesized d₁ = .ok as d₂ ∧
      Cursor.Together S L.stack L.stack d₁ d₁' d₂ d₂' ∧ d₂.Twins S L d₂' := by
    have hparen := paren_newline_twin h₁ hstrict
    by_cases hp : (d₁.peek.isSymbol "(" && !d₁.peek.newlineBefore) = true
    · rw [parenthesized, current_bind_eq_ok, if_pos (hparen.trans hp)] at has'
      have hkeeps := arguments_keeps (l := False) (o := '(') (m := ')') hagree (.inl h₁)
        (fun _ heq => by
          simp only [Bool.and_eq_true] at hp
          have ho := hblock.opening
          rw [← hlast, ← heq] at ho
          simp only [Token.isSymbol, Token.has, Bool.and_eq_true, beq_iff_eq] at hp ho
          simp [hp.1.2] at ho) hfits (by simp) (by simp)
      cases hargs : (upTo c.room).arguments "(" ")" d₁ with
      | ok as d₂ =>
        obtain ⟨as₂, d, has₂, -, ht, hd⟩ := (hkeeps.ok _ _ hargs).resolve_right (·.1)
        obtain ⟨-, rfl⟩ : as₂ = as' ∧ d = d₂' := by
          have := has₂.symm.trans has'
          simpa using this
        exact ⟨as, d₂, current_bind_eq_ok.mpr (ite_eq_ok.mpr (.inl ⟨hp, hargs⟩)), ht, hd.within L.next_within⟩
      | error y d =>
        obtain ⟨y', d', he, -⟩ := (hkeeps.error _ _ hargs).resolve_right (·.1)
        have := he.symm.trans has'
        cases this
    · rw [parenthesized, current_bind_eq_ok, if_neg (by rwa [hparen]), pure_eq_ok] at has'
      obtain ⟨-, rfl⟩ := has'
      exact ⟨[], d₁, current_bind_eq_ok.mpr (ite_eq_ok.mpr (.inr ⟨hp, rfl⟩)), .refl h₁.fenced.sound h₁.sound', h₁⟩
  -- the closure
  have hfollows := hcalls' hx has
  have hopening : d₂.peek.isSymbol "\x7b" = true := by
    simp only [closureFollows, Bool.and_eq_true] at hfollows
    exact hfollows.1.1
  obtain ⟨hf₁, hw₁⟩ := specialization_walks hwalks (hc₁.mono (Nat.le_succ _)) _ _ hx
  have hw₂ := (parenthesized_walks hwalks.fences (hc₁.takes hf₁ hw₁) _ _ has).2
  have hpeek : d₂.peek = S.last :=
    hlast.symm ▸ (stops_at_block (hw₁.trans hw₂) hfront hblock.front hblock.opening).2 hopening
  obtain ⟨w, w', hw, hw', -, hend, hend'⟩ := (ht₁.trans ht₂).copied h₂ hpeek
  rw [hS] at hend hend'
  replace hend : d₂.ahead = o :: B ++ z :: R := hend
  replace hend' : d₂'.ahead = o' :: B' ++ z' :: R' := hend'
  have hfollows' : closureFollows d₂' = true := by
    rw [closureFollows, accessorsFollow_akin hend hend' hB hz hblock.closes.1, show d₂'.peek = o' by simp [Cursor.peek, hend'],
      ho.isSymbol, (ho.gap (Token.not_closer_of_opener (Token.isOpener_of_brace hblock.opening))).1, ← hlast, ← hpeek]
    exact hfollows
  obtain ⟨-, k, -, rfl⟩ | ⟨hnone, -⟩ := trailingClosure_eq_ok.mp hk'
  · rfl
  · simp [hfollows'] at hnone

end Again

end Grammar

end SwiftMacros
