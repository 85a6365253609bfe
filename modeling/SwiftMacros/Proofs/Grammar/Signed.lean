import Mathlib
import SwiftMacros.Proofs.Grammar.Twins
import SwiftMacros.Proofs.Tree.Closure
import SwiftMacros.Proofs.Token.Balanced

/-! The signature of a closure up to the word `in`, in two runs side by side. -/

namespace SwiftMacros

open Token (Setting Twin)
open Cursor (Beside Halted)
open SwiftMacros.Parser

theorem Token.not_operator_of_identifier {t : Token} {ws : List String} (h : t.isIdentifierIn ws = true) :
    t.kind ≠ .operator := by
  simp [Token.kind_of_isIdentifierIn h]

namespace Grammar

section Answers

variable {g : Grammar} {c c' : Cursor}

theorem closureSignature_eq_ok {s : Signature} : g.closureSignature c = .ok s c' ↔ ∃ parts c₁,
    g.signatureParts c = .ok parts c₁ ∧ c₁.peek.isIdentifierIn ["in"] = true ∧ c' = c₁.advance 1 ∧
      s = parts (c'.sliceFrom c.peek) := by
  rw [closureSignature_eq, current_bind_eq_ok, bind_eq_ok]
  refine exists_congr fun parts => exists_congr fun c₁ => and_congr_right fun _ => ?_
  rw [current_bind_eq_ok, ite_eq_ok, skip_bind_eq_ok, sliceFrom_bind_eq_ok, pure_eq_ok]
  constructor
  · rintro (⟨hin, rfl, rfl⟩ | ⟨-, h⟩)
    · exact ⟨hin, rfl, rfl⟩
    · cases h
  · rintro ⟨hin, rfl, rfl⟩
    exact .inl ⟨hin, rfl, rfl⟩

theorem signatureParts_text {parts : Text → Signature} (h : g.signatureParts c = .ok parts c') (t : Text) :
    (parts t).text = t := by
  obtain ⟨_, _, -, h⟩ := of_bind_ok h
  have hrest : ∀ (attributes : List Attribute) (capture : Option CaptureClause) (d : Cursor),
      (g.closureParameters >>= fun parameters => effects >>= fun effects => g.returnClause >>= fun result =>
        pure fun text => (⟨capture, parameters, effects, result, attributes.map (·.text), text⟩ : Signature)) d =
          .ok parts c' → (parts t).text = t := by
    intro attributes capture d h
    obtain ⟨_, _, -, h⟩ := of_bind_ok h
    obtain ⟨_, _, -, h⟩ := of_bind_ok h
    obtain ⟨_, _, -, h⟩ := of_bind_ok h
    obtain ⟨rfl, -⟩ := pure_eq_ok.mp h
    rfl
  rcases ite_eq_ok.mp (current_bind_eq_ok.mp h) with ⟨-, h⟩ | ⟨-, h⟩
  · obtain ⟨_, _, -, h⟩ := of_bind_ok h
    exact hrest _ _ _ h
  · exact hrest _ _ _ h

theorem statements_eq_ok {ss : List Statement} : statements c = .ok ss c' ↔ ∃ n, statementsFrom c.source c.eof
    { start := c.previous.stop + ((c.source.drop c.previous.stop).takeWhile Text.isBlank).length } c.ahead =
      some (ss, n) ∧ c.advance n = c' := by
  rw [statements, get_bind_eq_ok]
  generalize statementsFrom c.source c.eof _ c.ahead = r
  cases r with
  | none =>
    refine iff_of_false (fun h => ?_) (by simp)
    cases skip_bind_eq_ok.mp h
  | some r =>
    obtain ⟨items, n⟩ := r
    simp only [skip_bind_eq_ok, pure_eq_ok, Option.some.injEq, Prod.mk.injEq]
    constructor
    · rintro ⟨hitems, hc⟩
      exact ⟨n, ⟨hitems, rfl⟩, hc⟩
    · rintro ⟨_, ⟨hitems, rfl⟩, hc⟩
      exact ⟨hitems, hc⟩

/-- A closure is its braces, what was tried as a signature, and the statements between. -/
theorem closureRule_eq_ok {k : Closure} : g.closureRule c = .ok k c' ↔ ∃ c₁ n, c.peek.reads ['\x7b'] = true ∧
    attempt g.closureSignature (c.advance 1) = .ok k.signature c₁ ∧
    statementsFrom c₁.source c₁.eof
      { start := c₁.previous.stop + ((c₁.source.drop c₁.previous.stop).takeWhile Text.isBlank).length } c₁.ahead =
        some (k.statements, n) ∧
    (c₁.advance n).peek.reads ['\x7d'] = true ∧ c' = (c₁.advance n).advance 1 ∧ k.text = c'.sliceFrom c.peek ∧
      k.indentUnit = Text.spaces 4 := by
  rw [closureRule, expect_bind_eq_ok, bind_eq_ok]
  constructor
  · rintro ⟨hopening, signature, c₁, hsig, h⟩
    obtain ⟨ss, c₂, hss, h⟩ := of_bind_ok h
    obtain ⟨n, hitems, rfl⟩ := statements_eq_ok.mp hss
    obtain ⟨hclosing, h⟩ := expect_bind_eq_ok.mp h
    rw [sliceFrom_bind_eq_ok, pure_eq_ok] at h
    obtain ⟨rfl, rfl⟩ := h
    exact ⟨c₁, n, hopening, hsig, hitems, hclosing, rfl, rfl, rfl⟩
  · rintro ⟨c₁, n, hopening, hsig, hss, hclosing, rfl, htext, hunit⟩
    obtain ⟨signature, ss, text, unit⟩ := k
    refine ⟨hopening, signature, c₁, hsig, bind_eq_ok.mpr ⟨ss, _, statements_eq_ok.mpr ⟨n, hss, rfl⟩, ?_⟩⟩
    rw [expect_bind_eq_ok, sliceFrom_bind_eq_ok, pure_eq_ok, ← htext, ← hunit]
    exact ⟨hclosing, rfl, rfl⟩

end Answers

section Runs

variable {S : Setting} {l : Prop} {L : Stage} {n n' : Nat} {g g' : Grammar} {c c' : Cursor} {e : Token} {es : List Token}

/-- The word `in` behind a signature is a token of the source, with brackets in pairs in front of it. -/
theorem closureSignature_split (hg : g.Fences) (hv : g.Verbatim) (hc : c.Fenced [e]) {s : Signature}
    (h : g.closureSignature c = .ok s c') : ∃ us x vs, c.ahead = us ++ x :: vs ∧ x.isIdentifierIn ["in"] = true ∧
      Token.nested [] us = true ∧ c'.behind.head? = some x ∧ c.Leads c' ∧ c'.Fenced [e] := by
  obtain ⟨hl, hshows⟩ := (closureSignature_shows hv hc.sound).ok h
  have hc' := closureSignature_stays hg hc s c' h
  obtain ⟨parts, d, hparts, hin, rfl, rfl⟩ := closureSignature_eq_ok.mp h
  have hd := signatureParts_stays hg hc parts d hparts
  have hk : d.peek.kind ≠ .eof := by simp [Token.kind_of_isIdentifierIn hin]
  have hbehind := hd.sound.behind_advance hk
  have hx := hd.sound.placed_peek hk
  -- the word has not been taken before
  obtain ⟨ws, hws⟩ : c.behind <:+ d.behind := by
    refine (List.suffix_cons_iff.mp (hbehind ▸ hl.behind)).resolve_left fun heq => ?_
    have hlt := hshows.lt
    have hedge : c.edge = (d.advance 1).edge := by rw [Cursor.edge, Cursor.edge, hbehind, heq]
    have := hc.sound.edge_le_peek
    omega
  have hrefines : Token.Refines c.ahead (ws.reverse ++ d.peek :: (d.advance 1).ahead) := by
    have hinner : (d.advance 1).inner = c.behind.reverse ++ (ws.reverse ++ d.peek :: (d.advance 1).ahead) := by
      rw [Cursor.inner, hbehind, ← hws]
      simp
    exact (hinner ▸ hl.refines).of_append _
  obtain ⟨us, vs, hahead, -, hvs⟩ := hrefines.split_at (Token.not_operator_of_identifier hin)
  refine ⟨us, d.peek, vs, hahead, hin, ?_, by rw [hbehind]; rfl, hl, hc'⟩
  have hnodup := hc.sound.nodup_ahead
  have hfenced : Token.Fenced ([] ++ [e]) c.ahead := hc.ahead
  have hdahead := hd.ahead
  rw [hahead] at hnodup hfenced
  rw [hd.ahead_eq] at hdahead
  refine Token.Fenced.nested_front hfenced hdahead (.keep _ hvs) hnodup fun he => ?_
  -- the mark that is to come is behind the word
  have hpair := hc.sound.ahead_pairwise
  rw [hahead, List.pairwise_append] at hpair
  have hbefore := hpair.2.2 e he d.peek (by simp)
  have hmem : e ∈ (d.advance 1).ahead := hc'.ahead.sublist.subset (by simp)
  have hafter := hc'.sound.stop_le_start (t := d.peek) (by simp [hbehind]) hmem
  have := hx.lt
  omega

/-- What is read as a signature up to the last token in common is read again. -/
theorem closureSignature_again (hg : g.Agree S n n' g') (h : c.Twins S L c') (hL : L.next.Fits n n') {s : Signature}
    {c₁ : Cursor} (hs : g.closureSignature c = .ok s c₁) (hl : c.Leads c₁) (hx : c₁.behind.head? = some S.last) :
    ∃ s' c₁', g'.closureSignature c' = .ok s' c₁' ∧ s'.text = c₁'.sliceFrom c'.peek ∧ c₁.ahead = S.rest ∧
      c₁'.ahead = S.rest' ∧ c₁'.behind.head? = some S.last' ∧ c'.Leads c₁' := by
  obtain ⟨parts, d, hparts, hin, rfl, rfl⟩ := closureSignature_eq_ok.mp hs
  have hd : d.Sound := hl.sound.of_inner rfl rfl (Cursor.inner_advance d 1).symm
  have hk : d.peek.kind ≠ .eof := by simp [Token.kind_of_isIdentifierIn hin]
  rw [hd.behind_advance hk] at hx
  replace hx : d.peek = S.last := Option.some.inj hx
  have hahead := hd.ahead_eq hk
  rcases (signatureParts_keeps hg (.inl h) hL fun _ => trivial).ok parts d hparts with
    ⟨parts', d', hparts', -, htogether, hd'⟩ | ⟨-, hpast⟩
  · obtain ⟨us, us', hus, hus', hall, -⟩ := hd'.ahead.eq_append
    -- it is the next one, since all tokens are different
    obtain rfl : us = [] := by
      have hnodup := hd.nodup_ahead
      cases us with
      | nil => rfl
      | cons u us =>
        obtain ⟨ts, hts⟩ := hahead
        obtain ⟨rfl, -⟩ := List.cons.inj (hts.symm.trans hus)
        rw [hus, hx] at hnodup
        simp at hnodup
    cases hall
    have hpeek' : d'.peek = S.last' := by simp [Cursor.peek, hus']
    have hk' := hd'.kind_ne_eof.2
    refine ⟨_, _, closureSignature_eq_ok.mpr ⟨parts', d', hparts', ?_, rfl, rfl⟩, signatureParts_text hparts' _, ?_, ?_, ?_,
      htogether.leads'.trans (hd'.sound'.advance 1)⟩
    · rw [hd'.peek.isIdentifierIn]
      exact hin
    · simp [Cursor.advance, hus]
    · simp [Cursor.advance, hus']
    · rw [hd'.sound'.behind_advance hk', hpeek']
      rfl
  · -- the last token in common is still ahead
    obtain ⟨ts, hts⟩ := hahead
    have hle := hd.stop_le_start hpast (u := S.last) (by simp [hts, hx])
    have := (hd.placed_behind hpast).lt
    omega

/-- What is read as no signature is none the second time. -/
theorem closureSignature_none (hg : g.Agree S n n' g') (h : c.Twins S L c') (hL : L.next.Fits n n') (hl : ¬ L.Loose S)
    {c₁ : Cursor} (hnone : attempt g.closureSignature c = .ok none c₁) :
    ∃ c₁', attempt g'.closureSignature c' = .ok none c₁' ∧ c₁.Twins S L c₁' ∧ c₁.behind = c.behind ∧
      c₁'.behind = c'.behind ∧ c.Leads c₁ ∧ c'.Leads c₁' := by
  obtain ⟨x, d, hd, rfl⟩ := attempt_eq_none.mp hnone
  obtain ⟨x', d', hd', hhalted⟩ := ((closureSignature_keeps (l := False) hg (.inl h) hL hl).error x d hd).resolve_right
    fun hpast => hpast.1
  obtain ⟨hleads, hbehind⟩ := hhalted.leads.rewind
  obtain ⟨hleads', hbehind'⟩ := hhalted.leads'.rewind
  exact ⟨_, attempt_eq_none.mpr ⟨x', d', hd', rfl⟩, h.rewind hhalted, hbehind, hbehind', hleads, hleads'⟩

end Runs

end Grammar

end SwiftMacros
