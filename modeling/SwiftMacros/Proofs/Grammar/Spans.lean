import Mathlib
import SwiftMacros.Proofs.Grammar.Tiles
import SwiftMacros.Proofs.Token.Scans

/-! Where the statements of a body start. A body is divided into spans: each ends at a line that starts a
statement, at a semicolon outside of all brackets, or at the closing brace. -/

namespace SwiftMacros

open Token (Word Reads Placed Joint Spaced Located lexeme dropSemicolons)

namespace Token

/-- Lexemes with as many brackets closed as opened, and without a semicolon outside of them. -/
structure Rounded (ws : List Word) : Prop where
  semicolons : dropSemicolons 0 ws = ws
  depth : ws.foldl Word.depth 0 = 0

theorem depth_of_semicolon {w : Word} (h : w.isSymbolIn [";"] = true) (depth : Int) : w.depth depth = depth := by
  simp only [Word.isSymbolIn, List.any_cons, List.any_nil, Bool.or_false, Bool.and_eq_true, beq_iff_eq] at h
  simp [Word.depth, Word.isSymbolIn, h.1, h.2]

/-- Semicolons are dropped part by part. -/
theorem dropSemicolons_foldl (depth : Int) (vs ws : List Word) : dropSemicolons depth (vs ++ ws) =
    dropSemicolons depth vs ++ dropSemicolons (vs.foldl Word.depth depth) ws := by
  induction vs generalizing depth with
  | nil => rfl
  | cons v vs ih =>
    simp only [List.cons_append, dropSemicolons, List.foldl_cons]
    split
    next h => rw [ih, depth_of_semicolon h.2]
    next => rw [ih, List.cons_append]

end Token

/-- A line end is read between the offsets, with no lexeme behind it. -/
def BreaksLine (s : Text) (a b : Nat) : Prop :=
  ∃ q, a ≤ q ∧ q ≤ b ∧ Cut s q ∧ Reads (s.drop q) [] (s.drop b) ∧ '\n' ∈ Text.slice s q b

/-- A statement that starts at `a` ends at `b`, and the next one starts at `d`: on a new line, or behind a
semicolon. -/
def Separates (s : Text) (a b d : Nat) : Prop :=
  b = d ∧ BreaksLine s a d ∨ b < d ∧ Reads (s.drop b) [Token.mark ';'] (s.drop d)

/-- The source from `a` to the closing brace at `z` is divided into statements. All but the first start at
the given offsets. -/
inductive Spans (s : Text) : Nat → List Nat → List Statement → Nat → Prop
  | last {a z : Nat} {ws : List Word} : a ≤ z → Reads (s.drop a) ws (s.drop z) → Token.Rounded ws →
      Spans s a [] (Grammar.statementBetween s a z) z
  | next {a b d z : Nat} {ws : List Word} {ps : List Nat} {ss : List Statement} : a ≤ b → a < d →
      Reads (s.drop a) ws (s.drop b) → Token.Rounded ws → Tile.Starts s b → Tile.Starts s d → Separates s a b d →
      Spans s d ps ss z → Spans s a (d :: ps) (Grammar.statementBetween s a b ++ ss) z

theorem Separates.le {s : Text} {a b d : Nat} (h : Separates s a b d) : b ≤ d := by
  rcases h with ⟨rfl, -⟩ | ⟨hlt, -⟩
  · exact le_rfl
  · exact hlt.le

/-- The offsets of spans are in order. -/
theorem Spans.le {s : Text} {a z : Nat} {ps : List Nat} {ss : List Statement} (h : Spans s a ps ss z) :
    a ≤ z ∧ ∀ p ∈ ps, a ≤ p ∧ p ≤ z := by
  induction h with
  | last hle => exact ⟨hle, by simp⟩
  | next _ hlt _ _ _ _ _ _ ih =>
    exact ⟨hlt.le.trans ih.1, List.forall_mem_cons.mpr ⟨⟨hlt.le, ih.1⟩, fun p hp =>
      ⟨hlt.le.trans (ih.2 p hp).1, (ih.2 p hp).2⟩⟩⟩

namespace Grammar

/-- Where the statements of a body start, the first of them apart. -/
def starts (eof : Token) : Body → List Token → List Nat
  | _, [] => []
  | b, t :: ts =>
    let next := ts.head?.getD eof
    if b.depth = 0 ∧ t.isSymbol "\x7d" then []
    else if b.depth = 0 ∧ t.isSymbol ";" then
      next.start :: starts eof { b with start := next.start, hasToken := false } ts
    else if b.endsBefore t next then t.start :: starts eof ({ b with start := t.start }.take t) ts
    else starts eof (b.take t) ts

end Grammar

section Spans

variable {s : Text} {eof : Token} {us : List Token} {b : Grammar.Body} {ss : List Statement} {n p : Nat}
  {os : List Word}

/-- The statements up to a closing brace are those of the spans. -/
theorem statementsFrom_spans {q : Nat} (hp : ∀ t ∈ us, Placed s t ∧ t.Within s) (hj : us.IsChain (Joint s))
    (hspaced : Spaced s q us) (h : Grammar.statementsFrom s eof b us = some (ss, n)) (hle : b.start ≤ p)
    (hos : Reads (s.drop b.start) os (s.drop p)) (hplain : dropSemicolons 0 os = os)
    (hdepth : os.foldl Word.depth 0 = b.depth) (hreached : ∀ t ∈ us.head?, Reached s p t)
    (hline : ∀ t ∈ us.head?, t.newlineBefore = true → b.hasToken = true →
      b.start < t.start ∧ BreaksLine s b.start t.start) :
    ∃ t, us[n]? = some t ∧ t.isSymbol "\x7d" = true ∧ Spans s b.start (Grammar.starts eof b us) ss t.start := by
  induction us generalizing b ss n p q os with
  | nil => cases h
  | cons t us ih =>
    have hr := hreached t rfl
    obtain ⟨ht, hwithin⟩ := hp t (by simp)
    have hstart : p = t.start → Tile.Starts s t.start := fun hp => hwithin.starts (hp ▸ hr.1) ht.lt
    simp only [Grammar.statementsFrom] at h
    simp only [Grammar.starts]
    split at h
    next hclose =>
      cases h
      have hp := hr.eq_of_kind (by simp [Token.kind_of_isSymbol hclose.2])
      rw [if_pos hclose]
      exact ⟨t, rfl, hclose.2, .last (hp ▸ hle) (hp ▸ hos) ⟨hplain, hdepth.trans hclose.1⟩⟩
    next hclose =>
      rw [if_neg hclose]
      -- the closing brace is still to come, so that another token follows
      obtain ⟨u, us, rfl⟩ : ∃ u vs, us = u :: vs := by
        cases us with
        | nil =>
          simp only [Grammar.statementsFrom, Option.map_none] at h
          split at h
          · cases h
          · split at h <;> cases h
        | cons u us => exact ⟨u, us, rfl⟩
      have hj' := List.isChain_cons_cons.mp hj
      obtain ⟨hu, hwithin'⟩ := hp u (by simp)
      obtain ⟨q', ls, hreached', hpq, hls, hword, hsharp⟩ := hr.next ht hu hj'.1
      have hnext : ∀ a, a ≤ t.start → u.newlineBefore = true → a < u.start ∧ BreaksLine s a u.start := by
        intro a ha hnew
        rcases hj'.1 with ⟨hle, hcut, hread⟩ | ⟨-, -, -, hno, -⟩
        · exact ⟨ha.trans_lt (ht.lt.trans_le hle), t.stop, ha.trans ht.lt.le, hle, hcut, hread,
            hspaced.2.2.2.1.mp hnew⟩
        · simp [hno] at hnew
      have ih' := fun {b : Grammar.Body} {ss n os} h h1 h2 h3 h4 h5 =>
        @ih b ss n q' os t.stop (fun v hv => hp v (by simp [hv])) hj'.2 hspaced.2.2 h h1 h2 h3 h4
          (by rintro _ ⟨⟩; exact hreached') h5
      have hrounded : ∀ b' : Grammar.Body, b'.depth = b.depth → ¬ (b.depth = 0 ∧ t.isSymbol ";" = true) →
          ∀ vs, dropSemicolons 0 vs = vs → vs.foldl Word.depth 0 = b.depth →
            dropSemicolons 0 (vs ++ ls) = vs ++ ls ∧ (vs ++ ls).foldl Word.depth 0 = (b'.take t).depth := by
        intro b' hb' hsemicolon vs hvs hvs'
        have hdrop : dropSemicolons b.depth (ls ++ []) = ls ++ dropSemicolons (b.take t).depth [] :=
          Grammar.Body.take_depth (fun hk => (hword hk).1) hsharp hsemicolon
        rw [List.append_nil] at hdrop
        refine ⟨by rw [Token.dropSemicolons_foldl, hvs, hvs', hdrop]; simp [dropSemicolons], ?_⟩
        rw [List.foldl_append, hvs']
        by_cases hk : t.kind = .operator
        · rw [Token.foldl_depth (hsharp hk)]
          simp [Grammar.Body.take, Token.isOpener, Token.isCloser, Token.isSymbolIn, hk, hb']
        · obtain ⟨rfl, -⟩ := hword hk
          rw [← hb']
          rfl
      split at h
      next hsemicolon =>
        rw [if_pos hsemicolon]
        have hk := Token.kind_of_isSymbol hsemicolon.2
        have hp := hr.eq_of_kind (by simp [hk])
        obtain ⟨rfl, rfl⟩ := hword (by simp [hk])
        obtain ⟨⟨rest, m⟩, hrest, h⟩ := Option.map_eq_some_iff.mp h
        cases h
        obtain ⟨z, hz, hbrace, hspans⟩ := ih' hrest le_rfl (.done _) rfl hsemicolon.1.symm (by simp)
        have hlt := ht.lt.trans_le hj'.1.le
        refine ⟨z, by simpa using hz, hbrace, .next (hp ▸ hle) ((hp ▸ hle).trans_lt hlt) (hp ▸ hos)
          ⟨hplain, hdepth.trans hsemicolon.1⟩ (hstart hp) (hwithin'.starts hreached'.1 hu.lt) (.inr ⟨hlt, ?_⟩) hspans⟩
        have hmark : t.word = Token.mark ';' := Token.word_of_isSymbol hsemicolon.2
        rw [← hp, ← hmark]
        exact hls
      next hsemicolon =>
        rw [if_neg hsemicolon]
        split at h
        next hends =>
          rw [if_pos hends]
          have hb : b.depth = 0 ∧ b.hasToken = true ∧ t.newlineBefore = true := by
            simp only [Grammar.Body.endsBefore, Bool.and_eq_true, beq_iff_eq] at hends
            exact ⟨hends.1.1.1, hends.1.1.2, hends.1.2⟩
          have hp := hr.eq_of_newline hb.2.2
          obtain ⟨⟨rest, m⟩, hrest, h⟩ := Option.map_eq_some_iff.mp h
          cases h
          obtain ⟨hvs, hvs'⟩ := hrounded { b with start := t.start } rfl hsemicolon [] rfl hb.1.symm
          obtain ⟨z, hz, hbrace, hspans⟩ := ih' hrest (hp ▸ hpq) (hp ▸ hls) hvs hvs' fun v hv hnew _ => by
            obtain rfl : u = v := by simpa using hv
            exact hnext t.start le_rfl hnew
          obtain ⟨hlt, hbreaks⟩ := hline t rfl hb.2.2 hb.2.1
          exact ⟨z, by simpa using hz, hbrace, .next hlt.le hlt (hp ▸ hos) ⟨hplain, hdepth.trans hb.1⟩ (hstart hp)
            (hstart hp) (.inl ⟨rfl, hbreaks⟩) hspans⟩
        next hends =>
          rw [if_neg hends]
          obtain ⟨⟨rest, m⟩, hrest, h⟩ := Option.map_eq_some_iff.mp h
          cases h
          obtain ⟨hvs, hvs'⟩ := hrounded b rfl hsemicolon os hplain hdepth
          obtain ⟨z, hz, hbrace, hspans⟩ := ih' hrest (hle.trans hpq) (hos.trans hls) hvs hvs' fun v hv hnew _ => by
            obtain rfl : u = v := by simpa using hv
            exact hnext b.start (hle.trans hr.le) hnew
          exact ⟨z, by simpa using hz, hbrace, hspans⟩

end Spans

end SwiftMacros
