import Mathlib
import SwiftMacros.Proofs.Token.Fenced

/-! Two token lists that no parser tells apart, up to a token that both have. Kinds and texts are the
same, string literals apart; what stands before a token counts as well, unless the token closes a bracket
or stands at the front. Behind the last token in common, the lists can be any. -/

namespace SwiftMacros.Token

open SwiftMacros.Parser (balancedLength?)

/-- The tokens have the same kind, and the same text unless they are string literals. -/
structure Alike (t t' : Token) : Prop where
  kind : t'.kind = t.kind
  text : t.kind ≠ .string → t'.text = t.text

namespace Alike

variable {t t' : Token}

theorem cases (h : Alike t t') :
    (t.kind = .string ∧ t'.kind = .string) ∨ (t'.kind = t.kind ∧ t'.text = t.text) := by
  by_cases hk : t.kind = .string
  · exact .inl ⟨hk, h.kind.trans hk⟩
  · exact .inr ⟨h.kind, h.text hk⟩

section Predicates

variable (h : Alike t t')
include h

theorem kind_beq (k : Kind) : (t'.kind == k) = (t.kind == k) := by rw [h.kind]

/-- Tokens of a kind other than that of string literals are told apart by their text. -/
theorem sort {k : Kind} (hk : k ≠ .string) (p : Text → Bool) :
    (t'.kind == k && p t'.text) = (t.kind == k && p t.text) := by
  rcases h.cases with ⟨h1, h2⟩ | ⟨h1, h2⟩
  · simp only [h1, h2, beq_eq_false_iff_ne.mpr hk.symm, Bool.false_and]
  · rw [h1, h2]

theorem has {k : Kind} (hk : k ≠ .string) (m : String) : t'.has k m = t.has k m := h.sort hk (· == m.toList)

theorem isSymbol (m : String) : t'.isSymbol m = t.isSymbol m := h.has (by decide) m

theorem isIdentifierIn (ms : List String) : t'.isIdentifierIn ms = t.isIdentifierIn ms :=
  h.sort (k := .identifier) (by decide) fun x => ms.any fun w => x == w.toList

theorem isSymbolIn (ms : List String) : t'.isSymbolIn ms = t.isSymbolIn ms :=
  h.sort (k := .symbol) (by decide) fun x => ms.any fun m => x == m.toList

theorem isOpener : t'.isOpener = t.isOpener := h.isSymbolIn _

theorem isCloser : t'.isCloser = t.isCloser := h.isSymbolIn _

theorem isMark : t'.isMark = t.isMark :=
  h.sort (k := .operator) (by decide) fun x => x.head? == some '?' || x.head? == some '!'

theorem isOperatorWith (m : String) : t'.isOperatorWith m = t.isOperatorWith m :=
  h.sort (k := .operator) (by decide) fun x => m.toList.isPrefixOf x

theorem isMarks : Grammar.isMarks t' = Grammar.isMarks t :=
  h.sort (k := .operator) (by decide) fun x => x.all fun c => c == '?' || c == '!'

theorem reads (m : Text) : t'.reads m = t.reads m := by
  rcases h.cases with ⟨h1, h2⟩ | ⟨h1, h2⟩ <;> simp [Token.reads, h1, h2]

theorem closing : t'.closing = t.closing ∨ t.isOpener = false := by
  rcases h.cases with ⟨h1, -⟩ | ⟨-, h2⟩
  · exact .inr (not_bracket_of_kind (by simp [h1])).1
  · exact .inl (by simp [Token.closing, h2])

end Predicates

end Alike

/-- The word `in`, or an opening mark: what is read in front of it can end there. -/
def isSeam (t : Token) : Bool := t.isIdentifierIn ["in"] || t.isOpener

theorem kind_of_isSeam {t : Token} (h : t.isSeam = true) : t.kind = .identifier ∨ t.kind = .symbol := by
  simp only [isSeam, isIdentifierIn, isOpener, isSymbolIn, Bool.or_eq_true, Bool.and_eq_true, beq_iff_eq] at h
  exact h.imp And.left And.left

/-- What two readings have in common: a relation between the places of their tokens, the offset from which
on what stands before a token counts, the last token of each that is compared, and what is behind it. The
last token closes a bracket, or a reading in front of it can end there. -/
structure Setting where
  place : Token → Token → Prop
  front : Nat
  last : Token
  last' : Token
  rest : List Token
  rest' : List Token
  splits : ∀ t t', place t t' → t.kind = .operator → 1 < t.text.length →
    place t.front t'.front ∧ place t.back t'.back
  ends : last.isCloser = true ∨ last.isSeam = true

/-- The tokens are the same to a parser. -/
structure Twin (S : Setting) (t t' : Token) : Prop extends Alike t t' where
  place : S.place t t'
  gap : S.front ≤ t.start → t.isCloser = false →
    t'.newlineBefore = t.newlineBefore ∧ t'.spaceBefore = t.spaceBefore

/-- The lists are the same to a parser up to the last token that is compared. In front of it the closing
marks of `ss` are to come, the innermost first, and no others but for brackets that are opened there. -/
inductive Twins (S : Setting) : List Text → List Token → List Token → Prop
  | last : Twin S S.last S.last' → Twins S [] (S.last :: S.rest) (S.last' :: S.rest')
  | plain {t t' : Token} {ss : List Text} {ts ts' : List Token} : Twin S t t' → t.isOpener = false →
      t.isCloser = false → Twins S ss ts ts' → Twins S ss (t :: ts) (t' :: ts')
  | opening {t t' : Token} {ss : List Text} {ts ts' : List Token} : Twin S t t' → t.isOpener = true →
      Twins S (t.closing :: ss) ts ts' → Twins S ss (t :: ts) (t' :: ts')
  | closing {t t' : Token} {ss : List Text} {ts ts' : List Token} : Twin S t t' → t.isCloser = true →
      Twins S ss ts ts' → Twins S (t.text :: ss) (t :: ts) (t' :: ts')

variable {S : Setting} {t t' : Token} {ts ts' us us' : List Token} {ss : List Text}

namespace Twin

theorem newline (h : Twin S t t') (hs : S.front ≤ t.start) (hc : t.isCloser = false) : t'.newlineBefore = t.newlineBefore :=
  (h.gap hs hc).1

theorem space (h : Twin S t t') (hs : S.front ≤ t.start) (hc : t.isCloser = false) : t'.spaceBefore = t.spaceBefore :=
  (h.gap hs hc).2

/-- Both operators can be split. -/
theorem front (h : Twin S t t') (hk : t.kind = .operator) (hlen : 1 < t.text.length) :
    Twin S t.front t'.front where
  place := (S.splits t t' h.place hk hlen).1
  kind := h.kind
  text _ := by simp [Token.front, h.text (by simp [hk])]
  gap hs _ := h.gap hs (not_bracket_of_kind (by simp [hk])).2

theorem back (h : Twin S t t') (hk : t.kind = .operator) (hlen : 1 < t.text.length) :
    Twin S t.back t'.back where
  place := (S.splits t t' h.place hk hlen).2
  kind := h.kind
  text _ := by simp [Token.back, h.text (by simp [hk])]
  gap _ _ := ⟨rfl, rfl⟩

end Twin

namespace Twins

/-- There is a token at the front of both lists. -/
theorem cons (h : Twins S ss ts ts') : ∃ t us t' us', ts = t :: us ∧ ts' = t' :: us' ∧ Twin S t t' := by
  cases h with
  | last h => exact ⟨_, _, _, _, rfl, rfl, h⟩
  | plain h => exact ⟨_, _, _, _, rfl, rfl, h⟩
  | opening h => exact ⟨_, _, _, _, rfl, rfl, h⟩
  | closing h => exact ⟨_, _, _, _, rfl, rfl, h⟩

theorem head (h : Twins S ss (t :: ts) (t' :: ts')) : Twin S t t' := by
  obtain ⟨u, us, u', us', hu, hu', h⟩ := h.cons
  cases hu
  cases hu'
  exact h

/-- Behind a token that is no bracket the lists are the same, unless it was the last that they have in
common. -/
theorem of_plain (h : Twins S ss (t :: ts) (t' :: ts')) (hp : t.isOpener = false ∧ t.isCloser = false) :
    Twins S ss ts ts' ∨ ss = [] ∧ t = S.last ∧ S.last.isCloser = false := by
  cases h with
  | last => exact .inr ⟨rfl, rfl, hp.2⟩
  | plain _ _ _ h => exact .inl h
  | opening _ ho => simp [hp.1] at ho
  | closing _ hc => simp [hp.2] at hc

/-- Behind an opening mark the lists are the same, unless it was the last token that they have in common. -/
theorem of_opener (h : Twins S ss (t :: ts) (t' :: ts')) (ho : t.isOpener = true) :
    Twins S (t.closing :: ss) ts ts' ∨ ss = [] ∧ t = S.last ∧ S.last.isCloser = false := by
  cases h with
  | last =>
    refine .inr ⟨rfl, rfl, ?_⟩
    by_contra hc
    simp [isOpener_of_isCloser (Bool.not_eq_false _ ▸ hc)] at ho
  | plain _ ho' => simp [ho] at ho'
  | opening _ _ h => exact .inl h
  | closing _ hc => simp [isOpener_of_isCloser hc] at ho

theorem of_closer {s : Text} (h : Twins S (s :: ss) (t :: ts) (t' :: ts')) (hc : t.isCloser = true) :
    Twins S ss ts ts' := by
  cases h with
  | plain _ _ hc' => simp [hc] at hc'
  | opening _ ho => simp [isOpener_of_isCloser hc] at ho
  | closing _ _ h => exact h

/-- Behind a token that is not the last in common, another token is the same. -/
theorem next (h : Twins S ss (t :: ts) (t' :: ts')) (hc : t.isCloser = false)
    (hin : ss ≠ [] ∨ S.last.isCloser = true ∨ t.isSeam = false) :
    ∃ u us u' us', ts = u :: us ∧ ts' = u' :: us' ∧ Twin S u u' := by
  cases h with
  | last =>
    rcases hin with h | h | h
    · exact absurd rfl h
    · simp [h] at hc
    · rcases S.ends with h' | h'
      · simp [h'] at hc
      · simp [h] at h'
  | plain _ _ _ h => exact h.cons
  | opening _ _ h => exact h.cons
  | closing _ _ h => exact h.cons

/-- Operators at the front of both lists are split alike. -/
theorem split (h : Twins S ss (t :: ts) (t' :: ts')) (hk : t.kind = .operator) (hlen : 1 < t.text.length) :
    Twins S ss (t.front :: t.back :: ts) (t'.front :: t'.back :: ts') := by
  have hplain : ∀ u : Token, u.kind = t.kind → u.isOpener = false ∧ u.isCloser = false := fun u hu =>
    not_bracket_of_kind (by simp [hu, hk])
  have htwin := h.head
  rcases h.of_plain (hplain t rfl) with h | ⟨-, rfl, -⟩
  · have hfront := hplain t.front rfl
    have hback := hplain t.back rfl
    exact .plain (htwin.front hk hlen) hfront.1 hfront.2 (.plain (htwin.back hk hlen) hback.1 hback.2 h)
  · rcases S.ends with h' | h'
    · simp [kind_of_isCloser h'] at hk
    · simpa [hk] using kind_of_isSeam h'

/-- The same tokens are in front of the last one in common. -/
theorem eq_append (h : Twins S ss ts ts') : ∃ us us', ts = us ++ S.last :: S.rest ∧
    ts' = us' ++ S.last' :: S.rest' ∧ us.Forall₂ (Twin S) us' ∧ Twin S S.last S.last' := by
  induction h with
  | last h => exact ⟨[], [], rfl, rfl, .nil, h⟩
  | plain h _ _ _ ih =>
    obtain ⟨us, us', rfl, rfl, hus, hlast⟩ := ih
    exact ⟨_ :: us, _ :: us', rfl, rfl, .cons h hus, hlast⟩
  | opening h _ _ ih =>
    obtain ⟨us, us', rfl, rfl, hus, hlast⟩ := ih
    exact ⟨_ :: us, _ :: us', rfl, rfl, .cons h hus, hlast⟩
  | closing h _ _ ih =>
    obtain ⟨us, us', rfl, rfl, hus, hlast⟩ := ih
    exact ⟨_ :: us, _ :: us', rfl, rfl, .cons h hus, hlast⟩

/-- Attributes at the front are passed over alike in brackets. -/
theorem dropWhile_atName (h : Twins S ss ts ts') (hss : ss ≠ []) :
    Twins S ss (ts.dropWhile (·.kind == .atName)) (ts'.dropWhile (·.kind == .atName)) := by
  induction h with
  | last => exact absurd rfl hss
  | @plain t t' ss ts ts' ht ho hc hts ih =>
    rw [List.dropWhile_cons, List.dropWhile_cons, ht.kind]
    split
    · exact ih hss
    · exact .plain ht ho hc hts
  | @opening t t' ss ts ts' ht ho hts =>
    have hk : (t.kind == .atName) = false := by
      simp only [isOpener, isSymbolIn, Bool.and_eq_true, beq_iff_eq] at ho
      rw [ho.1]
      rfl
    rw [List.dropWhile_cons_of_neg (by simp [hk]), List.dropWhile_cons_of_neg (by simp [ht.kind, hk])]
    exact .opening ht ho hts
  | @closing t t' ss ts ts' ht hc hts =>
    have hk : (t.kind == .atName) = false := by
      rw [kind_of_isCloser hc]
      rfl
    rw [List.dropWhile_cons_of_neg (by simp [hk]), List.dropWhile_cons_of_neg (by simp [ht.kind, hk])]
    exact .closing ht hc hts

section Lengths

/-- Taking the first `n` tokens of both lists keeps what is behind them. -/
def Pass (S : Setting) (ss rs : List Text) (n : Nat) (ts ts' : List Token) : Prop :=
  Twins S rs (ts.drop n) (ts'.drop n) ∧ n ≤ ts.length ∧ n ≤ ts'.length ∧
    ∀ us us', Twins S rs us us' → Twins S ss (ts.take n ++ us) (ts'.take n ++ us')

variable {n : Nat} {rs : List Text}

theorem Pass.zero (h : Twins S ss ts ts') : Pass S ss ss 0 ts ts' :=
  ⟨h, Nat.zero_le _, Nat.zero_le _, fun _ _ h => h⟩

theorem Pass.cons {qs : List Text} (h : Pass S qs rs n ts ts')
    (ht : ∀ us us', Twins S qs us us' → Twins S ss (t :: us) (t' :: us')) :
    Pass S ss rs (n + 1) (t :: ts) (t' :: ts') :=
  ⟨h.1, Nat.succ_le_succ h.2.1, Nat.succ_le_succ h.2.2.1, fun us us' hus => ht _ _ (h.2.2.2 us us' hus)⟩

/-- Up to the closing mark of the outermost of some brackets. -/
theorem balanced {s : Text} {ds : List Text} (h : Twins S (s :: ds ++ ss) ts ts') :
    ∃ n, balancedLength? (ds.length + 1) ts = some n ∧ balancedLength? (ds.length + 1) ts' = some n ∧
      Pass S (s :: ds ++ ss) ss n ts ts' := by
  generalize hxs : s :: ds ++ ss = xs at h
  induction h generalizing s ds with
  | last => cases hxs
  | plain h ho hc _ ih =>
    obtain ⟨n, hn, hn', hpass⟩ := ih hxs
    refine ⟨n + 1, ?_, ?_, hpass.cons fun _ _ => .plain h ho hc⟩
    · simp [balancedLength?, ho, hc, hn]
    · simp [balancedLength?, h.isOpener, h.isCloser, ho, hc, hn']
  | @opening t t' xs ts ts' h ho _ ih =>
    obtain ⟨n, hn, hn', hpass⟩ := ih (show t.closing :: (s :: ds) ++ ss = _ by rw [List.cons_append, hxs])
    rw [List.length_cons, Nat.cast_succ] at hn hn'
    refine ⟨n + 1, ?_, ?_, hpass.cons fun _ _ => .opening h ho⟩
    · simp [balancedLength?, ho, hn]
    · simp [balancedLength?, h.isOpener, ho, hn']
  | @closing t t' xs ts ts' h hc hts ih =>
    obtain ⟨rfl, rfl⟩ := List.cons.inj hxs
    have ho := isOpener_of_isCloser hc
    cases ds with
    | nil =>
      refine ⟨1, ?_, ?_, (Pass.zero hts).cons fun _ _ => .closing h hc⟩
      · simp [balancedLength?, ho, hc]
      · simp [balancedLength?, h.isOpener, h.isCloser, ho, hc]
    | cons d ds =>
      obtain ⟨n, hn, hn', hpass⟩ := ih rfl
      have hdeep : (ds.length : Int) + 1 + 1 ≠ 1 := by omega
      refine ⟨n + 1, ?_, ?_, hpass.cons fun _ _ => .closing h hc⟩
      · simp [balancedLength?, ho, hc, hdeep, hn]
      · simp [balancedLength?, h.isOpener, h.isCloser, ho, hc, hdeep, hn']

end Lengths

end Twins

/-- The number of tokens in front of the brace that closes a body, of which `depth` brackets are open. -/
def bodyLength? : Int → List Token → Option Nat
  | _, [] => none
  | depth, t :: ts =>
    if depth = 0 ∧ t.isSymbol "\x7d" then some 0
    else (bodyLength? (if t.isOpener then depth + 1 else if t.isCloser then depth - 1 else depth) ts).map (· + 1)

/-- How many tokens statements take does not depend on where they are split. -/
theorem statementsFrom_length (s : Text) (eof : Token) (b : Grammar.Body) (ts : List Token) :
    (Grammar.statementsFrom s eof b ts).map Prod.snd = bodyLength? b.depth ts := by
  induction ts generalizing b with
  | nil => rfl
  | cons t ts ih =>
    have hmap : ∀ (b' : Grammar.Body) (f : List Statement → List Statement),
        b'.depth = (b.take t).depth → ((Grammar.statementsFrom s eof b' ts).map fun p =>
          (f p.1, p.2 + 1)).map Prod.snd = (bodyLength? (b.take t).depth ts).map (· + 1) := by
      intro b' f hb'
      rw [← hb', ← ih, Option.map_map, Option.map_map]
      rfl
    have htake : (b.take t).depth =
        if t.isOpener then b.depth + 1 else if t.isCloser then b.depth - 1 else b.depth := rfl
    simp only [Grammar.statementsFrom, bodyLength?, ← htake]
    split_ifs with hend hsemicolon hline
    · rfl
    · refine hmap _ _ ?_
      have hplain := not_bracket_of_symbol hsemicolon.2 (by decide)
      simp [Grammar.Body.take, hplain]
    · exact hmap _ _ rfl
    · exact hmap _ id rfl

/-- A body ends in front of the brace that is to come, be it the last token in common. -/
theorem Twins.body {ds es : List Text} (h : Twins S (ds ++ es) ts ts')
    (hes : es.head? = some ['\x7d'] ∨ es = [] ∧ S.last.isSymbol "\x7d" = true) :
    ∃ n, bodyLength? ds.length ts = some n ∧ bodyLength? ds.length ts' = some n ∧ Pass S (ds ++ es) es n ts ts' := by
  have hends : ∀ {u : Token}, u.isCloser = false → u.isSymbol "\x7d" = false := fun hc => by
    by_contra hb
    simp [isCloser_of_isSymbol (Bool.not_eq_false _ ▸ hb) (by simp)] at hc
  generalize hxs : ds ++ es = xs at h
  induction h generalizing ds with
  | last h =>
    obtain ⟨rfl, rfl⟩ := List.append_eq_nil_iff.mp hxs
    have hbrace : S.last.isSymbol "\x7d" = true := hes.elim (by simp) And.right
    refine ⟨0, ?_, ?_, Pass.zero (.last h)⟩
    · simp [bodyLength?, hbrace]
    · simp [bodyLength?, h.isSymbol, hbrace]
  | @plain t t' xs ts ts' h ho hc hts ih =>
    obtain ⟨n, hn, hn', hpass⟩ := ih hxs
    have hbrace := hends hc
    refine ⟨n + 1, ?_, ?_, hpass.cons fun _ _ => .plain h ho hc⟩
    · simp [bodyLength?, hbrace, ho, hc, hn]
    · simp [bodyLength?, h.isSymbol, h.isOpener, h.isCloser, hbrace, ho, hc, hn']
  | @opening t t' xs ts ts' h ho hts ih =>
    obtain ⟨n, hn, hn', hpass⟩ := ih (show t.closing :: ds ++ es = _ by rw [List.cons_append, hxs])
    have hbrace : t.isSymbol "\x7d" = false := hends (by
      by_contra hc
      simp [isOpener_of_isCloser (Bool.not_eq_false _ ▸ hc)] at ho)
    rw [List.length_cons, Nat.cast_succ] at hn hn'
    refine ⟨n + 1, ?_, ?_, hpass.cons fun _ _ => .opening h ho⟩
    · simp [bodyLength?, hbrace, ho, hn]
    · simp [bodyLength?, h.isSymbol, h.isOpener, hbrace, ho, hn']
  | @closing t t' xs ts ts' h hc hts ih =>
    have ho := isOpener_of_isCloser hc
    cases ds with
    | nil =>
      subst hxs
      have htext : t.text = ['\x7d'] := by simpa using hes
      have hbrace : t.isSymbol "\x7d" = true := by simp [isSymbol, has, kind_of_isCloser hc, htext]
      refine ⟨0, ?_, ?_, Pass.zero (.closing h hc hts)⟩
      · simp [bodyLength?, hbrace]
      · simp [bodyLength?, h.isSymbol, hbrace]
    | cons d ds =>
      obtain ⟨rfl, rfl⟩ := List.cons.inj hxs
      obtain ⟨n, hn, hn', hpass⟩ := ih rfl
      have hdeep : (ds.length : Int) + 1 ≠ 0 := by omega
      refine ⟨n + 1, ?_, ?_, hpass.cons fun _ _ => .closing h hc⟩
      · simp [bodyLength?, ho, hc, hdeep, hn]
      · simp [bodyLength?, h.isOpener, h.isCloser, ho, hc, hdeep, hn']

end SwiftMacros.Token
