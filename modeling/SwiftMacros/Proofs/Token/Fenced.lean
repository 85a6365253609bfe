import Mathlib
import SwiftMacros.Proofs.Parser.Paired
import SwiftMacros.Grammar.Declaration

/-! Brackets that match. Tokens are read with a stack of the closing marks that are still to come, the
innermost first. Each closing mark has to be the first of the stack, so that kinds are told apart. Some
words have the parser look further than to the next bracket; in front of what it looks for, they are
settled. -/

namespace SwiftMacros.Token

open SwiftMacros.Parser (balancedLength?)

/-- The text of the mark that closes an opening one. -/
def closing (t : Token) : Text :=
  if t.text = ['('] then [')'] else if t.text = ['['] then [']'] else ['\x7d']

/-- Whether the closing marks of a token list are those that a stack asks for, with none left to come. -/
def nested : List Text → List Token → Bool
  | es, [] => es.isEmpty
  | es, t :: ts =>
    if t.isOpener then nested (t.closing :: es) ts
    else if t.isCloser then
      match es with
      | [] => false
      | e :: es => t.text == e && nested es ts
    else nested es ts

/-- Whether a brace is opened where no bracket is; `depth` of them are open at the first token. -/
def opensBlock : Nat → List Token → Bool
  | _, [] => false
  | depth, t :: ts =>
    if t.isOpener then depth == 0 && t.isSymbol "\x7b" || opensBlock (depth + 1) ts
    else if t.isCloser then
      match depth with
      | 0 => false
      | d + 1 => opensBlock d ts
    else opensBlock depth ts

/-- Whether the token is a word behind which a block is looked for. -/
def awaitsBlock (t : Token) : Bool :=
  t.kind != .operator && ["if", "switch", "do", "else", "catch"].any fun w => t.text == w.toList

/-- Whether `ts` is what the word `t` asks for: a block where it is looked for, and no bracket that is
opened as the detail of an access modifier. -/
def settles (t : Token) (ts : List Token) : Bool :=
  (!t.awaitsBlock || opensBlock 0 ts) &&
    !(t.isIdentifierIn Grammar.detailedModifiers && ts.head?.any (·.isSymbol "(") &&
      (ts.drop 1).head?.any isOpener)

/-- Whether all words have what they ask for. -/
def settled : List Token → Bool
  | [] => true
  | t :: ts => settles t ts && settled ts

/-- The tokens stand in brackets that the marks `es` close, the innermost first. What is behind the last
of them does not matter. -/
inductive Fenced : List Token → List Token → Prop
  | done (ts : List Token) : Fenced [] ts
  | plain {t e : Token} {es ts : List Token} : t.isOpener = false → t.isCloser = false →
      settles t ts = true → Fenced (e :: es) ts → Fenced (e :: es) (t :: ts)
  | opening {t f e : Token} {es ts : List Token} : t.isOpener = true → f.isCloser = true →
      f.text = t.closing → Fenced (f :: e :: es) ts → Fenced (e :: es) (t :: ts)
  | closing {e : Token} {es ts : List Token} : e.isCloser = true → Fenced es ts →
      Fenced (e :: es) (e :: ts)

variable {t e f : Token} {ts us W Y es ds : List Token} {d : Nat}

theorem isOpener_of_isCloser (h : t.isCloser = true) : t.isOpener = false := by
  simp only [isCloser, isOpener, isSymbolIn, Bool.and_eq_true, List.any_cons, List.any_nil, Bool.or_false,
    Bool.or_eq_true, beq_iff_eq] at h ⊢
  rcases h with ⟨-, h | h | h⟩ <;> simp [h]

theorem kind_of_isCloser (h : t.isCloser = true) : t.kind = .symbol := by
  simp only [isCloser, isSymbolIn, Bool.and_eq_true, beq_iff_eq] at h
  exact h.1

theorem isOpener_of_brace (h : t.isSymbol "\x7b" = true) : t.isOpener = true := by
  simp only [isSymbol, has, Bool.and_eq_true, beq_iff_eq] at h
  simp [isOpener, isSymbolIn, h.1, h.2]

theorem isCloser_of_isSymbol {m : String} (h : t.isSymbol m = true) (hm : m ∈ [")", "]", "\x7d"]) :
    t.isCloser = true := by
  simp only [isSymbol, has, Bool.and_eq_true, beq_iff_eq] at h
  simp only [isCloser, isSymbolIn, h.1, h.2]
  fin_cases hm <;> rfl

section Append

theorem opensBlock_append (h : opensBlock d W = true) (Y : List Token) :
    opensBlock d (W ++ Y) = true := by
  induction W generalizing d with
  | nil => cases h
  | cons t W ih =>
    rw [List.cons_append]
    simp only [opensBlock] at h ⊢
    split_ifs at h ⊢
    · rw [Bool.or_eq_true] at h ⊢
      exact h.imp_right fun h => ih h
    · cases d with
      | zero => cases h
      | succ d => exact ih h
    · exact ih h

theorem settles_append (h : settles t W = true) (he : e.isCloser = true) :
    settles t (W ++ e :: Y) = true := by
  simp only [settles, Bool.and_eq_true, Bool.or_eq_true, Bool.not_eq_true', Bool.and_eq_false_imp] at h ⊢
  refine ⟨h.1.imp_right fun h => opensBlock_append h _, fun hw => ?_⟩
  have hsymbol : e.isSymbol "(" = false := by
    have := isOpener_of_isCloser he
    simp only [isOpener, isSymbolIn, isSymbol, has] at this ⊢
    simp_all
  rcases W with _ | ⟨p, _ | ⟨q, W⟩⟩
  · simp [hsymbol] at hw
  · simp [isOpener_of_isCloser he]
  · simpa using h.2 hw

/-- What matches and is settled is fenced by the mark behind it. -/
theorem Fenced.of_nested {ss : List Text} (hW : nested ss W = true) (hs : settled W = true)
    (he : e.isCloser = true) (hY : Fenced es Y) :
    ∃ ds : List Token, ds.map text = ss ∧ (∀ f ∈ ds, f.isCloser = true) ∧
      Fenced (ds ++ e :: es) (W ++ e :: Y) := by
  induction W generalizing ss with
  | nil =>
    obtain rfl : ss = [] := by simpa [nested] using hW
    exact ⟨[], rfl, by simp, .closing he hY⟩
  | cons t W ih =>
    simp only [settled, Bool.and_eq_true] at hs
    simp only [nested] at hW
    split_ifs at hW with ho hc
    · obtain ⟨ds, hds, hclosers, hfenced⟩ := ih hW hs.2
      obtain ⟨f, ds, rfl, hf, rfl⟩ := List.map_eq_cons_iff.mp hds
      obtain ⟨hfc, hclosers⟩ := List.forall_mem_cons.mp hclosers
      refine ⟨ds, rfl, hclosers, ?_⟩
      cases ds with
      | nil => exact .opening ho hfc hf hfenced
      | cons d ds => exact .opening ho hfc hf hfenced
    · cases ss with
      | nil => cases hW
      | cons s ss =>
        simp only [Bool.and_eq_true, beq_iff_eq] at hW
        obtain ⟨ds, hds, hclosers, hfenced⟩ := ih hW.2 hs.2
        exact ⟨t :: ds, by simp [hW.1, hds], List.forall_mem_cons.mpr ⟨hc, hclosers⟩,
          .closing hc hfenced⟩
    · obtain ⟨ds, hds, hclosers, hfenced⟩ := ih hW hs.2
      refine ⟨ds, hds, hclosers, ?_⟩
      simp only [Bool.not_eq_true] at ho hc
      have hsettles := settles_append (Y := Y) hs.1 he
      cases ds with
      | nil => exact .plain ho hc hsettles hfenced
      | cons d ds => exact .plain ho hc hsettles hfenced

end Append

namespace Fenced

section Inversion

theorem ne_nil (h : Fenced (e :: es) ts) : ts ≠ [] := by
  rintro rfl
  cases h

theorem of_plain (h : Fenced (e :: es) (t :: ts)) (ho : t.isOpener = false) (hc : t.isCloser = false) :
    settles t ts = true ∧ Fenced (e :: es) ts := by
  cases h with
  | plain _ _ hs h => exact ⟨hs, h⟩
  | opening ho' => simp [ho] at ho'
  | closing hc' => simp [hc] at hc'

theorem of_opener (h : Fenced (e :: es) (t :: ts)) (ho : t.isOpener = true) :
    ∃ f, f.isCloser = true ∧ f.text = t.closing ∧ Fenced (f :: e :: es) ts := by
  cases h with
  | plain ho' => simp [ho] at ho'
  | opening _ hf ht h => exact ⟨_, hf, ht, h⟩
  | closing hc => simp [isOpener_of_isCloser hc] at ho

theorem of_closer (h : Fenced (e :: es) (t :: ts)) (hc : t.isCloser = true) : t = e ∧ Fenced es ts := by
  cases h with
  | plain _ hc' => simp [hc] at hc'
  | opening ho => simp [isOpener_of_isCloser hc] at ho
  | closing _ h => exact ⟨rfl, h⟩

end Inversion

section Refines

theorem settles_of_operator (hk : t.kind = .operator) (ts : List Token) : settles t ts = true := by
  simp [settles, awaitsBlock, isIdentifierIn, hk]

theorem opensBlock_refines (h : Refines ts us) (hd : opensBlock d ts = true) : opensBlock d us = true := by
  induction h generalizing d with
  | nil => exact hd
  | keep t _ ih =>
    simp only [opensBlock] at hd ⊢
    split_ifs at hd ⊢
    · rw [Bool.or_eq_true] at hd ⊢
      exact hd.imp_right ih
    · cases d with
      | zero => cases hd
      | succ d => exact ih hd
    · exact ih hd
  | @split t ts us hk _ _ ih =>
    have hplain := not_bracket_of_kind (t := t) (by simp [hk])
    have hfront := not_bracket_of_kind (t := t.front) (by simp [front, hk])
    have hback := not_bracket_of_kind (t := t.back) (by simp [back, hk])
    have := ih (d := d)
    simp_all [opensBlock]

theorem settles_refines (h : Refines ts us) (ht : settles t ts = true) : settles t us = true := by
  simp only [settles, Bool.and_eq_true, Bool.or_eq_true, Bool.not_eq_true', Bool.and_eq_false_imp] at ht ⊢
  refine ⟨ht.1.imp_right (opensBlock_refines h), fun hw => ?_⟩
  have hfront : ∀ v : Token, v.kind = .operator → v.front.isSymbol "(" = false ∧
      v.front.isOpener = false := fun v hv =>
    ⟨by simp [isSymbol, has, front, hv], (not_bracket_of_kind (by simp [front, hv])).1⟩
  cases h with
  | nil => simp
  | split hk _ _ => simp [hfront _ hk] at hw
  | keep p h =>
    have hp := ht.2 (by simpa using hw)
    cases h with
    | nil => simp
    | keep q _ => simpa using hp
    | split hk _ _ => simp [hfront _ hk]

/-- Operators that are split leave brackets where they are. -/
theorem refines (h : Fenced es ts) (hr : Refines ts us) : Fenced es us := by
  induction hr generalizing es with
  | nil => exact h
  | keep t hr ih =>
    cases h with
    | done => exact .done _
    | plain ho hc hs h => exact .plain ho hc (settles_refines hr hs) (ih h)
    | opening ho hf ht h => exact .opening ho hf ht (ih h)
    | closing hc h => exact .closing hc (ih h)
  | @split t ts us hk _ hr ih =>
    have hplain := not_bracket_of_kind (t := t) (by simp [hk])
    have hfront := not_bracket_of_kind (t := t.front) (by simp [front, hk])
    have hback := not_bracket_of_kind (t := t.back) (by simp [back, hk])
    cases es with
    | nil => exact .done _
    | cons e es =>
      obtain ⟨-, h⟩ := h.of_plain hplain.1 hplain.2
      have hpieces := ih (.plain hback.1 hback.2 (settles_of_operator (by simp [back, hk]) _) h)
      exact .plain hfront.1 hfront.2 (settles_of_operator (by simp [front, hk]) _) hpieces

end Refines

section Lengths

/-- Up to the closing mark of the outermost of some brackets. No brace that is looked for outside of them
is passed over. -/
theorem balanced (h : Fenced (f :: ds ++ es) ts) : ∃ n, balancedLength? (ds.length + 1) ts = some n ∧
    Fenced es (ts.drop n) ∧
    ∀ d, opensBlock (ds.length + 1 + d) ts = true → opensBlock d (ts.drop n) = true := by
  generalize hxs : f :: ds ++ es = xs at h
  induction h generalizing f ds with
  | done => cases hxs
  | plain ho hc _ _ ih =>
    obtain ⟨n, hn, hfenced, hblock⟩ := ih hxs
    exact ⟨n + 1, by simp [balancedLength?, ho, hc, hn], hfenced, fun d hd =>
      hblock d (by simpa [opensBlock, ho, hc] using hd)⟩
  | @opening t g e xs ts ho _ _ _ ih =>
    obtain ⟨n, hn, hfenced, hblock⟩ := ih (show g :: (f :: ds) ++ es = _ by
      rw [List.cons_append, hxs])
    rw [List.length_cons, Nat.cast_succ] at hn
    exact ⟨n + 1, by simp [balancedLength?, ho, hn], hfenced, fun d hd => hblock d (by
      simpa [opensBlock, ho, Nat.add_right_comm] using hd)⟩
  | @closing e xs ts hc hts ih =>
    obtain ⟨rfl, rfl⟩ := List.cons.inj hxs
    have ho := isOpener_of_isCloser hc
    cases ds with
    | nil =>
      refine ⟨1, by simp [balancedLength?, ho, hc], hts, fun d hd => ?_⟩
      simpa [opensBlock, ho, hc, Nat.add_comm 1 d] using hd
    | cons d ds =>
      obtain ⟨n, hn, hfenced, hblock⟩ := ih rfl
      refine ⟨n + 1, ?_, hfenced, fun k hk => hblock k ?_⟩
      · have hdeep : (ds.length : Int) + 1 + 1 ≠ 1 := by omega
        simp [balancedLength?, ho, hc, hdeep, hn]
      · simpa [opensBlock, ho, hc, Nat.add_right_comm] using hk

/-- Outside of all brackets but those that `es` close. -/
theorem of_level {xs : List Token} (h : Fenced xs ts) (hxs : ds ++ es = xs) (hd : ds.length = 0) :
    Fenced es ts := by
  rw [List.length_eq_zero_iff.mp hd, List.nil_append] at hxs
  exact hxs ▸ h

/-- What a member that is passed over takes stays in front of the closing mark of its block. -/
theorem drop_memberLength (h : Fenced (ds ++ e :: es) ts) (inside : Bool) :
    Fenced (e :: es) (ts.drop (Grammar.memberLength inside ds.length ts)) := by
  generalize hxs : ds ++ e :: es = xs at h
  induction h generalizing ds inside with
  | done => simp at hxs
  | plain ho hc hs h ih =>
    simp only [Grammar.memberLength, ho, hc, Bool.false_eq_true, if_false]
    split_ifs with hend
    · exact of_level (.plain ho hc hs h) hxs hend.1
    · rw [Nat.add_comm, List.drop_succ_cons]
      exact ih true hxs
  | @opening t g f xs ts ho hg ht h ih =>
    simp only [Grammar.memberLength, ho, if_true]
    split_ifs with hend
    · exact of_level (.opening ho hg ht h) hxs hend.1
    · rw [Nat.add_comm, List.drop_succ_cons]
      exact ih true (show g :: ds ++ e :: es = _ by rw [List.cons_append, hxs])
  | @closing f xs ts hc h ih =>
    have ho := isOpener_of_isCloser hc
    cases ds with
    | nil =>
      simp only [Grammar.memberLength, ho, hc, Bool.false_eq_true, if_false, if_true, List.length_nil, ite_self]
      exact of_level (.closing hc h) hxs rfl
    | cons d ds =>
      obtain ⟨rfl, rfl⟩ := List.cons.inj hxs
      simp only [Grammar.memberLength, ho, hc, Bool.false_eq_true, if_false, if_true, List.length_cons,
        Nat.succ_ne_zero, false_and]
      rw [Nat.add_comm, List.drop_succ_cons]
      exact ih true rfl

/-- What is left of a binding that could not be read stays in front of the closing brace of its block. -/
theorem drop_bindingLength (h : Fenced (ds ++ e :: es) ts) (he : e.isSymbol "\x7d" = true) :
    Fenced (e :: es) (ts.drop (Grammar.bindingLength ds.length ts)) := by
  generalize hxs : ds ++ e :: es = xs at h
  induction h generalizing ds with
  | done => simp at hxs
  | plain ho hc hs h ih =>
    simp only [Grammar.bindingLength, ho, hc, Bool.false_eq_true, if_false]
    split_ifs with hend
    · exact of_level (.plain ho hc hs h) hxs (Int.natCast_eq_zero.mp hend.1)
    · rw [Nat.add_comm, List.drop_succ_cons]
      exact ih hxs
  | @opening t g f xs ts ho hg ht h ih =>
    simp only [Grammar.bindingLength, ho, if_true]
    split_ifs with hend
    · exact of_level (.opening ho hg ht h) hxs (Int.natCast_eq_zero.mp hend.1)
    · rw [Nat.add_comm, List.drop_succ_cons]
      exact ih (show g :: ds ++ e :: es = _ by rw [List.cons_append, hxs])
  | @closing f xs ts hc h ih =>
    have ho := isOpener_of_isCloser hc
    cases ds with
    | nil =>
      obtain ⟨rfl, rfl⟩ := List.cons.inj hxs
      have hend : e.isSymbolIn [",", ";", "\x7d"] = true := by
        simp only [isSymbol, has, Bool.and_eq_true, beq_iff_eq] at he
        simp [isSymbolIn, he.1, he.2]
      simp only [Grammar.bindingLength, List.length_nil, Nat.cast_zero, hend, or_true, and_self, if_true]
      exact .closing hc h
    | cons d ds =>
      obtain ⟨rfl, rfl⟩ := List.cons.inj hxs
      have hdeep : ((ds.length : Int) + 1) ≠ 0 := by omega
      simp only [Grammar.bindingLength, ho, hc, Bool.false_eq_true, if_false, if_true, List.length_cons,
        Nat.cast_succ, hdeep, false_and, add_sub_cancel_right]
      rw [Nat.add_comm, List.drop_succ_cons]
      exact ih rfl

end Lengths

section Statements

open Grammar (Body statementsFrom)

variable {s : Text} {eof : Token} {b : Body} {ss : List Statement} {n : Nat}

/-- The body goes on behind a token, unless the token closes it. -/
theorem statementsFrom_cons (h : statementsFrom s eof b (t :: ts) = some (ss, n)) :
    b.depth = 0 ∧ t.isSymbol "\x7d" = true ∧ n = 0 ∨ ¬ (b.depth = 0 ∧ t.isSymbol "\x7d" = true) ∧
      ∃ b' ss' m, n = m + 1 ∧ b'.depth = (b.take t).depth ∧ statementsFrom s eof b' ts = some (ss', m) := by
  have hmap : ∀ {b' : Body} {f : List Statement → List Statement},
      b'.depth = (b.take t).depth → (statementsFrom s eof b' ts).map (fun p => (f p.1, p.2 + 1)) = some (ss, n) →
      ∃ b' ss' m, n = m + 1 ∧ b'.depth = (b.take t).depth ∧ statementsFrom s eof b' ts = some (ss', m) := by
    intro b' f hb' h
    obtain ⟨⟨ss', m⟩, hm, hp⟩ := Option.map_eq_some_iff.mp h
    cases hp
    exact ⟨b', ss', m, rfl, hb', hm⟩
  simp only [statementsFrom] at h
  split_ifs at h with hend hsemicolon hline
  · cases h
    exact .inl ⟨hend.1, hend.2, rfl⟩
  · refine .inr ⟨hend, hmap ?_ h⟩
    have hplain := not_bracket_of_symbol hsemicolon.2 (by decide)
    simp [Body.take, hplain]
  · refine .inr ⟨hend, hmap ?_ h⟩
    rfl
  · exact .inr ⟨hend, hmap (f := id) rfl h⟩

/-- The statements of a body end in front of the closing brace. -/
theorem drop_statementsFrom (h : Fenced (ds ++ e :: es) ts) (he : e.isSymbol "\x7d" = true)
    (hb : b.depth = ds.length) (hss : statementsFrom s eof b ts = some (ss, n)) :
    Fenced (e :: es) (ts.drop n) := by
  generalize hxs : ds ++ e :: es = xs at h
  induction h generalizing ds b ss n with
  | done => simp at hxs
  | @plain t f xs ts ho hc hs h ih =>
    obtain ⟨hd, -, rfl⟩ | ⟨-, b', ss', m, rfl, hb', hm⟩ := statementsFrom_cons hss
    · exact of_level (.plain ho hc hs h) hxs (Int.natCast_eq_zero.mp (hb ▸ hd))
    · exact ih (by simp [hb', Body.take, ho, hc, hb]) hm hxs
  | @opening t g f xs ts ho hg ht h ih =>
    obtain ⟨hd, -, rfl⟩ | ⟨-, b', ss', m, rfl, hb', hm⟩ := statementsFrom_cons hss
    · exact of_level (.opening ho hg ht h) hxs (Int.natCast_eq_zero.mp (hb ▸ hd))
    · have hdepth : b'.depth = (g :: ds).length := by simp [hb', Body.take, ho, hb]
      exact ih hdepth hm (by rw [List.cons_append, hxs])
  | @closing f xs ts hc h ih =>
    have ho := isOpener_of_isCloser hc
    obtain ⟨hd, -, rfl⟩ | ⟨hend, b', ss', m, rfl, hb', hm⟩ := statementsFrom_cons hss
    · exact of_level (.closing hc h) hxs (Int.natCast_eq_zero.mp (hb ▸ hd))
    · cases ds with
      | nil =>
        obtain ⟨rfl, rfl⟩ := List.cons.inj hxs
        exact absurd ⟨by simpa using hb, he⟩ hend
      | cons d ds =>
        obtain ⟨rfl, rfl⟩ := List.cons.inj hxs
        exact ih (by simp [hb', Body.take, ho, hc, hb]) hm rfl

end Statements

end Fenced

end SwiftMacros.Token
