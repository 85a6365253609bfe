import Mathlib
import SwiftMacros.Proofs.Token.Pointed
import SwiftMacros.Proofs.Grammar.Rebuilt
import SwiftMacros.Proofs.Tree.Verbatim

/-! Chains of members: a name with names or tuple indices behind points. The accesses are read one
around the other up to the first two indices side by side; these and the point between them are one
floating literal, so the reading ends at the point in front of them. -/

namespace SwiftMacros

open Token (IsName IsDigits Yields Word)
open SwiftMacros.Parser

namespace Chain

/-- Whether a text is the name of a member or the index of a tuple element. -/
def IsMember (m : Text) : Prop := IsName m ∨ IsDigits m

/-- The words that an expression does not start with as a name. -/
def reserved : List String :=
  ["true", "false", "nil", "if", "switch", "do", "try", "await", "consume", "copy"]

/-- Whether an expression can start with `b` as a name. -/
structure IsBase (b : Text) : Prop where
  name : IsName b
  free : ∀ w ∈ reserved, b ≠ w.toList

/-- The members, each behind a point. -/
def suffix (ms : List Text) : Text := ms.flatMap ('.' :: ·)

def text (b : Text) (ms : List Text) : Text := b ++ suffix ms

/-- Accesses of members one around the other, where the innermost base is written `t`. -/
def accesses (e : Expression) (t : Text) : List Text → Expression
  | [] => e
  | m :: ms => accesses (.member e m (t ++ '.' :: m)) (t ++ '.' :: m) ms

def tree (b : Text) (ms : List Text) : Expression := accesses (.reference b b) b ms

/-- The members in front of the first two indices that stand side by side. -/
def reached : List Text → List Text
  | m :: n :: ms => if IsDigits m ∧ IsDigits n then [] else m :: reached (n :: ms)
  | ms => ms

def point : Grain := ⟨[], .dot, ['.']⟩

def memberGrain (m : Text) : Grain := ⟨[], if IsDigits m then .integer else .identifier, m⟩

/-- The grains of members behind points. -/
def grains : List Text → List Grain
  | m :: n :: ms =>
    if IsDigits m ∧ IsDigits n then point :: ⟨[], .float, m ++ '.' :: n⟩ :: grains ms
    else point :: memberGrain m :: grains (n :: ms)
  | [m] => [point, memberGrain m]
  | [] => []

section Source

variable {b m n : Text} {ms : List Text}

theorem suffix_head (ms : List Text) : ∀ d ∈ (suffix ms).head?, d = '.' := by
  cases ms <;> simp [suffix]

theorem suffix_cons (m : Text) (ms : List Text) : suffix (m :: ms) = '.' :: (m ++ suffix ms) := rfl

theorem IsMember.exists_cons (h : IsMember m) : ∃ c x, m = c :: x ∧ c ≠ '.' := by
  rcases h with h | h
  · obtain ⟨c, x, rfl, -, hc⟩ := h.exists_cons
    exact ⟨c, x, rfl, hc⟩
  · obtain ⟨c, x, rfl⟩ := List.exists_cons_of_ne_nil h.ne_nil
    refine ⟨c, x, rfl, ?_⟩
    rintro rfl
    exact absurd (h.digits '.' (by simp)) (by decide)

theorem IsMember.newline_not_mem (h : IsMember m) : '\n' ∉ m :=
  h.elim IsName.newline_not_mem fun h hmem => absurd (h.digits _ hmem) (by decide)

theorem yields_cons {x u r : Text} {k : Token.Kind} {A : List Grain}
    (hl : Token.lexeme (x ++ u) = .ok (k, x.length)) (hk : k.isTrivia = false ∧ k ≠ .operator)
    (h : Yields u A r) : Yields (x ++ u) (⟨[], k, x⟩ :: A) r := by
  have := @Yields.word [] x u r k A (.done _) hl hk.1 h
  simpa [Word.grains, hk.2] using this

theorem yields_point {u : Text} {A : List Grain} (hm : IsMember m) (h : Yields (m ++ u) A []) :
    Yields ('.' :: (m ++ u)) (point :: A) [] := by
  obtain ⟨c, x, rfl, hc⟩ := hm.exists_cons
  exact yields_cons (x := ['.']) (Token.lexeme_point (by simp [Ne.symm hc])) (by decide) h

/-- A member in front of a point, unless both are indices. -/
theorem yields_member (hm : IsMember m) (hms : ∀ n ∈ ms, IsMember n)
    (hpair : ∀ n ∈ ms.head?, ¬ (IsDigits m ∧ IsDigits n)) {A : List Grain} (h : Yields (suffix ms) A []) :
    Yields (m ++ suffix ms) (memberGrain m :: A) [] := by
  rw [memberGrain]
  split
  next hdigits =>
    refine yields_cons (hdigits.lexeme_integer (suffix_head ms) ?_) (by decide) h
    rcases ms with _ | ⟨n, ms⟩
    · rfl
    · obtain ⟨c, x, rfl, hc, -⟩ := ((hms n (by simp)).resolve_right fun hn =>
        hpair n rfl ⟨hdigits, hn⟩).exists_cons
      simp [suffix_cons, Token.digitsLength?, hc]
  next hdigits =>
    refine yields_cons ((hm.resolve_right hdigits).lexeme_eq fun d hd => ?_) (by decide) h
    rw [suffix_head ms d hd]
    rfl

/-- The grains of members behind points. -/
theorem yields_suffix (hms : ∀ m ∈ ms, IsMember m) : Yields (suffix ms) (grains ms) [] := by
  fun_induction grains ms with
  | case1 m n ms hdigits ih =>
    have ⟨hm, hn, hms⟩ : IsMember m ∧ IsMember n ∧ ∀ m ∈ ms, IsMember m := by simpa using hms
    have hfloat := yields_cons (x := m ++ '.' :: n) (u := suffix ms)
      (by simpa using hdigits.1.lexeme_float hdigits.2 (suffix_head ms)) (by decide) (ih hms)
    rw [suffix_cons, suffix_cons]
    refine yields_point hm ?_
    simpa using hfloat
  | case2 m n ms hdigits ih =>
    have ⟨hm, hms⟩ : IsMember m ∧ ∀ m ∈ n :: ms, IsMember m := by simpa using hms
    exact yields_point hm (yields_member hm hms (by simpa using hdigits) (ih hms))
  | case3 m =>
    have hm := hms m (by simp)
    have hend : Yields (suffix []) [] [] := .done []
    exact yields_point hm (yields_member hm (by simp) (by simp) hend)
  | case4 => exact .done []

/-- The grains of a chain. -/
theorem yields_text (hb : IsName b) (hms : ∀ m ∈ ms, IsMember m) :
    Yields (text b ms) (⟨[], .identifier, b⟩ :: grains ms) [] := by
  refine yields_cons (hb.lexeme_eq fun d hd => ?_) (by decide) (yields_suffix hms)
  rw [suffix_head ms d hd]
  rfl

/-- The grains of the members up to the first two indices side by side; a floating literal is behind
the point then. -/
theorem grains_reached (ms : List Text) : ∃ B, grains ms = (reached ms).flatMap (fun m => [point, memberGrain m]) ++ B ∧
    (B = [] ∧ reached ms = ms ∨ ∃ x B', B = point :: ⟨[], .float, x⟩ :: B' ∧ reached ms ≠ ms) := by
  fun_induction grains ms with
  | case1 m n ms hdigits ih =>
    rw [reached, if_pos hdigits]
    exact ⟨_, rfl, .inr ⟨_, _, rfl, by simp⟩⟩
  | case2 m n ms hdigits ih =>
    obtain ⟨B, hB, hend⟩ := ih
    rw [reached, if_neg hdigits]
    refine ⟨B, by simp [hB], hend.imp (And.imp_right fun h => by rw [h]) ?_⟩
    rintro ⟨x, B', hB', hne⟩
    exact ⟨x, B', hB', by simpa using hne⟩
  | case3 m => exact ⟨[], by simp [reached], .inl ⟨rfl, rfl⟩⟩
  | case4 => exact ⟨[], rfl, .inl ⟨rfl, rfl⟩⟩

end Source

section Reading

variable {g : Grammar} {c c₁ : Cursor} {b m t : Text} {ms : List Text} {A B W : List Grain} {start : Token}

/-- What ends a chain: nothing, or a floating literal behind a point. -/
def Ends (B : List Grain) : Prop := B = [] ∨ ∃ x B', B = point :: ⟨[], .float, x⟩ :: B'

theorem not_mark {gap x : Text} {k : Token.Kind} (hk : k ≠ .operator) : ¬ (⟨gap, k, x⟩ : Grain).IsMark :=
  fun ⟨_, _, h⟩ => hk (Prod.mk.inj h).1

/-- The two tokens at a cursor that has a point ahead and a grain behind it. -/
theorem two_ahead (hc : c.Reached) {k : Token.Kind} {x : Text} (hk : k ≠ .operator)
    (hY : c.grains = point :: ⟨[], k, x⟩ :: A) :
    c.peek.word = (.dot, ['.']) ∧ (c.peek 1).word = (k, x) ∧ (c.advance 2).grains = A := by
  obtain ⟨hword, hnext⟩ := hc.next hY (not_mark (by decide))
  obtain ⟨hword', hnext'⟩ := (hc.lead (hc.sound.advance 1)).next hnext (not_mark hk)
  rw [Cursor.peek_advance] at hword'
  exact ⟨hword, hword', by rwa [← Cursor.advance_add] at hnext'⟩

end Reading

end Chain

namespace Chain

section Reading

open Grammar

variable {g : Grammar} {c c₁ : Cursor} {b m t : Text} {ms : List Text} {A B W : List Grain} {start : Token}
  {e : Expression}

theorem suffixStep_member (start : Token) (e : Expression) (hc : c.Reached)
    (hY : c.grains = point :: memberGrain m :: A) :
    g.suffixStep start e c = .ok (some (.member e m ((c.advance 2).sliceFrom start))) (c.advance 2) ∧
      (c.advance 2).grains = A := by
  have hk : (memberGrain m).kind ≠ .operator := by
    rw [memberGrain]
    split <;> simp
  obtain ⟨hdot, hname, hnext⟩ := two_ahead hc hk hY
  refine ⟨?_, hnext⟩
  have hfollows : (c.peek.kind == .dot && ((c.peek 1).kind == .identifier || (c.peek 1).kind == .integer)) = true := by
    obtain ⟨hkind, -⟩ := Prod.mk.inj hdot
    obtain ⟨hkind', -⟩ := Prod.mk.inj hname
    rw [hkind, hkind', memberGrain]
    split <;> rfl
  rw [Grammar.suffixStep, get_bind_eq_ok, if_pos hfollows, skip_bind_eq_ok, sliceFrom_bind_eq_ok,
    (Prod.mk.inj hname).2]
  rfl

theorem peek_of_ends (hc : c.Reached) (hB : Ends c.grains) : (c.peek.kind = .eof ∨ c.peek.kind = .dot) ∧
    ¬ (c.peek.kind = .dot ∧ ((c.peek 1).kind = .identifier ∨ (c.peek 1).kind = .integer)) := by
  rcases hB with hB | ⟨x, B', hB⟩
  · have hview := Token.view_fst c.peek
    rw [(hc.peek_of_nil hB).2] at hview
    simp [← hview]
  · obtain ⟨hdot, hfloat, -⟩ := two_ahead hc (by decide) hB
    simp [(Prod.mk.inj hdot).1, (Prod.mk.inj hfloat).1]

theorem suffixStep_end (hc : c.Reached) (hB : Ends c.grains) : g.suffixStep start e c = .ok none c := by
  obtain ⟨hk, hfollows⟩ := peek_of_ends hc hB
  have hsymbol : ∀ x, c.peek.isSymbol x = false := fun x => by
    rcases hk with hk | hk <;> simp [Token.isSymbol, Token.has, hk]
  have hmarks : Grammar.isMarks c.peek = false := by
    rcases hk with hk | hk <;> simp [Grammar.isMarks, hk]
  rw [Grammar.suffixStep, get_bind_eq_ok, if_neg (by simpa using hfollows)]
  simp [hsymbol, Grammar.closureFollows, hmarks]
  rfl

/-- The members up to the end of a chain are read one around the other. -/
theorem steps_members (hc : c.Braceless) (hl : c.Leads c₁) (hW : c.grains = W ++ c₁.grains) (hne : W ≠ [])
    (hB : Ends B) (hY : c₁.grains = ms.flatMap (fun m => [point, memberGrain m]) ++ B) (e : Expression) :
    Steps (g.suffixStep c.peek) ms.length e c₁ (accesses e (Grain.bare W) ms) (c₁.advance (2 * ms.length)) ∧
      (c₁.advance (2 * ms.length)).grains = B := by
  induction ms generalizing c₁ W e with
  | nil =>
    have hY' : c₁.grains = B := hY
    exact ⟨.stop (suffixStep_end (hc.reached.lead hl) (hY' ▸ hB)), hY'⟩
  | cons m ms ih =>
    have hY' : c₁.grains = point :: memberGrain m :: (ms.flatMap (fun m => [point, memberGrain m]) ++ B) := hY
    obtain ⟨hstep, hnext⟩ := suffixStep_member (g := g) c.peek e (hc.reached.lead hl) hY'
    have hl' := hl.trans (hl.sound.advance 2)
    have hW' : c.grains = (W ++ [point, memberGrain m]) ++ (c₁.advance 2).grains := by
      rw [hW, hY', hnext]
      simp
    have hbare : Grain.bare (W ++ [point, memberGrain m]) = Grain.bare W ++ '.' :: m := by
      rw [Grain.Spells.bare_append hne]
      simp [point, memberGrain]
    rw [hc.slice_eq hl' hW' (.refl _) (by simp), hbare] at hstep
    obtain ⟨hsteps, hend⟩ := ih hl' hW' (by simp) hnext (.member e m (Grain.bare W ++ '.' :: m))
    rw [hbare, ← Cursor.advance_add] at hsteps
    rw [← Cursor.advance_add] at hend
    rw [List.length_cons, Nat.mul_add_one, Nat.add_comm (2 * ms.length)]
    exact ⟨.step hstep hsteps, hend⟩

theorem not_reserved {t : Token} (ht : ∀ w ∈ reserved, t.text ≠ w.toList) (ws : List String)
    (hws : ws ⊆ reserved) : t.isIdentifierIn ws = false := by
  simp only [Token.isIdentifierIn, Bool.and_eq_false_imp, List.any_eq_false, beq_iff_eq]
  exact fun _ w hw => ht w (hws hw)

/-- A chain is read as its members one around the other, up to its end. -/
theorem expressionRule_chain (hc : c.Braceless) (hb : IsBase b) (hB : Ends B)
    (hY : c.grains = ⟨[], .identifier, b⟩ :: (ms.flatMap (fun m => [point, memberGrain m]) ++ B)) :
    g.expressionRule c = .ok (tree b ms) (c.advance (1 + 2 * ms.length)) ∧
      (c.advance (1 + 2 * ms.length)).grains = B := by
  obtain ⟨hword, hnext⟩ := hc.reached.next hY (not_mark (by decide))
  obtain ⟨hkind, htext⟩ := Prod.mk.inj hword
  have hl := hc.sound.advance 1
  have hreserved : ∀ ws : List String, ws ⊆ reserved → c.peek.isIdentifierIn ws = false :=
    not_reserved fun w hw => htext ▸ hb.free w hw
  obtain ⟨hsteps, hend⟩ := steps_members (g := g) hc hl (W := [⟨[], .identifier, b⟩]) (by rw [hY, hnext]; rfl)
    (by simp) hB hnext (.reference b b)
  rw [← Cursor.advance_add] at hsteps hend
  have hchain : g.suffixes c.peek (.reference b b) (c.advance 1) = .ok (tree b ms) (c.advance (1 + 2 * ms.length)) := by
    have hbare : Grain.bare [(⟨[], .identifier, b⟩ : Grain)] = b := by simp [Grain.bare]
    rw [hbare] at hsteps
    refine extend_eq_ok.mpr ⟨_, ?_, hsteps⟩
    have hroom := (hc.lead hl).reached.length_le_room
    rw [hnext] at hroom
    simp only [List.length_append, List.length_flatMap, List.length_cons, List.length_nil, List.map_const',
      List.sum_replicate, smul_eq_mul] at hroom
    omega
  have hfront : genericsFollow (c.advance 1) = false := by
    have hview := (hc.lead hl).reached.view_peek
    have hlead : Grain.lead (c.advance 1).grains = (.eof, []) ∨ Grain.lead (c.advance 1).grains = (.dot, ['.']) := by
      rw [hnext]
      rcases ms with _ | ⟨m, ms⟩
      · rcases hB with rfl | ⟨x, B', rfl⟩
        · exact .inl rfl
        · exact .inr rfl
      · exact .inr rfl
    have hkind' : (c.advance 1).peek.kind ≠ .operator := by
      rw [← Token.view_fst, hview]
      rcases hlead with h | h <;> simp [h]
    simp [genericsFollow, Token.isOperatorWith, hkind']
  have hname : g.primary c = .ok (.reference b b) (c.advance 1) := by
    rw [primary, get_bind_eq_ok]
    simp only [hkind]
    rw [wordExpression, current_bind_eq_ok, if_neg (by simp [hreserved ["true", "false"] (by decide)]),
      if_neg (by simp [hreserved ["nil"] (by decide)]),
      if_neg (by simp [hreserved ["if", "switch", "do"] (by decide)]), nameExpression,
      consume_bind_eq_ok, get_bind_eq_ok, if_neg (by simp [hfront]), htext]
    rfl
  have hoperand : g.operandRule c = .ok (tree b ms) (c.advance (1 + 2 * ms.length)) := by
    rw [operandRule, get_bind_eq_ok,
      if_neg (by simp [hreserved ["try", "await", "consume", "copy"] (by decide)]),
      if_neg (by simp [hkind]), if_neg (by simp [hkind])]
    exact (bind_of_ok hname).trans hchain
  have hlast : g.sequenceTail (c.advance (1 + 2 * ms.length)) = .ok none (c.advance (1 + 2 * ms.length)) := by
    obtain ⟨hk, -⟩ := peek_of_ends (hc.lead (hc.sound.advance _)).reached (hend ▸ hB)
    rw [sequenceTail, get_bind_eq_ok, if_neg, if_neg]
    · rfl
    · rcases hk with hk | hk <;> simp [hk]
    · rcases hk with hk | hk <;> simp [Token.isIdentifierIn, hk]
  refine ⟨?_, hend⟩
  rw [expressionRule, current_bind_eq_ok]
  refine (bind_of_ok hoperand).trans ((bind_of_ok (collect_eq_ok.mpr ⟨.stop hlast, Nat.zero_le _⟩)).trans ?_)
  rfl

theorem kind_of_mem_grains {a : Grain} (h : a ∈ grains ms) : a.kind ≠ .symbol := by
  fun_induction grains ms with
  | case1 m n ms hdigits ih =>
    rcases List.mem_cons.mp h with rfl | h
    · simp [point]
    rcases List.mem_cons.mp h with rfl | h
    · simp
    · exact ih h
  | case2 m n ms hdigits ih =>
    rcases List.mem_cons.mp h with rfl | h
    · simp [point]
    rcases List.mem_cons.mp h with rfl | h
    · rw [memberGrain]
      split <;> simp
    · exact ih h
  | case3 m =>
    rcases List.mem_cons.mp h with rfl | h
    · simp [point]
    obtain rfl := List.mem_singleton.mp h
    rw [memberGrain]
    split <;> simp
  | case4 => cases h

/-- The cursor on a chain. -/
theorem exists_cursor (hb : IsBase b) (hms : ∀ m ∈ ms, IsMember m) : ∃ c, Cursor.ofText (text b ms) = .ok c ∧
    c.Braceless ∧ c.grains = ⟨[], .identifier, b⟩ :: grains ms := by
  obtain ⟨c, hc, hgrains⟩ := (yields_text hb.name hms).exists_ofText
  refine ⟨c, hc, ⟨Cursor.reached_ofText hc, fun a ha hword => ?_⟩, hgrains⟩
  rw [hgrains] at ha
  rcases List.mem_cons.mp ha with rfl | ha
  · cases (Prod.mk.inj hword).1
  · exact kind_of_mem_grains ha (Prod.mk.inj hword).1

/-- A token on the first line of a source stands in the column of its offset. -/
theorem coordinates_of_line {s : Text} {t : Token} (h : Token.Located s t) (hs : '\n' ∉ s.take t.start) : t.line = 1 ∧ t.column = t.start := by
  have hline := h.line
  rw [List.count_eq_zero_of_not_mem hs] at hline
  have hstart : Text.lineStart s t.start = 0 := by
    rw [Text.lineStart, List.takeWhile_eq_self_iff.mpr, List.length_reverse, Nat.sub_self]
    intro d hd
    simpa using fun h : d = '\n' => hs (h ▸ List.mem_reverse.mp hd)
  have hcolumn := h.column
  exact ⟨hline, by omega⟩

theorem bare_members (ms : List Text) :
    Grain.spell (ms.flatMap fun m => [point, memberGrain m]) = suffix ms := by
  induction ms with
  | nil => rfl
  | cons m ms ih => simpa [suffix, point, memberGrain] using ih

/-- A grain without a gap stands where the token behind the cursor ends. -/
theorem peek_start_eq {a : Grain} (hc : c.Reached) (hY : c.grains = a :: A) (ha : a.gap = []) :
    c.peek.start = c.edge := by
  have hfaces := hc.faces hY
  have hplaced := hc.sound.placed_peek hfaces.ne_eof
  have hlen := slice_length (a := c.edge) (hplaced.lt.le.trans hplaced.le)
  rw [← hfaces.gap, ha, List.length_nil] at hlen
  have := hc.sound.edge_le_peek
  omega

/-- A token that the members which are read lead to stands behind them, on the first line. -/
theorem coordinates_of_stop {a : Grain} (hc : Cursor.ofText t = .ok c) (hl : c.Leads c₁) (hb : IsName b)
    (hms : ∀ m ∈ ms, IsMember m) (hmem : c₁.peek ∈ c.tokens)
    (hY : c.grains = (⟨[], .identifier, b⟩ :: ms.flatMap fun m => [point, memberGrain m]) ++ c₁.grains)
    (ha : c₁.grains = a :: A) (hgap : a.gap = []) :
    c₁.peek.line = 1 ∧ c₁.peek.column = (text b ms).length := by
  have hreached := Cursor.reached_ofText hc
  obtain ⟨-, rfl, hbehind⟩ := Cursor.sound_ofText hc
  have hstart : c.peek.start = 0 := by
    rw [peek_start_eq hreached hY rfl, Cursor.edge, hbehind]
    rfl
  have htext : c.source.take c₁.edge = text b ms := by
    have hbare := hreached.upTo_eq hl hY (by simp)
    rw [Cursor.upTo, hstart, hl.source, Text.slice, List.drop_zero, Nat.sub_zero] at hbare
    rw [hbare, Grain.bare, bare_members]
    rfl
  have hstop := peek_start_eq (hreached.lead hl) ha hgap
  have hlen := congrArg List.length htext
  rw [List.length_take_of_le (hl.source ▸ hl.sound.edge_le_length), ← hstop] at hlen
  obtain ⟨ts, hts⟩ : ∃ ts, Token.tokenize c.source = .ok ts := by
    cases hts : Token.tokenize c.source with
    | error e =>
      rw [Cursor.ofText, hts] at hc
      cases hc
    | ok ts => exact ⟨ts, rfl⟩
  obtain ⟨c', hc', htokens⟩ := Cursor.tokens_ofText hts
  obtain rfl : c = c' := Except.ok.inj (hc.symm.trans hc')
  rw [htokens] at hmem
  rw [← hlen]
  refine coordinates_of_line (Token.significant_located hts _ hmem) ?_
  rw [hstop, htext, text, suffix, List.mem_append, List.mem_flatMap, not_or]
  refine ⟨hb.newline_not_mem, ?_⟩
  rintro ⟨m, hm, hnewline⟩
  exact (hms m hm).newline_not_mem (by simpa using hnewline)

theorem reached_subset (ms : List Text) : reached ms ⊆ ms := by
  fun_induction reached ms with
  | case1 => simp
  | case2 m n ms hdigits ih => exact List.cons_subset_cons m ih
  | case3 => exact List.Subset.refl _

end Reading

end Chain

namespace Parser

open Chain

variable {b : Text} {ms : List Text}

/-- A chain of members is read up to the first two indices side by side, and accepted as a whole if there
are none. -/
theorem chain_reads (hb : IsBase b) (hms : ∀ m ∈ ms, IsMember m) :
    runOn expression (Chain.text b ms) = .ok (Chain.tree b (Chain.reached ms)) ∧
      runOn (whole expression) (Chain.text b ms) =
        if Chain.reached ms = ms then .ok (Chain.tree b ms)
        else .error ⟨.trailingToken ['.'], 1, (Chain.text b (Chain.reached ms)).length⟩ := by
  obtain ⟨c, hc, hbraceless, hgrains⟩ := exists_cursor hb hms
  obtain ⟨B, hB, hend⟩ := grains_reached ms
  rw [hB] at hgrains
  have hends : Ends B := hend.imp And.left fun ⟨x, B', h, _⟩ => ⟨x, B', h⟩
  obtain ⟨hread, hrest⟩ := expressionRule_chain (g := Grammar.upTo (c.room + 1)) hbraceless hb hends hgrains
  have hlead := hbraceless.lead (hbraceless.sound.advance (1 + 2 * (Chain.reached ms).length))
  refine ⟨?_, ?_⟩
  · have hexpression : expression c = _ := hread
    simp only [runOn, hc, hexpression]
  · rcases hend with ⟨rfl, hall⟩ | ⟨x, B', rfl, hne⟩
    · rw [if_pos hall]
      rw [hall] at hread hrest hlead
      exact runOn_whole_of_ok hc hread (hlead.reached.grains_eq_nil_iff.mp hrest)
    · have hahead : (c.advance (1 + 2 * (Chain.reached ms).length)).ahead ≠ [] := fun hnil => by
        simp [hlead.reached.grains_eq_nil_iff.mpr hnil] at hrest
      have hstop : runOn (whole expression) (Chain.text b ms) = .error _ := runOn_whole_of_trailing hc hread hahead
      have hmem : (c.advance (1 + 2 * (Chain.reached ms).length)).peek ∈ c.tokens := by
        obtain ⟨u, us, hus⟩ := List.exists_cons_of_ne_nil hahead
        have hdrop : c.ahead.drop (1 + 2 * (Chain.reached ms).length) = u :: us := hus
        have hu : u ∈ c.ahead := List.mem_of_mem_drop (hdrop ▸ List.mem_cons_self)
        simp [Cursor.peek, Cursor.tokens, hus, hu]
      obtain ⟨hline, hcolumn⟩ := coordinates_of_stop hc (hbraceless.sound.advance _) hb.name
        (fun m hm => hms m (reached_subset ms hm)) hmem (by rw [hgrains, hrest]; rfl) hrest rfl
      rw [if_neg hne, hstop, SyntaxError.locate, hline, hcolumn,
        (Prod.mk.inj (two_ahead hlead.reached (by decide) hrest).1).2]

theorem chain_reads_tuple : IsBase ['t'] ∧ (∀ m ∈ [['x'], ['0'], ['y']], IsMember m) ∧
    runOn (whole expression) "t.x.0.y".toList = .ok (.member (.member (.member (.reference ['t'] ['t'])
      ['x'] "t.x".toList) ['0'] "t.x.0".toList) ['y'] "t.x.0.y".toList) := by
  have hb : IsBase ['t'] := ⟨⟨[], by decide +kernel⟩, by decide⟩
  have hms : ∀ m ∈ [['x'], ['0'], ['y']], IsMember m := by
    simp only [List.forall_mem_cons]
    exact ⟨.inl ⟨[], by decide +kernel⟩, .inr (by decide), .inl ⟨[], by decide +kernel⟩, by simp⟩
  have hall : Chain.reached [['x'], ['0'], ['y']] = [['x'], ['0'], ['y']] := by decide +kernel
  exact ⟨hb, hms, (chain_reads hb hms).2.trans (if_pos hall)⟩

/-- Two indices are no members, although each is one: the point between them makes them a number. -/
theorem chain_reads_float : IsDigits ['0'] ∧ IsDigits ['1'] ∧
    (match runOn (whole expression) "t.0.1".toList with
      | .ok _ => none
      | .error e => some e) = some ⟨.trailingToken ['.'], 1, 1⟩ := by
  decide +kernel

end Parser

end SwiftMacros
