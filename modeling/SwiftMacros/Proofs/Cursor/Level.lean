import Mathlib
import SwiftMacros.Proofs.Cursor.Grains
import SwiftMacros.Proofs.Parser.Answers

/-! Brackets in the grains ahead of a cursor. Which grains are passed over from an opening bracket to
the one that closes it is told by the grains alone; what is level, with its brackets in pairs, has no
part in it. -/

namespace SwiftMacros

open SwiftMacros.Parser

namespace Grain

variable {a : Grain} {A B W Y Z : List Grain} {d e : Int}

/-- The grain as a token that stands nowhere. -/
def token (a : Grain) : Token := ⟨a.kind, a.text, 0, 0, 0, 0, false, false⟩

def opens (a : Grain) : Bool := a.token.isOpener

def closes (a : Grain) : Bool := a.token.isCloser

/-- What is behind the bracket that closes the first of `d` open ones. -/
def behind? : Int → List Grain → Option (List Grain)
  | _, [] => none
  | d, a :: A =>
    if a.opens then behind? (d + 1) A
    else if a.closes then if d = 1 then some A else behind? (d - 1) A
    else behind? d A

/-- Inside of brackets the grains are passed over. -/
def Level (W : List Grain) : Prop := ∀ d : Int, 1 ≤ d → ∀ Y, behind? d (W ++ Y) = behind? d Y

theorem Level.nil : Level [] := fun _ _ _ => rfl

theorem Level.append (h : Level A) (h' : Level B) : Level (A ++ B) := by
  intro d hd Y
  rw [List.append_assoc, h d hd, h' d hd]

theorem behind_plain (h : ∀ a ∈ A, a.opens = false ∧ a.closes = false) (d : Int) (Y : List Grain) :
    behind? d (A ++ Y) = behind? d Y := by
  induction A with
  | nil => rfl
  | cons a A ih =>
    obtain ⟨ha, hA⟩ := List.forall_mem_cons.mp h
    rw [List.cons_append, behind?, if_neg (by simp [ha.1]), if_neg (by simp [ha.2]), ih hA]

theorem Level.of_plain (h : ∀ a ∈ A, a.opens = false ∧ a.closes = false) : Level A :=
  fun d _ Y => behind_plain h d Y

/-- None of the grains opens a brace. -/
def Unbraced (W : List Grain) : Prop := ∀ a ∈ W, a.word ≠ (.symbol, "\x7b".toList)

theorem Unbraced.left (h : Unbraced (A ++ B)) : Unbraced A := fun a ha => h a (List.mem_append_left _ ha)

theorem Unbraced.right (h : Unbraced (A ++ B)) : Unbraced B := fun a ha => h a (List.mem_append_right _ ha)

theorem Unbraced.tail (h : Unbraced (a :: A)) : Unbraced A := fun b hb => h b (List.mem_cons_of_mem _ hb)

/-- What is level in brackets is level. -/
theorem Level.enclose {o e : Grain} (ho : o.opens = true) (he : e.closes = true)
    (he' : e.opens = false) (h : Level W) : Level (o :: W ++ [e]) := by
  intro d hd Y
  have hne : d + 1 ≠ 1 := by omega
  rw [List.cons_append, List.cons_append, List.append_assoc, behind?, if_pos ho, h _ (by omega),
    List.singleton_append, behind?, if_neg (by simp [he']), if_pos he, if_neg hne,
    add_sub_cancel_right]

/-- Behind level grains in brackets. -/
theorem Level.behind {o e : Grain} (ho : o.opens = true) (he : e.closes = true)
    (he' : e.opens = false) (h : Level W) : behind? 0 (o :: W ++ e :: Y) = some Y := by
  rw [List.cons_append, behind?, if_pos ho, zero_add, h 1 le_rfl, behind?, if_neg (by simp [he']),
    if_pos he, if_pos rfl]

theorem length_behind (h : behind? d A = some B) : B.length < A.length := by
  induction A generalizing d with
  | nil => cases h
  | cons a A ih =>
    rw [behind?] at h
    rw [List.length_cons]
    split_ifs at h
    · exact (ih h).trans (Nat.lt_succ_self _)
    · cases h
      exact Nat.lt_succ_self _
    · exact (ih h).trans (Nat.lt_succ_self _)
    · exact (ih h).trans (Nat.lt_succ_self _)

theorem suffix_behind (h : behind? d A = some B) : ∃ W, A = W ++ B := by
  induction A generalizing d with
  | nil => cases h
  | cons a A ih =>
    rw [behind?] at h
    have hcons : ∀ {d : Int}, behind? d A = some B → ∃ W, a :: A = W ++ B := fun h => by
      obtain ⟨W, rfl⟩ := ih h
      exact ⟨a :: W, rfl⟩
    split_ifs at h
    · exact hcons h
    · cases h
      exact ⟨[a], rfl⟩
    · exact hcons h
    · exact hcons h

/-- What is passed over does not depend on what is behind. -/
theorem behind_append (h : behind? d (W ++ Y) = some Y) (Z : List Grain) :
    behind? d (W ++ Z) = some Z := by
  induction W generalizing d with
  | nil => exact absurd (length_behind h) (lt_irrefl _)
  | cons a W ih =>
    rw [List.cons_append, behind?] at h ⊢
    split_ifs at h ⊢
    · exact ih h
    · rw [Option.some.injEq] at h ⊢
      obtain rfl : W = [] := by simpa using h
      rfl
    · exact ih h
    · exact ih h

/-- Brackets that are closed are passed over inside of others. -/
theorem behind_add (h : behind? e (W ++ Y) = some Y) (he : 1 ≤ e) (hd : 1 ≤ d) (Z : List Grain) :
    behind? (e + d) (W ++ Z) = behind? d Z := by
  induction W generalizing e with
  | nil => exact absurd (length_behind h) (lt_irrefl _)
  | cons a W ih =>
    rw [List.cons_append, behind?] at h ⊢
    by_cases ho : a.opens = true
    · rw [if_pos ho] at h ⊢
      rw [add_right_comm]
      exact ih h (by omega)
    rw [if_neg ho] at h ⊢
    by_cases hc : a.closes = true
    · rw [if_pos hc] at h ⊢
      rw [if_neg (by omega)]
      by_cases h1 : e = 1
      · rw [if_pos h1, Option.some.injEq] at h
        obtain rfl : W = [] := List.append_cancel_right (h.trans (List.nil_append Y).symm)
        rw [h1, add_sub_cancel_left]
        rfl
      · rw [if_neg h1] at h
        rw [show e + d - 1 = e - 1 + d by omega]
        exact ih h (by omega)
    · rw [if_neg hc] at h ⊢
      exact ih h he

theorem Level.of_behind (ho : a.opens = true) (h : behind? 0 (a :: W ++ Y) = some Y) :
    Level (a :: W) := by
  intro d hd Z
  rw [List.cons_append, behind?, if_pos ho, zero_add] at h
  rw [List.cons_append, behind?, if_pos ho, add_comm d 1]
  exact behind_add h le_rfl hd Z

end Grain

namespace Token

variable {t : Token} {gap : Text}

/-- Operators are no brackets, whole or in grains. -/
theorem grains_operator (x : Text) :
    ∀ a ∈ operatorGrains gap x, a.opens = false ∧ a.closes = false := by
  induction x generalizing gap with
  | nil => simp [operatorGrains]
  | cons c x ih =>
    rw [operatorGrains]
    split
    · exact List.forall_mem_cons.mpr ⟨⟨rfl, rfl⟩, ih⟩
    · simp [Grain.opens, Grain.closes, Grain.token, isOpener, isCloser, isSymbolIn]

/-- A token that is no bracket is level. -/
theorem grains_plain (ho : t.isOpener = false) (hc : t.isCloser = false) :
    ∀ a ∈ Word.grains gap t.word, a.opens = false ∧ a.closes = false := by
  rw [Word.grains]
  split
  · exact grains_operator _
  · simpa using ⟨ho, hc⟩

/-- A bracket is a grain. -/
theorem grains_bracket (h : t.isOpener = true ∨ t.isCloser = true) :
    Word.grains gap t.word = [⟨gap, t.kind, t.text⟩] := by
  have hk : t.kind ≠ .operator := by
    intro hk
    simp [isOpener, isCloser, isSymbolIn, hk] at h
  exact if_neg hk

/-- Brackets in tokens are matched as they are in grains. -/
theorem behind_grainsFrom {s : Text} (d : Int) (a : Nat) (ts : List Token) :
    Grain.behind? d (grainsFrom s a ts) = (balancedLength? d ts).map fun n =>
      grainsFrom s (stopFrom a (ts.take n)) (ts.drop n) := by
  induction ts generalizing d a with
  | nil => rfl
  | cons t ts ih =>
    rw [grainsFrom, balancedLength?]
    by_cases ho : t.isOpener = true
    · have ho' : Grain.opens ⟨Text.slice s a t.start, t.kind, t.text⟩ = true := ho
      rw [grains_bracket (.inl ho), List.singleton_append, Grain.behind?, if_pos ho', if_pos ho, ih]
      simp [Function.comp_def, stopFrom_cons]
    rw [if_neg ho]
    by_cases hc : t.isCloser = true
    · have ho' : ¬ Grain.opens ⟨Text.slice s a t.start, t.kind, t.text⟩ = true := ho
      have hc' : Grain.closes ⟨Text.slice s a t.start, t.kind, t.text⟩ = true := hc
      rw [grains_bracket (.inr hc), List.singleton_append, Grain.behind?, if_neg ho', if_pos hc',
        if_pos hc]
      split
      · simp [stopFrom]
      · rw [ih]
        simp [Function.comp_def, stopFrom_cons]
    · have hplain : ∀ b ∈ Word.grains (Text.slice s a t.start) t.word, b.opens = false ∧ b.closes = false :=
        grains_plain (by simpa using ho) (by simpa using hc)
      rw [if_neg hc, Grain.behind_plain hplain, ih]
      simp [Function.comp_def, stopFrom_cons]

end Token

namespace Cursor

variable {c c' c'' : Cursor}

/-- The cursor is reached by reading its source from the start, and no brace is opened ahead. -/
structure Braceless (c : Cursor) : Prop where
  reached : c.Reached
  none : Grain.Unbraced c.grains

/-- What is read between two cursors has its brackets in pairs, if it opens no brace. -/
structure Passes (c c' : Cursor) : Prop where
  leads : c.Leads c'
  level : ∃ W, c.grains = W ++ c'.grains ∧ (Grain.Unbraced W → Grain.Level W)

theorem Passes.trans (h : c.Passes c') (h' : c'.Passes c'') : c.Passes c'' := by
  obtain ⟨W, hW, hlevel⟩ := h.level
  obtain ⟨V, hV, hlevel'⟩ := h'.level
  refine ⟨h.leads.trans h'.leads, W ++ V, by rw [hW, hV, List.append_assoc], fun hnone => ?_⟩
  exact (hlevel hnone.left).append (hlevel' hnone.right)

/-- Where a group of brackets ends is told by the grains ahead. -/
theorem grains_skipBalanced {u : Unit} (hc : skipBalanced c = .ok u c') :
    Grain.behind? 0 c.grains = some c'.grains := by
  rw [skipBalanced, get_bind_eq_ok] at hc
  rw [grains, Token.behind_grainsFrom]
  cases hn : balancedLength? 0 c.ahead with
  | none =>
    rw [hn] at hc
    cases hc
  | some n =>
    rw [hn] at hc
    obtain rfl : c.advance n = c' := skip_eq_ok.mp hc
    have hedge : Token.stopFrom c.edge (c.ahead.take n) = (c.advance n).edge := stopFrom_taken rfl
    rw [Option.map_some, grains, hedge]
    rfl

theorem Braceless.lead (h : c.Braceless) (hl : c.Leads c') : c'.Braceless := by
  obtain ⟨W, hW⟩ := h.reached.taken hl
  exact ⟨h.reached.lead hl, Grain.Unbraced.right (hW ▸ h.none)⟩

theorem Braceless.sound (h : c.Braceless) : c.Sound := h.reached.sound

namespace Reached

variable (h : c.Reached)
include h

theorem passes_refl : c.Passes c := ⟨h.sound.refl, [], rfl, fun _ => .nil⟩

theorem length_le (hl : c.Leads c') : c'.grains.length ≤ c.grains.length := by
  obtain ⟨W, hW⟩ := h.taken hl
  rw [hW, List.length_append]
  exact Nat.le_add_left _ _

/-- A cursor that has moved past the token that it stood at has taken grains. -/
theorem grains_lt (hl : c.Leads c') (hlt : c.peek.start < c'.edge) :
    c'.grains.length < c.grains.length := by
  obtain ⟨ts, hb, hgrains⟩ := h.grains_eq hl
  obtain ⟨t, ts, rfl⟩ := List.exists_cons_of_ne_nil (h.sound.taken_ne_nil hb hlt)
  have ht := hl.sound.placed_behind (t := t) (by simp [hb])
  obtain ⟨A, hA⟩ := Token.grains_word (Text.slice c.source c.edge t.start) ht.text_ne_nil
  rw [hgrains, Token.grainsFrom, hA]
  simp only [List.cons_append, List.length_cons, List.length_append]
  omega

/-- An opening brace at the cursor is a grain. -/
theorem not_unbraced (hb : c.peek.isSymbol "\x7b" = true) (hl : c.Leads c') (hlt : c.peek.start < c'.edge)
    {W : List Grain} (hW : c.grains = W ++ c'.grains) : ¬ Grain.Unbraced W := by
  rw [Token.isSymbol, Token.has, Bool.and_eq_true, beq_iff_eq, beq_iff_eq] at hb
  obtain ⟨A, hA⟩ := h.grains_front (by simp [hb.1])
  have hlen := h.grains_lt hl hlt
  rw [hW, List.length_append] at hlen
  obtain ⟨a, V, rfl⟩ := List.exists_cons_of_ne_nil (List.ne_nil_of_length_pos (l := W) (by omega))
  obtain ⟨rfl, -⟩ := List.cons.inj (hW.symm.trans hA)
  exact fun hnone => hnone _ List.mem_cons_self (by simp [Grain.word, Token.view, Token.word, hb.1, hb.2])

/-- A token that is no bracket can be taken, and the end of the source as well. -/
theorem passes_advance (ho : c.peek.isOpener = false) (hc : c.peek.isCloser = false) :
    c.Passes (c.advance 1) := by
  refine ⟨h.sound.advance 1, ?_⟩
  cases ha : c.ahead with
  | nil =>
    refine ⟨[], ?_, fun _ => .nil⟩
    rw [List.nil_append, h.grains_eq_nil_iff.mpr ha,
      (h.lead (h.sound.advance 1)).grains_eq_nil_iff.mpr (by simp [advance, ha])]
  | cons t ts =>
    have hpeek : c.peek = t := by simp [Cursor.peek, ha]
    have hedge := h.sound.edge_advance (hpeek ▸ (h.sound.placed_ahead (t := t) (by simp [ha])).ne_eof)
    refine ⟨Token.Word.grains (Text.slice c.source c.edge t.start) t.word, ?_,
      fun _ => .of_plain (Token.grains_plain (hpeek ▸ ho) (hpeek ▸ hc))⟩
    rw [grains, ha, Token.grainsFrom, grains, hedge, hpeek]
    simp [advance, ha]

/-- A group of brackets is level. -/
theorem level_behind (ho : c.peek.isOpener = true) {B : List Grain}
    (hB : Grain.behind? 0 c.grains = some B) : ∃ W, c.grains = W ++ B ∧ Grain.Level W := by
  have hk : c.peek.kind = .symbol := by
    simp only [Token.isOpener, Token.isSymbolIn, Bool.and_eq_true, beq_iff_eq] at ho
    exact ho.1
  obtain ⟨A, hA⟩ := h.grains_front (by simp [hk])
  obtain ⟨W, hW⟩ := Grain.suffix_behind hB
  refine ⟨W, hW, ?_⟩
  cases W with
  | nil =>
    rw [hW] at hB
    exact absurd (Grain.length_behind hB) (lt_irrefl _)
  | cons a W =>
    refine .of_behind (Y := B) ?_ (hW ▸ hB)
    obtain ⟨rfl, -⟩ := List.cons.inj (hA.symm.trans hW)
    simpa [Grain.opens, Grain.token, Token.view, Token.word, hk, Token.isOpener,
      Token.isSymbolIn] using ho

/-- A group of brackets is passed over if the grains ahead start with one. -/
theorem exists_skipBalanced {A : List Grain} (ha : Grain.behind? 0 c.grains = some A) :
    ∃ c', skipBalanced c = .ok () c' ∧ c.Leads c' ∧ c'.grains = A := by
  rw [grains, Token.behind_grainsFrom] at ha
  obtain ⟨n, hn, -⟩ := Option.map_eq_some_iff.mp ha
  have hskip : skipBalanced c = .ok () (c.advance n) := by
    rw [skipBalanced, get_bind_eq_ok, hn]
    rfl
  refine ⟨_, hskip, h.sound.advance n, ?_⟩
  have := grains_skipBalanced hskip
  rw [grains, Token.behind_grainsFrom, ha] at this
  exact (Option.some.inj this).symm

end Reached

end Cursor

end SwiftMacros
