import Mathlib
import SwiftMacros.Proofs.Tree.Node
import SwiftMacros.Proofs.Cursor.Arranged

/-! Nodes and the tokens that they are read from. The tokens of a node are some that stand one behind
the other, and those of its children are taken from them in the same order. As tokens do not overlap,
so do nodes: the source of a child lies within that of its parent, and beside that of its siblings. -/

namespace SwiftMacros

/-- The offsets between which some tokens stand. -/
def Token.extent? : List Token → Option (Nat × Nat)
  | [] => none
  | t :: ts => some (t.start, (ts.getLast?.getD t).stop)

/-- The source from the first to the last of some tokens. -/
def Token.cover (s : Text) (ts : List Token) : Text :=
  ((Token.extent? ts).map fun (a, b) => Text.slice s a b).getD []

/-- Slices of a source one after the other between two offsets, without the white space behind them. -/
def Pieces (s : Text) : List Text → Nat → Nat → Prop
  | [], a, b => a ≤ b
  | p :: ps, a, b => ∃ i j, a ≤ i ∧ i ≤ j ∧ p = Text.trimEnd (Text.slice s i j) ∧ Pieces s ps j b

mutual

/-- The node is read from the tokens: it shows the source from the first of them to the last, and
nothing if there is none. Its children are read from some of them. The statements of a closure stand
between the tokens in front of its body and its closing brace. -/
inductive Node.Covers (s : Text) : Node → List Token → Prop
  | node {children : List Node} {ts : List Token} (place : Option (Nat × Nat)) :
      (∀ p ∈ place, Token.extent? ts = some p) → Node.Hold s children ts →
      Node.Covers s ⟨Token.cover s ts, place, children, []⟩ ts
  | closure {children : List Node} {pieces : List Text} {head body : List Token} {close : Token}
      {a b : Nat} : Node.Hold s children head → Token.extent? head = some (a, b) →
      Pieces s pieces b close.start →
      Node.Covers s ⟨Token.cover s (head ++ body ++ [close]), none, children, pieces⟩
        (head ++ body ++ [close])

/-- Each of the nodes is read from tokens of its own, one behind the other among the tokens. -/
inductive Node.Hold (s : Text) : List Node → List Token → Prop
  | nil (ts : List Token) : Node.Hold s [] ts
  | cons {n : Node} {ns : List Node} {us ts : List Token} (front : List Token) : Node.Covers s n us →
      Node.Hold s ns ts → Node.Hold s (n :: ns) (front ++ us ++ ts)

end

mutual

/-- The node shows the source between two offsets, which are its place if it knows one. Its children
do the same within it, one behind the other, and behind them stand its pieces. -/
inductive Node.Between (s : Text) : Node → Nat → Nat → Prop
  | node {place : Option (Nat × Nat)} {children : List Node} {pieces : List Text} {a b : Nat} (m : Nat) :
      a ≤ b → b ≤ s.length → (∀ p ∈ place, p = (a, b)) → Node.Within s children a m →
      Pieces s pieces m b → Node.Between s ⟨Text.slice s a b, place, children, pieces⟩ a b

/-- The nodes show disjoint parts of the source between two offsets, in their order. -/
inductive Node.Within (s : Text) : List Node → Nat → Nat → Prop
  | nil {a b : Nat} : a ≤ b → Node.Within s [] a b
  | cons {n : Node} {ns : List Node} {a i j b : Nat} : a ≤ i → Node.Between s n i j →
      Node.Within s ns j b → Node.Within s (n :: ns) a b

end

/-- Tokens that stand in the source one behind the other. -/
structure Token.Ordered (s : Text) (ts : List Token) : Prop where
  pairwise : ts.Pairwise fun t u => t.stop ≤ u.start
  inside : ∀ t ∈ ts, t.start < t.stop ∧ t.stop ≤ s.length ∧ t.text = Text.slice s t.start t.stop

section Tokens

variable {s : Text} {t : Token} {ts us : List Token} {a b : Nat}

theorem Token.Ordered.append_iff : Ordered s (ts ++ us) ↔
    Ordered s ts ∧ Ordered s us ∧ ∀ t ∈ ts, ∀ u ∈ us, t.stop ≤ u.start := by
  refine ⟨fun ⟨hp, hi⟩ => ?_, fun ⟨⟨hp, hi⟩, ⟨hp', hi'⟩, hle⟩ => ⟨?_, ?_⟩⟩
  · obtain ⟨hp, hp', hle⟩ := List.pairwise_append.mp hp
    exact ⟨⟨hp, fun t ht => hi t (by simp [ht])⟩, ⟨hp', fun t ht => hi t (by simp [ht])⟩, hle⟩
  · exact List.pairwise_append.mpr ⟨hp, hp', hle⟩
  · exact List.forall_mem_append.mpr ⟨hi, hi'⟩

/-- The first and the last of some tokens tell where they stand. -/
theorem Token.Ordered.bounds (h : Ordered s ts) (he : extent? ts = some (a, b)) :
    (∃ t ∈ ts, t.start = a) ∧ (∃ t ∈ ts, t.stop = b) ∧ ∀ t ∈ ts, a ≤ t.start ∧ t.stop ≤ b := by
  cases ts with
  | nil => cases he
  | cons t ts =>
    rw [extent?, Option.some.injEq, Prod.mk.injEq] at he
    obtain ⟨rfl, rfl⟩ := he
    obtain ⟨hpair, hinside⟩ := h
    have hfirst := (List.pairwise_cons.mp hpair).1
    refine ⟨⟨t, by simp, rfl⟩, ?_, fun u hu => ⟨?_, ?_⟩⟩
    · cases hlast : ts.getLast? with
      | none => exact ⟨t, by simp, rfl⟩
      | some u => exact ⟨u, List.mem_cons_of_mem _ (List.mem_of_getLast? hlast), rfl⟩
    · rcases List.mem_cons.mp hu with rfl | hu
      · exact le_rfl
      · exact (hinside t (by simp)).1.le.trans (hfirst u hu)
    · rcases List.eq_nil_or_concat ts with rfl | ⟨us, v, rfl⟩
      · rw [List.mem_singleton.mp hu]
        rfl
      · simp only [List.concat_eq_append, List.getLast?_concat, Option.getD_some] at *
        rw [← List.cons_append, List.pairwise_append] at hpair
        rw [← List.cons_append, List.mem_append, List.mem_singleton] at hu
        rcases hu with hu | rfl
        · exact (hpair.2.2 u hu v (by simp)).trans (hinside v (by simp)).1.le
        · exact le_rfl

theorem Token.extent?_eq_none (h : extent? ts = none) : ts = [] := by
  cases ts with
  | nil => rfl
  | cons t ts => cases h

theorem Token.cover_of_extent (h : extent? ts = some (a, b)) : cover s ts = Text.slice s a b := by
  rw [cover, h]
  rfl

end Tokens

section Pieces

variable {s : Text} {ps : List Text} {a b c : Nat}

theorem Pieces.mono (h : Pieces s ps a b) (hc : b ≤ c) :
    Pieces s ps a c := by
  induction ps generalizing a with
  | nil => exact le_trans (α := Nat) h hc
  | cons p ps ih =>
    obtain ⟨i, j, hi, hj, hp, hrest⟩ := h
    exact ⟨i, j, hi, hj, hp, ih hrest⟩

theorem Pieces.mono_left (hab : a ≤ b) (h : Pieces s ps b c) : Pieces s ps a c := by
  cases ps with
  | nil => exact le_trans (α := Nat) hab h
  | cons p ps =>
    obtain ⟨i, j, hi, hrest⟩ := h
    exact ⟨i, j, hab.trans hi, hrest⟩

end Pieces

namespace Node

variable {s : Text} {n : Node} {ns ms : List Node} {ts us : List Token}

theorem Hold.skip (front : List Token) (h : Hold s ns ts) : Hold s ns (front ++ ts) := by
  cases h with
  | nil => exact .nil _
  | cons front' hn hns =>
    rw [← List.append_assoc, ← List.append_assoc]
    exact .cons _ hn hns

theorem Hold.append (h : Hold s ns ts) (h' : Hold s ms us) : Hold s (ns ++ ms) (ts ++ us) := by
  induction ns generalizing ts with
  | nil => exact h'.skip ts
  | cons n ns ih =>
    cases h with
    | cons front hn hns =>
      rw [List.append_assoc]
      exact .cons front hn (ih hns)

theorem Covers.text_eq (h : Covers s n ts) :
    n.text = Token.cover s ts := by
  cases h with
  | node => rfl
  | closure => rfl

theorem Covers.hold (h : Covers s n ts) : Hold s [n] ts := by
  simpa using Hold.cons [] h (.nil [])

mutual

/-- A node shows the source between the first and the last of its tokens, and nothing of it anywhere
if it has none. -/
theorem Covers.between {n : Node} {ts : List Token} (h : Covers s n ts) (ho : Token.Ordered s ts) :
    (∀ a b, Token.extent? ts = some (a, b) → Between s n a b) ∧
      (ts = [] → ∀ a, a ≤ s.length → Between s n a a) := by
  cases h with
  | node place hplace hchildren =>
    refine ⟨fun a b he => ?_, fun hts a ha => ?_⟩
    · obtain ⟨⟨t, ht, rfl⟩, ⟨u, hu, rfl⟩, hall⟩ := ho.bounds he
      have hle : t.start ≤ u.stop := (hall u hu).1.trans (ho.inside u hu).1.le
      have hlength := (ho.inside u hu).2.1
      rw [Token.cover_of_extent he]
      refine .node u.stop hle hlength (fun p hp => ?_) (hchildren.within ho hle hlength hall) le_rfl
      exact Option.some.inj ((hplace p hp).symm.trans he)
    · subst hts
      have htext : Token.cover s [] = Text.slice s a a := by simp [Token.cover, Token.extent?, Text.slice]
      rw [htext]
      refine .node a le_rfl ha (fun p hp => ?_) (hchildren.within ho le_rfl ha (by simp)) le_rfl
      cases hplace p hp
  | @closure children pieces head body close i m hchildren hhead hpieces =>
    refine ⟨fun a b he => ?_, fun hts => by simp at hts⟩
    obtain ⟨hohead, -, -⟩ := Token.Ordered.append_iff.mp (Token.Ordered.append_iff.mp ho).1
    obtain ⟨-, ⟨u, hu, rfl⟩, hall'⟩ := hohead.bounds hhead
    obtain ⟨-, ⟨v, hv, rfl⟩, hall⟩ := ho.bounds he
    rw [Token.cover_of_extent he]
    have hu' := hall u (by simp [hu])
    have hclose := hall close (by simp)
    have hle := (hall v hv).1.trans (ho.inside v hv).1.le
    have hlength := (ho.inside v hv).2.1
    have hbody := (ho.inside u (by simp [hu])).1
    refine .node u.stop hle hlength (by simp) (hchildren.within hohead (by omega) (by omega) fun t ht => ?_)
      (hpieces.mono ((ho.inside close (by simp)).1.le.trans hclose.2))
    exact ⟨(hall t (by simp [ht])).1, (hall' t ht).2⟩

/-- Nodes that are read from tokens between two offsets stand there in their order. -/
theorem Hold.within {ns : List Node} {ts : List Token} (h : Hold s ns ts) (ho : Token.Ordered s ts)
    {a b : Nat} (hab : a ≤ b) (hb : b ≤ s.length) (hts : ∀ t ∈ ts, a ≤ t.start ∧ t.stop ≤ b) :
    Within s ns a b := by
  cases h with
  | nil => exact .nil hab
  | @cons n ns us ts front hn hns =>
    obtain ⟨ho', hots, hle⟩ := Token.Ordered.append_iff.mp ho
    obtain ⟨-, hous, -⟩ := Token.Ordered.append_iff.mp ho'
    cases he : Token.extent? us with
    | none =>
      obtain rfl := Token.extent?_eq_none he
      exact .cons le_rfl ((hn.between hous).2 rfl a (hab.trans hb))
        (hns.within hots hab hb fun t ht => hts t (by simp [ht]))
    | some p =>
      obtain ⟨⟨t, ht, hstart⟩, ⟨u, hu, hstop⟩, -⟩ := hous.bounds he
      have ht' := hts t (by simp [ht])
      have hu' := hts u (by simp [hu])
      refine .cons (hstart ▸ ht'.1) ((hn.between hous).1 p.1 p.2 he)
        (hns.within hots (hstop ▸ hu'.2) hb fun v hv => ⟨?_, (hts v (by simp [hv])).2⟩)
      rw [← hstop]
      exact hle u (by simp [hu]) v hv

end

end Node

end SwiftMacros
