import Mathlib
import SwiftMacros.Proofs.Cursor.Retrace
import SwiftMacros.Proofs.Parser.Paired

/-! Parsers that answer alike where the same grains are ahead. What stands behind the grains that are
taken can differ, as long as a parser that looks at it is told the same. So two conditions go with a
parser: one on what is behind its grains, and one that is met in front of them then, for the parser
that has read up to there. -/

namespace SwiftMacros

/-- A symbol is taken as one grain. -/
theorem Cursor.Reached.whole_of_reads {c : Cursor} (h : c.Reached) {m : Char}
    (hm : Token.isSymbolChar m = true) (hr : c.peek.reads [m] = true) :
    c.peek.Whole ∧ c.peek.word = (.symbol, [m]) := by
  have hk := h.sound.kind_of_reads hm hr
  simp only [Token.reads, Bool.and_eq_true, beq_iff_eq] at hr
  exact ⟨Token.whole_of_kind (by simp [hk]) (by simp [hk]), by rw [Token.word, hk, hr.1.1]⟩

namespace Parser

open Token (Told isMarkChar isSymbolChar)
open Grain (Alike Ahead)

variable {α β σ : Type}

/-- From `c`, the parser answers with `a`, and leaves the grains `Y` ahead. -/
def Answers (p : Parser α) (c : Cursor) (a : α) (Y : List Grain) : Prop :=
  ∃ c', p c = .ok a c' ∧ c.Leads c' ∧ c'.grains = Y

/-- What `p` answers with at `c`, having taken less than `k` grains and no opening brace, is the answer of
`q o'` at any `c'` with `Q o' c'` that has the same grains ahead up to `B`, and behind them what `E` asks
for. In front of them there is what `S` asks for. -/
def Follows (Q : Cursor → Cursor → Prop) (B : List Grain → List Grain → Prop) (k : Nat)
    (S : List Grain → List Grain → Prop) (p : Parser α) (q : Cursor → Parser α)
    (E : α → List Grain → List Grain → Prop) (c : Cursor) : Prop :=
  ∀ a c₁, p c = .ok a c₁ → c.Leads c₁ ∧ ∀ W, c.grains = W ++ c₁.grains → Grain.Unbraced W → ∀ W', B W W' →
    (∀ Y, E a c₁.grains Y → S c.grains (W' ++ Y)) ∧
    (W.length < k → ∀ o' c' Y, Q o' c' → c'.grains = W' ++ Y → E a c₁.grains Y →
      Answers (q o') c' a Y)

/-- `q` answers as `p` does, where the grains between `o` and `c` have been taken before. -/
abbrev Resumes (k : Nat) (S : List Grain → List Grain → Prop) (p : Parser α) (q : Cursor → Parser α)
    (E : α → List Grain → List Grain → Prop) (o c : Cursor) : Prop :=
  Follows (Cursor.Retrace o c) Eq k S p q E c

/-- `q` answers as `p` does, whatever the gap before the first grain. -/
abbrev Replays (k : Nat) (S : List Grain → List Grain → Prop) (p : Parser α) (q : Cursor → Parser α)
    (E : α → List Grain → List Grain → Prop) (c : Cursor) : Prop :=
  Follows (fun o' c' => o' = c' ∧ c'.Braceless) Alike k S p q E c

/-- If the parser answers from `c`, it takes a grain. -/
def Takes (p : Parser α) (c : Cursor) : Prop :=
  ∀ a c₁, p c = .ok a c₁ → c.Leads c₁ ∧ c₁.grains.length < c.grains.length

namespace Takes

variable {p q : Parser α} {f : α → Parser β} {c : Cursor}

/-- Reading past the start of a token takes a grain. -/
theorem of_spec {R : α → Cursor → Prop} (hc : c.Reached) (h : Spec p c R)
    (hlt : ∀ a c₁, R a c₁ → c.peek.start < c₁.edge) : Takes p c := by
  intro a c₁ ha
  obtain ⟨hl, hR⟩ := h.ok ha
  exact ⟨hl, hc.grains_lt hl (hlt a c₁ hR)⟩

theorem bind (hc : c.Reached) (h : Takes p c) (hf : ∀ a (c' : Cursor), c'.Reached → Paired (f a) c') :
    Takes (p >>= f) c := by
  intro b c₂ hb
  obtain ⟨a, c₁, ha, hb⟩ := of_bind_ok hb
  obtain ⟨hl, hlt⟩ := h a c₁ ha
  have hc₁ := hc.lead hl
  have hl' := (hf a c₁ hc₁ b c₂ hb).leads
  exact ⟨hl.trans hl', (hc₁.length_le hl').trans_lt hlt⟩

theorem after (hc : c.Reached) (h : Paired p c) (hf : ∀ a (c' : Cursor), c'.Reached → Takes (f a) c') :
    Takes (p >>= f) c := by
  intro b c₂ hb
  obtain ⟨a, c₁, ha, hb⟩ := of_bind_ok hb
  have hl := (h a c₁ ha).leads
  obtain ⟨hl', hlt⟩ := hf a c₁ (hc.lead hl) b c₂ hb
  exact ⟨hl.trans hl', hlt.trans_le (hc.length_le hl)⟩

theorem skip (hc : c.Reached) (hw : c.peek.Whole) (n : Nat) : Takes (skip (n + 1)) c := by
  intro u c₁ h
  obtain rfl := skip_eq_ok.mp h
  obtain ⟨x, hx, -⟩ := hc.grains_whole hw
  have hl := hc.sound.advance 1
  have := (hc.lead hl).length_le (hl.sound.advance n)
  refine ⟨hc.sound.advance _, ?_⟩
  rw [Nat.add_comm, Cursor.advance_add, hx, List.length_cons]
  omega

theorem mark (hc : c.Reached) {m : Char} (hm : isMarkChar m = true)
    (hv : c.peek.view = (.operator, [m])) : Takes (consumePart 1) c := by
  intro t c₁ h
  obtain ⟨hl, -, -, x, hx, -⟩ := hc.grains_mark hm hv
  obtain ⟨-, rfl⟩ := consumePart_eq_ok.mp h
  exact ⟨hl, by rw [hx, List.length_cons]; omega⟩

theorem current_bind {f : Token → Parser β} (h : Takes (f c.peek) c) : Takes (current >>= f) c := h

theorem ite {b : Prop} [Decidable b] (hp : b → Takes p c) (hq : ¬ b → Takes q c) :
    Takes (if b then p else q) c := by
  split
  · exact hp ‹_›
  · exact hq ‹_›

/-- A loop whose items take a grain each has room for all of them. -/
theorem collectWhile_eq_ok {T : Cursor → Bool} {item : Parser α}
    (ht : ∀ c : Cursor, c.Reached → T c = true → Takes item c) (hc : c.Reached) (hT : T c = true)
    {as : List α} {c' : Cursor} : collectWhile T item c = .ok as c' ↔
      (item >>= fun a => collectWhile T item >>= fun as => pure (a :: as)) c = .ok as c' := by
  have hitem : ∀ (c : Cursor) o c', (get >>= fun c => if T c = true then item >>= fun a =>
      pure (some a) else pure none) c = .ok o c' ↔
        (T c = true ∧ ∃ a, o = some a ∧ item c = .ok a c') ∨ T c = false ∧ o = none ∧ c = c' := by
    intro c o c'
    rw [get_bind_eq_ok, ite_eq_ok, pure_eq_ok, Bool.not_eq_true, eq_comm (a := none)]
    simp only [bind_eq_ok, pure_eq_ok]
    refine or_congr_left (and_congr_right fun _ => ?_)
    exact ⟨fun ⟨a, c₁, h, ho, hc⟩ => ⟨a, ho.symm, hc ▸ h⟩, fun ⟨a, ho, h⟩ => ⟨a, c', h, ho.symm, rfl⟩⟩
  have hlen : ∀ {c c' : Cursor} {as : List α}, Rounds (get >>= fun c => if T c = true then item >>=
      fun a => pure (some a) else pure none) c as c' → c.Reached → as.length ≤ c.grains.length := by
    intro c c' as hr
    induction hr with
    | stop ho => exact fun _ => Nat.zero_le _
    | round ho _ ih =>
      intro hc
      obtain ⟨hm, a, ha, hi⟩ := ((hitem _ _ _).mp ho).resolve_right fun h => by cases h.2.1
      obtain ⟨hl, hlt⟩ := ht _ hc hm _ _ hi
      exact Nat.succ_le_of_lt ((ih (hc.lead hl)).trans_lt hlt)
  have hloop : ∀ {c c' : Cursor} {as : List α}, c.Reached → (collectWhile T item c = .ok as c' ↔
      Rounds (get >>= fun c => if T c = true then item >>= fun a => pure (some a) else pure none)
        c as c') := fun hc =>
    ⟨fun h => (collect_eq_ok.mp h).1,
      fun h => collect_eq_ok.mpr ⟨h, (hlen h hc).trans hc.length_le_room⟩⟩
  rw [hloop hc]
  constructor
  · intro hr
    cases hr with
    | stop ho =>
      have := (hitem _ _ _).mp ho
      simp [hT] at this
    | round ho hr =>
      obtain ⟨-, a, ha, hi⟩ := ((hitem _ _ _).mp ho).resolve_right fun h => by cases h.2.1
      cases ha
      exact (bind_of_ok hi).trans (bind_of_ok ((hloop (hc.lead (ht _ hc hT _ _ hi).1)).mpr hr))
  · intro h
    obtain ⟨a, c₁, hi, h⟩ := of_bind_ok h
    obtain ⟨as, c₂, has, h⟩ := of_bind_ok h
    obtain ⟨rfl, rfl⟩ := pure_eq_ok.mp h
    exact .round ((hitem _ _ _).mpr (.inl ⟨hT, a, rfl, hi⟩))
      ((hloop (hc.lead (ht _ hc hT _ _ hi).1)).mp has)

end Takes

theorem sliceFrom_congr {t u : Token} (h : t.start = u.start) : sliceFrom t = sliceFrom u := by
  simp only [sliceFrom, Cursor.sliceFrom, h]

section Answers

variable {p q : Parser α} {f : α → Parser β} {c c₁ : Cursor} {a : α} {b : β} {Y Z : List Grain}

theorem Answers.pure (hc : c.Sound) (hY : c.grains = Y) : Answers (pure a) c a Y := ⟨c, rfl, hc.refl, hY⟩

theorem Answers.bind (h : Answers p c a Z)
    (hf : ∀ c', c.Leads c' → c'.grains = Z → Answers (f a) c' b Y) : Answers (p >>= f) c b Y := by
  obtain ⟨c', hp, hl, hZ⟩ := h
  obtain ⟨c₂, hq, hl', hY⟩ := hf c' hl hZ
  exact ⟨c₂, (bind_of_ok hp).trans hq, hl.trans hl', hY⟩

/-- A parser that moves the cursor first. -/
theorem Answers.move (hl : c.Leads c₁) (hq : q c = p c₁) (h : Answers p c₁ a Y) : Answers q c a Y := by
  obtain ⟨c', hp, hl', hY⟩ := h
  exact ⟨c', hq.trans hp, hl.trans hl', hY⟩

end Answers

namespace Follows

variable {Q : Cursor → Cursor → Prop} {B : List Grain → List Grain → Prop} {k : Nat}
  {S S' : List Grain → List Grain → Prop} {p p' : Parser α} {q q' : Cursor → Parser α}
  {E E' : α → List Grain → List Grain → Prop} {F : β → List Grain → List Grain → Prop} {c : Cursor}

theorem fail {w : Wanted} : Follows Q B k S (fail w) q E c := fun _ _ h => by cases h

theorem pre (h : Follows Q B k S p q E c) (hS : ∀ Y, S c.grains Y → S' c.grains Y) :
    Follows Q B k S' p q E c := fun a c₁ hp =>
  ⟨(h a c₁ hp).1, fun W hW hnone W' hB => ⟨fun Y hY => hS _ (((h a c₁ hp).2 W hW hnone W' hB).1 Y hY),
    ((h a c₁ hp).2 W hW hnone W' hB).2⟩⟩

theorem post (h : Follows Q B k S p q E c) (hE : ∀ a A Y, E' a A Y → E a A Y) :
    Follows Q B k S p q E' c := fun a c₁ hp =>
  ⟨(h a c₁ hp).1, fun W hW hnone W' hB => ⟨fun Y hY => ((h a c₁ hp).2 W hW hnone W' hB).1 Y (hE _ _ _ hY),
    fun hk o' c' Y hr hY hE' => ((h a c₁ hp).2 W hW hnone W' hB).2 hk o' c' Y hr hY (hE _ _ _ hE')⟩⟩

theorem le {n : Nat} (h : Follows Q B k S p q E c) (hn : n ≤ k) : Follows Q B n S p q E c :=
  fun a c₁ hp => ⟨(h a c₁ hp).1, fun W hW hnone W' hB => ⟨((h a c₁ hp).2 W hW hnone W' hB).1,
    fun hk => ((h a c₁ hp).2 W hW hnone W' hB).2 (hk.trans_le hn)⟩⟩

/-- The parsers can be told in another way where they stand. -/
theorem imp (h : Follows Q B k S p q E c) (hp : ∀ a c₁, p' c = .ok a c₁ → p c = .ok a c₁)
    (hq : ∀ o' c' a c₁, Q o' c' → S c.grains c'.grains → q o' c' = .ok a c₁ → q' o' c' = .ok a c₁) :
    Follows Q B k S p' q' E c := by
  intro a c₁ ha
  obtain ⟨hl, h⟩ := h a c₁ (hp a c₁ ha)
  refine ⟨hl, fun W hW hnone W' hB => ⟨(h W hW hnone W' hB).1, fun hk o' c' Y hr hY hE => ?_⟩⟩
  obtain ⟨c₂, ha, hrest⟩ := (h W hW hnone W' hB).2 hk o' c' Y hr hY hE
  exact ⟨c₂, hq o' c' a c₂ hr (hY ▸ (h W hW hnone W' hB).1 Y hE) ha, hrest⟩

theorem right (h : Follows Q B k S p q E c)
    (hq : ∀ o' c', Q o' c' → S c.grains c'.grains → q' o' c' = q o' c') :
    Follows Q B k S p q' E c :=
  h.imp (fun _ _ => id) fun o' c' _ _ hr hS ha => (hq o' c' hr hS).trans ha

theorem left (h : Follows Q B k S p q E c) (hp : p' c = p c) : Follows Q B k S p' q E c :=
  h.imp (fun _ _ ha => hp.symm.trans ha) fun _ _ _ _ _ _ => id

/-- Both parsers look at the cursor, and are told the same. -/
theorem get_bind {f : Cursor → Parser α} {g : Cursor → Cursor → Parser α}
    (hg : ∀ o' c', Q o' c' → S c.grains c'.grains → g o' c' = q o')
    (h : Follows Q B k S (f c) q E c) :
    Follows Q B k S (get >>= f) (fun o' => get >>= g o') E c :=
  right h fun o' c' hr hS => congrFun (hg o' c' hr hS) c'

theorem current_bind {f : Token → Parser α} {g : Cursor → Token → Parser α}
    (hg : ∀ o' c', Q o' c' → S c.grains c'.grains → g o' c'.peek = q o')
    (h : Follows Q B k S (f c.peek) q E c) :
    Follows Q B k S (current >>= f) (fun o' => current >>= g o') E c :=
  right h fun o' c' hr hS => congrFun (hg o' c' hr hS) c'

theorem pos {b : Prop} [Decidable b] (hb : b) (h : Follows Q B k S p q E c) :
    Follows Q B k S (if b then p else p') q E c := by rwa [if_pos hb]

theorem neg {b : Prop} [Decidable b] (hb : ¬ b) (h : Follows Q B k S p' q E c) :
    Follows Q B k S (if b then p else p') q E c := by rwa [if_neg hb]

end Follows

namespace Resumes

variable {k : Nat} {S S₁ : List Grain → List Grain → Prop} {p : Parser α} {q : Cursor → Parser α}
  {E : α → List Grain → List Grain → Prop} {F : β → List Grain → List Grain → Prop} {o c : Cursor}

theorem pure (hc : c.Reached) {a : α} : Resumes k (E a) (Pure.pure a) (fun _ => Pure.pure a) E o c := by
  intro a' c₁ h
  obtain ⟨rfl, rfl⟩ := pure_eq_ok.mp h
  refine ⟨hc.sound.refl, ?_⟩
  rintro W hW hnone _ rfl
  obtain rfl : W = [] := by simpa using hW
  exact ⟨fun Y hY => hY, fun _ o' c' Y hr hY _ => .pure hr.braceless.sound hY⟩

theorem bind (hc : c.Reached) {f : α → Parser β} {g : Cursor → α → Parser β} (h : Resumes k S p q E o c)
    (hf : ∀ a c₁, p c = .ok a c₁ → c₁.Reached → Resumes k (E a) (f a) (fun o' => g o' a) F o c₁) :
    Resumes k S (p >>= f) (fun o' => q o' >>= g o') F o c := by
  intro b c₂ hb
  obtain ⟨a, c₁, ha, hb⟩ := of_bind_ok hb
  obtain ⟨hl, h⟩ := h a c₁ ha
  have hc₁ := hc.lead hl
  obtain ⟨hl', hf⟩ := hf a c₁ ha hc₁ b c₂ hb
  obtain ⟨V, hV⟩ := hc.taken hl
  obtain ⟨U, hU⟩ := hc₁.taken hl'
  refine ⟨hl.trans hl', ?_⟩
  rintro W hW hnone _ rfl
  obtain rfl : W = V ++ U := List.append_cancel_right (by rw [← hW, hV, hU, List.append_assoc])
  obtain ⟨hS, h⟩ := h V hV hnone.left V rfl
  obtain ⟨hE, hf⟩ := hf U hU hnone.right U rfl
  refine ⟨fun Y hY => by simpa using hS _ (hE Y hY), fun hk o' c' Y hr hY hF => ?_⟩
  rw [List.length_append] at hk
  refine (h (by omega) o' c' (U ++ Y) hr (by rw [hY, List.append_assoc]) (hE Y hF)).bind
    fun c₁' hl₁ hY₁ => hf (by omega) o' c₁' Y ?_ hY₁ hF
  exact hr.step hl hl₁ hV (by rw [hY, hY₁, List.append_assoc])

/-- A part of the source is kept in the answer. -/
theorem sliceFrom_bind {f : Text → Parser α} {g : Cursor → Text → Parser α}
    (h : Resumes k S (f (c.sliceFrom o.peek)) (fun o' => g o' (c.sliceFrom o.peek)) E o c) :
    Resumes k S (sliceFrom o.peek >>= f) (fun o' => sliceFrom o'.peek >>= g o') E o c :=
  Follows.right h fun o' c' hr _ => by
    show g o' (c'.sliceFrom o'.peek) c' = g o' (c.sliceFrom o.peek) c'
    rw [hr.slice]

theorem slice (hc : c.Reached) {E : Text → List Grain → List Grain → Prop} :
    Resumes k (E (c.sliceFrom o.peek)) (sliceFrom o.peek) (fun o' => sliceFrom o'.peek) E o c :=
  sliceFrom_bind (pure hc)

theorem keep (hc : c.Reached) {f : Text → α} : Resumes k (E (f (c.sliceFrom o.peek)))
    (sliceFrom o.peek >>= fun x => Pure.pure (f x)) (fun o' => sliceFrom o'.peek >>= fun x => Pure.pure (f x))
    E o c :=
  sliceFrom_bind (pure hc)

/-- A token that is a grain is taken. -/
theorem skip_bind (hc : c.Reached) (hw : c.peek.Whole) {f : Unit → Parser α}
    (h : (c.advance 1).Reached → Resumes k S (f ()) q E o (c.advance 1)) :
    Resumes k (Ahead S) (skip 1 >>= f) (fun o' => skip 1 >>= fun _ => q o') E o c := by
  intro a c₁ ha
  have hl := hc.sound.advance 1
  have hc₁ := hc.lead hl
  obtain ⟨hl', h⟩ := h hc₁ a c₁ (skip_bind_eq_ok.mp ha)
  obtain ⟨x, hx, -, hmark⟩ := hc.grains_whole hw
  obtain ⟨U, hU⟩ := hc₁.taken hl'
  refine ⟨hl.trans hl', ?_⟩
  rintro W hW hnone _ rfl
  obtain rfl : W = x :: U := List.append_cancel_right (by rw [← hW, hx, hU, List.cons_append])
  obtain ⟨hS, h⟩ := h U hU hnone.tail U rfl
  refine ⟨fun Y hY => ⟨x, _, _, hx, rfl, hS Y hY⟩, fun hk o' c' Y hr hY hE => ?_⟩
  have hnext := (hr.braceless.reached.next hY hmark).2
  have hl₁ := hr.braceless.sound.advance 1
  exact .move hl₁ rfl (h (Nat.lt_of_succ_lt hk) o' _ Y
    (hr.step (W := [x]) hl hl₁ hx (by rw [hnext]; exact hY)) hnext hE)

/-- Two tokens that are grains are taken. -/
theorem skip_two_bind (hc : c.Reached) (hw : c.peek.Whole) (hw' : (c.peek 1).Whole) {f : Unit → Parser α}
    (h : (c.advance 2).Reached → Resumes k S (f ()) q E o (c.advance 2)) :
    Resumes k (Ahead (Ahead S)) (skip 2 >>= f) (fun o' => skip 2 >>= fun _ => q o') E o c := by
  have htwo : ∀ (c : Cursor) (p : Parser α),
      (skip 2 >>= fun _ => p) c = (skip 1 >>= fun _ => skip 1 >>= fun _ => p) c := by
    intro c p
    show p (c.advance 2) = p ((c.advance 1).advance 1)
    rw [← Cursor.advance_add]
  refine Follows.right (Follows.left (p := skip 1 >>= fun _ => skip 1 >>= f) (skip_bind hc hw fun hc₁ =>
    skip_bind hc₁ (by rwa [Cursor.peek_advance]) fun hc₂ => ?_) (htwo c (f ()))) fun o' c' _ _ => htwo c' _
  rw [← Cursor.advance_add] at hc₂ ⊢
  exact h hc₂

theorem skip (hc : c.Reached) (hw : c.peek.Whole) {E : Unit → List Grain → List Grain → Prop} :
    Resumes k (Ahead (E ())) (Parser.skip 1) (fun _ => Parser.skip 1) E o c :=
  Follows.right (Follows.left (skip_bind (f := Pure.pure) hc hw fun hc₁ => pure hc₁)
    (congrFun (bind_pure (Parser.skip 1)).symm c)) fun _ c' _ _ => congrFun (bind_pure (Parser.skip 1)).symm c'

/-- A mark is taken. -/
theorem mark_bind (hc : c.Reached) {m : Char} (hm : isMarkChar m = true)
    (hv : c.peek.view = (.operator, [m])) {f : Token → Parser α} {g : Cursor → Token → Parser α}
    (hg : ∀ o' (t : Token), t.text = [m] → g o' t = q o')
    (h : ∀ t : Token, t.text = [m] → ((c.splitOperator 1).advance 1).Reached →
      Resumes k S (f t) q E o ((c.splitOperator 1).advance 1)) :
    Resumes k (Ahead S) (consumePart 1 >>= f) (fun o' => consumePart 1 >>= g o') E o c := by
  intro a c₁ ha
  obtain ⟨hl, htext, -, x, hx, hword⟩ := hc.grains_mark hm hv
  have hc₁ := hc.lead hl
  obtain ⟨hl', h⟩ := h _ htext hc₁ a c₁ (consumePart_bind_eq_ok.mp ha)
  obtain ⟨U, hU⟩ := hc₁.taken hl'
  refine ⟨hl.trans hl', ?_⟩
  rintro W hW hnone _ rfl
  obtain rfl : W = x :: U := List.append_cancel_right (by rw [← hW, hx, hU, List.cons_append])
  obtain ⟨hS, h⟩ := h U hU hnone.tail U rfl
  refine ⟨fun Y hY => ⟨x, _, _, hx, rfl, hS Y hY⟩, fun hk o' c' Y hr hY hE => ?_⟩
  have hv' : c'.peek.view = (.operator, [m]) := by
    rw [hr.braceless.reached.view_peek, hY]
    exact hword
  obtain ⟨hl₁, htext', -, y, hy, -⟩ := hr.braceless.reached.grains_mark hm hv'
  obtain ⟨rfl, hnext⟩ := List.cons.inj (hy.symm.trans hY)
  exact .move hl₁ (congrFun (hg o' _ htext') _)
    (h (Nat.lt_of_succ_lt hk) o' _ Y (hr.step (W := [y]) hl hl₁ hx hy) hnext hE)

/-- A symbol is asked for. -/
theorem expect_bind (hc : c.Reached) {m : Char} (hm : isSymbolChar m = true)
    (h : (c.advance 1).Reached → Resumes k S p q E o (c.advance 1)) :
    Resumes k (fun A B => Grain.lead A = (.symbol, [m]) ∧ Ahead S A B) (expect [m] >>= fun _ => p)
      (fun o' => expect [m] >>= fun _ => q o') E o c := by
  by_cases hr : c.peek.reads [m] = true
  · obtain ⟨hw, hword⟩ := hc.whole_of_reads hm hr
    refine Follows.right (Follows.left (Follows.pre (skip_bind (f := fun _ => p) hc hw h)
      fun Y hY => ⟨?_, hY⟩) ?_) fun o' c' hr' hS => ?_
    · rw [← hc.view_peek, hw.view, hword]
    · exact bind_of_ok (expect_eq_ok.mpr ⟨hr, rfl, rfl⟩)
    · have hword := (hc.whole hr'.braceless.reached hw hS.2.lead).1
      exact bind_of_ok (expect_eq_ok.mpr ⟨(Token.reads_congr hword).trans hr, rfl, rfl⟩)
  · exact fun a c₁ ha => absurd (expect_bind_eq_ok.mp ha).1 hr

/-- A mark is asked for. -/
theorem operator_bind (hc : c.Reached) {m : Char} (hm : isMarkChar m = true)
    (h : ((c.splitOperator 1).advance 1).Reached →
      Resumes k S p q E o ((c.splitOperator 1).advance 1)) :
    Resumes k (fun A B => Grain.lead A = (.operator, [m]) ∧ Ahead S A B)
      (consumeOperator (String.singleton m) >>= fun _ => p)
      (fun o' => consumeOperator (String.singleton m) >>= fun _ => q o') E o c := by
  have hpart : ∀ {c : Cursor} {p : Parser α}, c.peek.isOperatorWith (String.singleton m) = true →
      (consumeOperator (String.singleton m) >>= fun _ => p) c = (consumePart 1 >>= fun _ => p) c := by
    intro c p hop
    show ((if c.peek.isOperatorWith (String.singleton m) = true then
      consumePart (String.singleton m).length else _) >>= fun _ => p) c = _
    rw [if_pos hop, String.length_singleton]
  by_cases hop : c.peek.isOperatorWith (String.singleton m) = true
  · have hv := (Token.isOperatorWith_iff hm).mp hop
    refine Follows.right (Follows.left (Follows.pre (mark_bind (f := fun _ => p) (g := fun o' _ => q o')
      hc hm hv (fun _ _ _ => rfl) fun _ _ => h) fun Y hY => ⟨?_, hY⟩) (hpart hop))
      fun o' c' hr hS => hpart ?_
    · rw [← hc.view_peek, hv]
    · rw [Token.isOperatorWith_iff hm, hr.braceless.reached.view_peek, hS.2.lead, hS.1]
  · exact fun a c₁ ha => absurd (consumeOperator_bind_eq_ok.mp ha).1 hop

theorem of_replays {p' : Parser α} (h : Replays k S p (fun _ => p') E c) :
    Resumes k S p (fun _ => p') E o c := by
  intro a c₁ ha
  obtain ⟨hl, h⟩ := h a c₁ ha
  refine ⟨hl, ?_⟩
  rintro W hW hnone _ rfl
  obtain ⟨hS, h⟩ := h W hW hnone W (.refl W)
  exact ⟨hS, fun hk o' c' Y hr hY hE => h hk c' c' Y ⟨rfl, hr.braceless⟩ hY hE⟩

/-- A part that is read or not, and what comes behind. -/
theorem optional (hc : c.Reached) {b : Cursor → Bool} {p p' : Parser β} {f : β → Parser α} {x : β}
    {g : Cursor → β → Parser α}
    (hp : b c = true → Resumes k (Ahead fun _ _ => True) p (fun _ => p') (fun _ => S) o c)
    (hpos : ∀ c' : Cursor, c'.Braceless → Ahead (fun _ _ => True) c.grains c'.grains → b c' = b c)
    (hneg : ∀ c' : Cursor, c'.Braceless → S c.grains c'.grains → b c' = false)
    (hf : ∀ x (c₁ : Cursor), c₁.Reached → Resumes k S (f x) (fun o' => g o' x) E o c₁) :
    Resumes k (fun _ _ => True) (get >>= fun c => if b c = true then p >>= f else f x)
      (fun o' => get >>= fun c => if b c = true then p' >>= g o' else g o' x) E o c := by
  by_cases hb : b c = true
  · refine Follows.pre (S := Ahead fun _ _ => True) (.get_bind (fun o' c' hr hS => if_pos ?_) (.pos hb
      (bind hc (hp hb) fun x c₁ _ hc₁ => hf x c₁ hc₁))) fun _ _ => trivial
    rw [hpos c' hr.braceless hS, hb]
  · refine Follows.pre (.get_bind (fun o' c' hr hS => if_neg ?_) (.neg hb (hf x c hc))) fun _ _ => trivial
    rw [hneg c' hr.braceless hS]
    exact Bool.false_ne_true

/-- What takes a grain starts with the same grain in both places. -/
theorem ahead (ht : Takes p c) (h : Resumes k S p q E o c) :
    Resumes k (Ahead fun _ _ => True) p q E o c := by
  intro a c₁ ha
  obtain ⟨hl, h⟩ := h a c₁ ha
  refine ⟨hl, ?_⟩
  rintro W hW hnone _ rfl
  refine ⟨fun Y _ => ?_, (h W hW hnone W rfl).2⟩
  cases W with
  | nil => exact absurd (ht a c₁ ha).2 (by rw [hW]; exact lt_irrefl _)
  | cons x W => exact ⟨x, _, _, hW, rfl, trivial⟩

/-- A group of brackets is passed over. -/
theorem skipBalanced (hc : c.Reached) {E : Unit → List Grain → List Grain → Prop} :
    Resumes k (Ahead fun _ _ => True) skipBalanced (fun _ => skipBalanced) E o c := by
  intro u c₁ hu
  have hbehind := Cursor.grains_skipBalanced hu
  refine ⟨((Spec.skipBalanced hc.sound).lead.ok hu).1, ?_⟩
  rintro W hW hnone _ rfl
  rw [hW] at hbehind
  constructor
  · intro Y _
    cases W with
    | nil => exact absurd (Grain.length_behind hbehind) (lt_irrefl _)
    | cons x W => exact ⟨x, _, _, hW, rfl, trivial⟩
  · intro _ o' c' Y hr hY _
    obtain ⟨c₁', hskip, hl', hY'⟩ := hr.braceless.reached.exists_skipBalanced (A := Y)
      (by rw [hY]; exact Grain.behind_append hbehind Y)
    exact ⟨c₁', hskip, hl', hY'⟩

section Loops

variable {G : List Grain → List Grain → Prop}

/-- Items are collected; behind each there is either one more or what `G` asks for. -/
theorem collect {item : Parser (Option α)} {q : Cursor → Parser (Option α)}
    (ht : ∀ (c : Cursor) a c₁, c.Reached → item c = .ok (some a) c₁ →
      c₁.grains.length < c.grains.length) (hc : c.Reached)
    (h : ∀ c : Cursor, c.Reached → Resumes k S item q (fun a => a.elim G fun _ => S) o c) :
    Resumes k S (collect item) (fun o' => collect (q o')) (fun _ => G) o c := by
  intro as c₁ has
  have hrounds : ∀ {c : Cursor} {as : List α} {c₁ : Cursor}, Rounds item c as c₁ → c.Reached →
      c.Leads c₁ ∧ ∀ W, c.grains = W ++ c₁.grains → Grain.Unbraced W → as.length ≤ W.length ∧
        (∀ Y, G c₁.grains Y → S c.grains (W ++ Y)) ∧
        (W.length < k → ∀ o' c' Y, Cursor.Retrace o c o' c' → c'.grains = W ++ Y → G c₁.grains Y →
          ∃ c₁', Rounds (q o') c' as c₁' ∧ c'.Leads c₁' ∧ c₁'.grains = Y) := by
    intro c as c₁ hr
    induction hr with
    | stop ho =>
      intro hc
      obtain ⟨hl, h⟩ := h _ hc _ _ ho
      refine ⟨hl, fun W hW hnone => ⟨Nat.zero_le _, (h W hW hnone W rfl).1, fun hk o' c' Y hr hY hG => ?_⟩⟩
      obtain ⟨c₁', ha, hl', hY'⟩ := (h W hW hnone W rfl).2 hk o' c' Y hr hY hG
      exact ⟨c₁', .stop ha, hl', hY'⟩
    | @round c c₂ c₁ a as ho hrounds ih =>
      intro hc
      obtain ⟨hl, h⟩ := h _ hc _ _ ho
      have hc₂ := hc.lead hl
      obtain ⟨hl', ih⟩ := ih hc₂
      obtain ⟨V, hV⟩ := hc.taken hl
      obtain ⟨U, hU⟩ := hc₂.taken hl'
      refine ⟨hl.trans hl', fun W hW hnone => ?_⟩
      obtain rfl : W = V ++ U := List.append_cancel_right (by rw [← hW, hV, hU, List.append_assoc])
      obtain ⟨hS, h⟩ := h V hV hnone.left V rfl
      obtain ⟨hlen, hS', ih⟩ := ih U hU hnone.right
      have hV₁ := ht c a c₂ hc ho
      rw [hV, List.length_append] at hV₁
      refine ⟨by simp only [List.length_cons, List.length_append]; omega,
        fun Y hY => by simpa using hS _ (hS' Y hY), fun hk o' c' Y hr hY hG => ?_⟩
      rw [List.length_append] at hk
      obtain ⟨c₂', ha, hl₁, hY₁⟩ := h (by omega) o' c' (U ++ Y) hr (by rw [hY, List.append_assoc])
        (hS' Y hG)
      obtain ⟨c₁', has, hl₂, hY₂⟩ := ih (by omega) o' c₂' Y
        (hr.step hl hl₁ hV (by rw [hY, hY₁, List.append_assoc])) hY₁ hG
      exact ⟨c₁', .round ha has, hl₁.trans hl₂, hY₂⟩
  obtain ⟨hl, hrounds⟩ := hrounds (collect_eq_ok.mp has).1 hc
  refine ⟨hl, ?_⟩
  rintro W hW hnone _ rfl
  obtain ⟨hlen, hS, hrounds⟩ := hrounds W hW hnone
  refine ⟨hS, fun hk o' c' Y hr hY hG => ?_⟩
  obtain ⟨c₁', has, hl', hY'⟩ := hrounds hk o' c' Y hr hY hG
  have hroom := hr.braceless.reached.length_le_room
  rw [hY, List.length_append] at hroom
  exact ⟨c₁', collect_eq_ok.mpr ⟨has, by omega⟩, hl', hY'⟩

/-- A value is changed step by step; behind each step there is either one more or what `G` asks for. -/
theorem extend {step : σ → Parser (Option σ)} {q : Cursor → σ → Parser (Option σ)} {s : σ}
    {x : Cursor → σ} (hx : ∀ o' c', Cursor.Retrace o c o' c' → x o' = s)
    (ht : ∀ s (c : Cursor) s₁ c₁, c.Reached → step s c = .ok (some s₁) c₁ →
      c₁.grains.length < c.grains.length) (hc : c.Reached)
    (h : ∀ s (c : Cursor), c.Reached →
      Resumes k S (step s) (fun o' => q o' s) (fun a => a.elim G fun _ => S) o c) :
    Resumes k S (extend step s) (fun o' => extend (q o') (x o')) (fun _ => G) o c := by
  intro s' c₁ hs
  have hsteps : ∀ {n : Nat} {s : σ} {c : Cursor} {s' : σ} {c₁ : Cursor}, Steps step n s c s' c₁ →
      c.Reached → c.Leads c₁ ∧ ∀ W, c.grains = W ++ c₁.grains → Grain.Unbraced W → n ≤ W.length ∧
        (∀ Y, G c₁.grains Y → S c.grains (W ++ Y)) ∧
        (W.length < k → ∀ o' c' Y, Cursor.Retrace o c o' c' → c'.grains = W ++ Y → G c₁.grains Y →
          ∃ c₁', Steps (q o') n s c' s' c₁' ∧ c'.Leads c₁' ∧ c₁'.grains = Y) := by
    intro n s c s' c₁ hr
    induction hr with
    | stop ho =>
      intro hc
      obtain ⟨hl, h⟩ := h _ _ hc _ _ ho
      refine ⟨hl, fun W hW hnone => ⟨Nat.zero_le _, (h W hW hnone W rfl).1, fun hk o' c' Y hr hY hG => ?_⟩⟩
      obtain ⟨c₁', ha, hl', hY'⟩ := (h W hW hnone W rfl).2 hk o' c' Y hr hY hG
      exact ⟨c₁', .stop ha, hl', hY'⟩
    | @step n s s₁ s' c c₂ c₁ ho hsteps ih =>
      intro hc
      obtain ⟨hl, h⟩ := h _ _ hc _ _ ho
      have hc₂ := hc.lead hl
      obtain ⟨hl', ih⟩ := ih hc₂
      obtain ⟨V, hV⟩ := hc.taken hl
      obtain ⟨U, hU⟩ := hc₂.taken hl'
      refine ⟨hl.trans hl', fun W hW hnone => ?_⟩
      obtain rfl : W = V ++ U := List.append_cancel_right (by rw [← hW, hV, hU, List.append_assoc])
      obtain ⟨hS, h⟩ := h V hV hnone.left V rfl
      obtain ⟨hlen, hS', ih⟩ := ih U hU hnone.right
      have hV₁ := ht s c s₁ c₂ hc ho
      rw [hV, List.length_append] at hV₁
      refine ⟨by simp only [List.length_append]; omega,
        fun Y hY => by simpa using hS _ (hS' Y hY), fun hk o' c' Y hr hY hG => ?_⟩
      rw [List.length_append] at hk
      obtain ⟨c₂', ha, hl₁, hY₁⟩ := h (by omega) o' c' (U ++ Y) hr (by rw [hY, List.append_assoc])
        (hS' Y hG)
      obtain ⟨c₁', has, hl₂, hY₂⟩ := ih (by omega) o' c₂' Y
        (hr.step hl hl₁ hV (by rw [hY, hY₁, List.append_assoc])) hY₁ hG
      exact ⟨c₁', .step ha has, hl₁.trans hl₂, hY₂⟩
  obtain ⟨n, -, hs⟩ := extend_eq_ok.mp hs
  obtain ⟨hl, hsteps⟩ := hsteps hs hc
  refine ⟨hl, ?_⟩
  rintro W hW hnone _ rfl
  obtain ⟨hlen, hS, hsteps⟩ := hsteps W hW hnone
  refine ⟨hS, fun hk o' c' Y hr hY hG => ?_⟩
  obtain ⟨c₁', has, hl', hY'⟩ := hsteps hk o' c' Y hr hY hG
  have hroom := hr.braceless.reached.length_le_room
  rw [hY, List.length_append] at hroom
  have hsteps := extend_eq_ok.mpr ⟨n, by omega, has⟩
  rw [← hx o' c' hr] at hsteps
  exact ⟨c₁', hsteps, hl', hY'⟩

/-- One more item follows where `T` is told of what is ahead, and otherwise what `G` asks for. -/
def Round (T : Token → Bool) (G : List Grain → List Grain → Prop) (A B : List Grain) : Prop :=
  T (Token.ofWord (Grain.lead A)) = true ∧ Ahead (fun _ _ => True) A B ∨
    T (Token.ofWord (Grain.lead A)) = false ∧ T (Token.ofWord (Grain.lead B)) = false ∧ G A B

theorem Round.told {T : Token → Bool} {A B : List Grain} (h : Round T G A B) :
    T (Token.ofWord (Grain.lead B)) = T (Token.ofWord (Grain.lead A)) := by
  rcases h with ⟨-, h⟩ | ⟨h, h', -⟩
  · rw [h.lead]
  · rw [h, h']

theorem collectWhile {T : Token → Bool} (hT : Told T) {item : Parser α}
    (ht : ∀ c : Cursor, c.Reached → T c.peek = true → Takes item c) (hc : c.Reached) (hG : ∀ A B, G A B → T (Token.ofWord (Grain.lead B)) = false)
    (h : ∀ c : Cursor, c.Reached → T c.peek = true →
      Resumes k (fun _ _ => True) item q (fun _ => Round T G) o c) :
    Resumes k (Round T G) (collectWhile (fun c => T c.peek) item)
      (fun o' => collectWhile (fun c => T c.peek) (q o')) (fun _ => G) o c := by
  refine collect (fun c a c₁ hc hi => ?_) hc fun c hc => ?_
  · obtain ⟨hm, hi⟩ | ⟨-, hi⟩ := ite_eq_ok.mp hi
    · obtain ⟨a', c₂, ha, h⟩ := of_bind_ok hi
      obtain ⟨-, rfl⟩ := pure_eq_ok.mp h
      exact (ht c hc hm a' c₂ ha).2
    · cases hi
  · have htold : ∀ o' c', Cursor.Retrace o c o' c' → Round T G c.grains c'.grains →
        T c'.peek = T c.peek := fun o' c' hr hS => by
      rw [hc.told hT, hr.braceless.reached.told hT, hS.told]
    by_cases hm : T c.peek = true
    · refine .get_bind (fun o' c' hr hS => if_pos ((htold o' c' hr hS).trans hm)) (.pos hm ?_)
      refine Follows.pre (S := Ahead fun _ _ => True) (bind hc (ahead (ht c hc hm) (h c hc hm))
        fun a c₁ _ hc₁ => pure hc₁) fun Y hY => ?_
      exact .inl ⟨by rwa [← hc.told hT], hY⟩
    · refine .get_bind (fun o' c' hr hS => if_neg fun h => hm ((htold o' c' hr hS).symm.trans h)) (.neg hm ?_)
      refine (pure hc).pre fun Y hY => .inr ?_
      rw [Bool.not_eq_true] at hm
      exact ⟨by rwa [← hc.told hT], hG _ _ hY, hY⟩

/-- Items with commas between them. -/
theorem separated {v : List Token.Word} (hws : ∀ w ∈ v, (Token.ofWord w).isSymbol "," = false)
    {item item' : Parser α} (ht : ∀ c : Cursor, c.Reached → Takes item c) (hc : c.Reached)
    (h : ∀ c : Cursor, c.Reached → Replays k (fun _ _ => True) item (fun _ => item')
      (fun _ => Grain.Front ((.symbol, [',']) :: v)) c) :
    Resumes k (fun _ _ => True) (separated item) (fun _ => separated item') (fun _ => Grain.Front v) o c := by
  have hround : ∀ A B, Round (·.isSymbol ",") (Grain.Front v) A B →
      Grain.Front ((.symbol, [',']) :: v) A B := by
    rintro A B (⟨hA, hB⟩ | ⟨-, -, hB⟩)
    · exact List.mem_cons.mpr (.inl (hB.lead.trans (Token.word_of_isSymbol hA)))
    · exact List.mem_cons_of_mem _ hB
  refine bind hc (of_replays (h c hc)) fun a c₁ _ hc₁ => bind hc₁ (Follows.pre (collectWhile
    (G := Grain.Front v) (Token.told_isSymbol ",") (fun c₂ hc₂ hm => ?_) hc₁ (fun A B hB => hws _ hB)
    fun c₂ hc₂ hm => ?_) fun Y hY => hround _ _ hY) fun as c₂ _ hc₂ => pure hc₂
  · exact .after hc₂ (.skip hc₂ (Token.not_bracket_of_symbol hm (by decide))) fun _ c₃ hc₃ => ht c₃ hc₃
  · exact Follows.pre (skip_bind hc₂ (Token.whole_of_has hm (by simp) (by simp)) fun hc₃ =>
      Follows.post (of_replays (h _ hc₃)) fun _ _ _ h => hround _ _ h) fun _ _ => trivial

end Loops

end Resumes

namespace Replays

variable {k : Nat} {S : List Grain → List Grain → Prop} {p : Parser α} {q : Cursor → Parser α}
  {E : α → List Grain → List Grain → Prop} {F : β → List Grain → List Grain → Prop} {c : Cursor}

/-- What takes a grain starts with the same in both places. -/
theorem lead (ht : Takes p c) (h : Replays k S p q E c) :
    Replays k (fun A B => Grain.lead B = Grain.lead A) p q E c := by
  intro a c₁ ha
  obtain ⟨hl, h⟩ := h a c₁ ha
  refine ⟨hl, fun W hW hnone W' halike => ⟨fun Y _ => ?_, (h W hW hnone W' halike).2⟩⟩
  have hne : W ≠ [] := by
    rintro rfl
    exact absurd (ht a c₁ ha).2 (by rw [hW]; exact lt_irrefl _)
  show Grain.lead (W' ++ Y) = Grain.lead c.grains
  rw [halike.lead hne, hW, Grain.lead_append hne]

/-- What takes a grain has alike grains ahead, and then what is behind its own. -/
theorem parted (ht : Takes p c) {G : List Grain → List Grain → Prop}
    (h : Replays k S p q (fun _ => G) c) : Replays k (Grain.Parted G) p q (fun _ => G) c := by
  intro a c₁ ha
  obtain ⟨hl, h⟩ := h a c₁ ha
  refine ⟨hl, fun W hW hnone W' halike => ⟨fun Y hY => ⟨W, W', _, Y, ?_, halike, hW, rfl, hY⟩,
    (h W hW hnone W' halike).2⟩⟩
  rintro rfl
  exact absurd (ht a c₁ ha).2 (by rw [hW]; exact lt_irrefl _)

/-- Behind a parser that takes a grain. -/
theorem bind_within (ht : Takes p c) (hc : c.Reached) {n : Nat} (hn : k ≤ n + 1) {f : α → Parser β}
    {g : Cursor → α → Parser β} (h : Replays k S p q E c)
    (hf : ∀ a c₁, p c = .ok a c₁ → c₁.Reached → Resumes n (E a) (f a) (fun o' => g o' a) F c c₁) :
    Replays k S (p >>= f) (fun c' => q c' >>= g c') F c := by
  intro b c₂ hb
  obtain ⟨a, c₁, ha, hb⟩ := of_bind_ok hb
  obtain ⟨hl, h⟩ := h a c₁ ha
  have hc₁ := hc.lead hl
  obtain ⟨hl', hf⟩ := hf a c₁ ha hc₁ b c₂ hb
  obtain ⟨V, hV⟩ := hc.taken hl
  obtain ⟨U, hU⟩ := hc₁.taken hl'
  have hlt := (ht a c₁ ha).2
  rw [hV, List.length_append] at hlt
  have hne : V ≠ [] := List.ne_nil_of_length_pos (by omega)
  refine ⟨hl.trans hl', fun W hW hnone W' halike => ?_⟩
  obtain rfl : W = V ++ U := List.append_cancel_right (by rw [← hW, hV, hU, List.append_assoc])
  rw [List.append_assoc] at hW
  obtain ⟨V', rfl, hV'⟩ := Alike.of_append halike hne
  obtain ⟨hS, h⟩ := h V hV hnone.left V' hV'
  obtain ⟨hE, hf⟩ := hf U hU hnone.right U rfl
  refine ⟨fun Y hY => by simpa using hS _ (hE Y hY), ?_⟩
  rintro hk c' _ Y ⟨rfl, hc'⟩ hY hF
  rw [List.length_append] at hk
  refine (h (by omega) c' c' (U ++ Y) ⟨rfl, hc'⟩ (by rw [hY, List.append_assoc]) (hE Y hF)).bind
    fun c₁' hl₁ hY₁ => hf (by omega) c' c₁' Y ?_ hY₁ hF
  exact ⟨hc, hc'.reached, hl, hl₁, hc'.lead hl₁, V, V', hne, hV', hV,
    by rw [hY, hY₁, List.append_assoc]⟩

theorem bind (ht : Takes p c) (hc : c.Reached) {f : α → Parser β} {g : Cursor → α → Parser β}
    (h : Replays (k + 1) S p q E c)
    (hf : ∀ a c₁, p c = .ok a c₁ → c₁.Reached → Resumes k (E a) (f a) (fun o' => g o' a) F c c₁) :
    Replays (k + 1) S (p >>= f) (fun c' => q c' >>= g c') F c := bind_within ht hc le_rfl h hf

/-- A token that is a grain is taken first. -/
theorem skip_bind (hc : c.Reached) (hw : c.peek.Whole) {f : Unit → Parser α}
    (h : (c.advance 1).Reached → Resumes k S (f ()) q E c (c.advance 1)) :
    Replays (k + 1) (Grain.Onward S) (skip 1 >>= f) (fun c' => skip 1 >>= fun _ => q c') E c := by
  intro a c₁ ha
  have hl := hc.sound.advance 1
  have hc₁ := hc.lead hl
  obtain ⟨hl', h⟩ := h hc₁ a c₁ (skip_bind_eq_ok.mp ha)
  obtain ⟨x, hx, -, hmark⟩ := hc.grains_whole hw
  obtain ⟨U, hU⟩ := hc₁.taken hl'
  refine ⟨hl.trans hl', fun W hW hnone W' halike => ?_⟩
  obtain rfl : W = x :: U := List.append_cancel_right (by rw [← hW, hx, hU, List.cons_append])
  obtain ⟨y, rfl, hword⟩ := Grain.alike_cons.mp halike
  obtain ⟨hS, h⟩ := h U hU hnone.tail U rfl
  refine ⟨fun Y hY => ⟨x, y, _, _, hx, rfl, hword, hS Y hY⟩, ?_⟩
  rintro hk c' _ Y ⟨rfl, hc'⟩ hY hE
  have hmark' : ¬ y.IsMark := fun ⟨m, hm, hy⟩ => hmark ⟨m, hm, hword.trans hy⟩
  have hnext := (hc'.reached.next hY hmark').2
  have hl₁ := hc'.sound.advance 1
  refine .move hl₁ rfl (h (by simpa using hk) c' _ Y ?_ hnext hE)
  exact ⟨hc, hc'.reached, hl, hl₁, hc'.lead hl₁, [x], [y], by simp,
    Grain.alike_cons.mpr ⟨y, rfl, hword⟩, hx, by rw [hnext]; exact hY⟩

/-- Two tokens that are grains are taken first. -/
theorem skip_two_bind (hc : c.Reached) (hw : c.peek.Whole) (hw' : (c.peek 1).Whole) {f : Unit → Parser α}
    (h : (c.advance 2).Reached → Resumes k S (f ()) q E c (c.advance 2)) :
    Replays (k + 1) (Grain.Onward (Ahead S)) (skip 2 >>= f) (fun c' => skip 2 >>= fun _ => q c') E c := by
  have htwo : ∀ (c : Cursor) (p : Parser α),
      (skip 2 >>= fun _ => p) c = (skip 1 >>= fun _ => skip 1 >>= fun _ => p) c := by
    intro c p
    show p (c.advance 2) = p ((c.advance 1).advance 1)
    rw [← Cursor.advance_add]
  refine Follows.right (Follows.left (p := skip 1 >>= fun _ => skip 1 >>= f) (skip_bind hc hw fun hc₁ =>
    Resumes.skip_bind hc₁ (by rwa [Cursor.peek_advance]) fun hc₂ => ?_) (htwo c (f ()))) fun o' c' _ _ => htwo c' _
  rw [← Cursor.advance_add] at hc₂ ⊢
  exact h hc₂

/-- A mark is taken first. -/
theorem operator_bind (hc : c.Reached) {m : Char} (hm : isMarkChar m = true)
    {f g : Token → Parser α} (hf : ∀ t u : Token, t.start = u.start → f t = f u ∧ g t = g u)
    (h : ((c.splitOperator 1).advance 1).Reached →
      Resumes k (fun _ _ => True) (f c.peek) (fun o' => g o'.peek) E c
        ((c.splitOperator 1).advance 1)) :
    Replays (k + 1) (fun A B => Grain.lead B = Grain.lead A) (consumeOperator (String.singleton m) >>= f)
      (fun _ => consumeOperator (String.singleton m) >>= g) E c := by
  intro a c₁ ha
  obtain ⟨hop, ha⟩ := consumeOperator_bind_eq_ok.mp ha
  obtain ⟨hl, htext, hstart, x, hx, hword⟩ := hc.grains_mark hm ((Token.isOperatorWith_iff hm).mp hop)
  have hc₁ := hc.lead hl
  rw [String.length_singleton, (hf _ _ hstart).1] at ha
  obtain ⟨hl', h⟩ := h hc₁ a c₁ ha
  obtain ⟨U, hU⟩ := hc₁.taken hl'
  refine ⟨hl.trans hl', fun W hW hnone W' halike => ?_⟩
  obtain rfl : W = x :: U := List.append_cancel_right (by rw [← hW, hx, hU, List.cons_append])
  obtain ⟨y, rfl, hxy⟩ := Grain.alike_cons.mp halike
  obtain ⟨-, h⟩ := h U hU hnone.tail U rfl
  refine ⟨fun Y _ => by rw [hx]; exact hxy.symm, ?_⟩
  rintro hk c' _ Y ⟨rfl, hc'⟩ hY hE
  have hv' : c'.peek.view = (.operator, [m]) := by
    rw [hc'.reached.view_peek, hY]
    exact hxy.symm.trans hword
  obtain ⟨hl₁, -, hstart', z, hz, -⟩ := hc'.reached.grains_mark hm hv'
  obtain ⟨rfl, hnext⟩ := List.cons.inj (hz.symm.trans hY)
  have hanswer := h (by simpa using hk) c' _ Y ⟨hc, hc'.reached, hl, hl₁, hc'.lead hl₁, [x], [z],
    by simp, Grain.alike_cons.mpr ⟨z, rfl, hxy⟩, hx, hz⟩ hnext hE
  obtain ⟨c₂, ha, hl₂, hY₂⟩ := hanswer
  refine ⟨c₂, consumeOperator_bind_eq_ok.mpr ⟨(Token.isOperatorWith_iff hm).mpr hv', ?_⟩, hl₁.trans hl₂, hY₂⟩
  rw [String.length_singleton, (hf _ _ hstart').2]
  exact ha

/-- The same, for a token that is looked at. -/
theorem consume_bind (hc : c.Reached) (hw : c.peek.Whole) {f g : Token → Parser α}
    (h : (c.advance 1).Reached →
      Resumes k (fun _ _ => True) (f c.peek) (fun o' => g o'.peek) E c (c.advance 1)) :
    Replays (k + 1) (fun A B => Grain.lead B = Grain.lead A) (consume >>= f) (fun _ => consume >>= g) E c :=
  (skip_bind (f := fun _ => f c.peek) hc hw h).pre (fun _ hY => hY.lead) |>.imp (fun _ _ => id)
    fun o' c' _ _ hQ _ ha => by
      obtain ⟨rfl, -⟩ := hQ
      exact ha

/-- A symbol is asked for first. -/
theorem expect_bind (hc : c.Reached) {m : Char} (hm : isSymbolChar m = true) {p' : Parser α}
    (h : (c.advance 1).Reached →
      Resumes k (fun _ _ => True) p (fun _ => p') E c (c.advance 1)) :
    Replays (k + 1) (fun A B => Grain.lead B = Grain.lead A) (expect [m] >>= fun _ => p)
      (fun _ => expect [m] >>= fun _ => p') E c := by
  by_cases hr : c.peek.reads [m] = true
  · have hw := (hc.whole_of_reads hm hr).1
    refine Follows.right (Follows.left (consume_bind (f := fun _ => p) (g := fun _ => p') hc hw h) ?_)
      fun o' c' hr' hS => ?_
    · exact bind_of_ok (expect_eq_ok.mpr ⟨hr, rfl, rfl⟩)
    · have hword := (hc.whole hr'.2.reached hw hS).1
      exact bind_of_ok (expect_eq_ok.mpr ⟨(Token.reads_congr hword).trans hr, rfl, rfl⟩)
  · exact fun a c₁ ha => absurd (expect_bind_eq_ok.mp ha).1 hr

/-- What can come behind an item in brackets. -/
def ends (e : Char) : List Token.Word := [(.symbol, [',']), (.symbol, [e])]

/-- Items between two brackets. -/
theorem bracketed {o e : Char} (ho : isSymbolChar o = true) (he : isSymbolChar e = true)
    {separator : Wanted} {item item' : Parser α}
    (ht : ∀ c : Cursor, c.Reached → Takes item c) (hc : c.Reached)
    (h : ∀ c : Cursor, c.Reached → Replays k (fun _ _ => True) item (fun _ => item')
      (fun _ A B => Grain.lead A ∈ ends e ∧ Grain.lead B ∈ ends e) c) :
    Replays (k + 1) (fun A B => Grain.lead B = Grain.lead A)
      (bracketed (String.singleton o) (String.singleton e) separator item)
      (fun _ => bracketed (String.singleton o) (String.singleton e) separator item')
      (fun _ _ _ => True) c := by
  unfold Parser.bracketed
  simp only [String.toList_singleton]
  refine expect_bind hc ho fun hc₁ => .bind hc₁ (Follows.pre (Resumes.collectWhile (G := fun A B =>
    Grain.lead A = (.symbol, [e]) ∧ Grain.lead B = (.symbol, [e]))
    (Token.told_isSymbol (String.singleton e)).not (fun c₂ hc₂ _ => ?_) hc₁ ?_ fun c₂ hc₂ hm => ?_)
    fun _ _ => trivial) fun items c₂ _ hc₂ => ?_
  · refine Takes.bind hc₂ (ht c₂ hc₂) fun a c₃ hc₃ => .current_bind (.ite (fun hcomma => ?_) fun _ =>
      .ite (fun _ => .fail_bind) fun _ => .pure hc₃)
    exact .skip_bind hc₃ (Token.not_bracket_of_symbol hcomma (by decide)) fun hc₄ => .pure hc₄
  · rintro A B ⟨-, hB⟩
    simp [hB, Token.isSymbol, Token.has, Token.ofWord]
  · refine .bind hc₂ (Resumes.of_replays (h c₂ hc₂)) fun a c₃ _ hc₃ => ?_
    have hlead := hc₃.view_peek
    by_cases hcomma : c₃.peek.isSymbol "," = true
    · have hword := Token.word_of_isSymbol hcomma
      have hw := Token.whole_of_has hcomma (by simp) (by simp)
      rw [hw.view, hword] at hlead
      refine Follows.pre (S := Ahead _) (.current_bind (fun o' c' hr hS => if_pos ?_) (.pos hcomma
        (Resumes.skip_bind hc₃ hw fun hc₄ => .pure hc₄))) fun Y hY => ?_
      · rw [hc₃.told_eq hr.braceless.reached (Token.told_isSymbol ",") hS.lead]
        exact hcomma
      · rw [hY.lead, ← hlead]
        exact ⟨List.mem_cons_self, List.mem_cons_self⟩
    · by_cases hlast : c₃.peek.isSymbol (String.singleton e) = true
      · have hword := Token.word_of_isSymbol hlast
        have hw := Token.whole_of_has hlast (by simp) (by simp)
        rw [hw.view, hword, String.toList_singleton] at hlead
        have hends : ∀ Y, Resumes.Round (fun t => !t.isSymbol (String.singleton e)) (fun A B =>
            Grain.lead A = (.symbol, [e]) ∧ Grain.lead B = (.symbol, [e])) c₃.grains Y →
            Grain.lead Y = (.symbol, [e]) := by
          rintro Y (⟨hA, -⟩ | ⟨-, -, -, hY⟩)
          · simp [← hlead, Token.isSymbol, Token.has, Token.ofWord] at hA
          · exact hY
        refine Follows.pre (.current_bind (fun o' c' hr hS => ?_) (.neg hcomma (.neg (by simp [hlast])
          (Resumes.pure hc₃)))) fun Y hY => ?_
        · have htold : ∀ x, c'.peek.isSymbol x = c₃.peek.isSymbol x := fun x =>
            hc₃.told_eq hr.braceless.reached (Token.told_isSymbol x)
              ((hends _ hS).trans hlead)
          exact (if_neg (by rwa [htold])).trans (if_neg (by simp [htold, hlast]))
        · rw [hends Y hY, ← hlead]
          exact ⟨by simp [ends], by simp [ends]⟩
      · intro b c₄ hb
        rw [current_bind_eq_ok, if_neg hcomma, if_pos (by simpa using hlast), fail_bind_eq_ok] at hb
        exact hb.elim
  · refine Follows.pre (Resumes.expect_bind hc₂ he fun hc₃ => .pure hc₃) fun Y hY => ?_
    exact ⟨hY.1, hY.2.lead.trans hY.1⟩

/-- Items that are collected from the start of a rule. -/
theorem collectWhile {T : Token → Bool} (hT : Told T) {item item' : Parser α} {G : List Grain → List Grain → Prop}
    (ht : ∀ c : Cursor, c.Reached → T c.peek = true → Takes item c)
    (ht' : ∀ c : Cursor, c.Reached → T c.peek = true → Takes item' c) (hc : c.Reached)
    (hm : T c.peek = true) (hG : ∀ A B, G A B → T (Token.ofWord (Grain.lead B)) = false)
    (h : ∀ c : Cursor, c.Reached → T c.peek = true →
      Replays (k + 1) (fun _ _ => True) item (fun _ => item') (fun _ => Resumes.Round T G) c) :
    Replays (k + 1) (fun A B => Grain.lead B = Grain.lead A) (collectWhile (fun c => T c.peek) item)
      (fun _ => collectWhile (fun c => T c.peek) item') (fun _ => G) c := by
  have hfirst : Replays (k + 1) (fun A B => Grain.lead B = Grain.lead A)
      (item >>= fun a => Parser.collectWhile (fun c => T c.peek) item >>= fun as => pure (a :: as))
      (fun _ => item' >>= fun a => Parser.collectWhile (fun c => T c.peek) item' >>= fun as =>
        pure (a :: as)) (fun _ => G) c :=
    bind (ht c hc hm) hc (lead (ht c hc hm) (h c hc hm)) fun a c₁ _ hc₁ => .bind hc₁
      (Resumes.collectWhile (k := k) (o := c) hT ht hc₁ hG fun c₂ hc₂ hm₂ =>
        (Resumes.of_replays (h c₂ hc₂ hm₂)).le k.le_succ) fun as c₂ _ hc₂ => .pure hc₂
  refine hfirst.imp (fun as c₁ => (Takes.collectWhile_eq_ok ht hc hm).mp) ?_
  rintro c' _ as c₁ ⟨rfl, hc'⟩ hS
  exact (Takes.collectWhile_eq_ok ht' hc'.reached ((hc.told_eq hc'.reached hT hS).trans hm)).mpr

end Replays

end Parser

end SwiftMacros
