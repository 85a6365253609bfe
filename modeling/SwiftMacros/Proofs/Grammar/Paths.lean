import Mathlib
import SwiftMacros.Proofs.Grammar.Forward
import SwiftMacros.Proofs.Grammar.Members
import SwiftMacros.Proofs.Parser.Answers

/-! The way to the accessors of a binding. A declaration is read up to them, which tells where they begin; all
accessors in a declaration are found in this way. -/

namespace SwiftMacros

open SwiftMacros.Parser

/-- What a parser that reads forward has come to when it answers. -/
theorem Parser.Forward.onward {α : Type} {p : Parser α} {a : α} {c c' : Cursor} (hp : Forward p)
    (h : p c = .ok a c') : c.Onward c' := by
  have hc := hp c
  rwa [after, h] at hc

namespace Grammar

/-- Where the accessors begin of a binding that has been read as far as them, if it has some. They are not read. -/
def accessorsHere : Parser (Option Nat) := do
  let brace ← current
  if brace.isSymbol "\x7b" && !brace.newlineBefore then return some brace.start else return none

/-- Where a brace stands, in whatever line. -/
def braceHere : Parser (Option Nat) := do
  let brace ← current
  if brace.isSymbol "\x7b" then return some brace.start else return none

/-- Where reading has come to. -/
def edgeHere : Parser (Option Nat) := do return some (← get).edge

/-- What `look` tells behind the annotation and the initializer of the binding that comes behind `n` others. -/
def atBinding (g : Grammar) (look : Parser (Option Nat)) : Nat → Parser (Option Nat)
  | 0 => do
    let _ ← g.bindingHead (← current)
    look
  | n + 1 => do
    let _ ← g.bindingRule
    if (← current).isSymbol "," then
      skip 1
      g.atBinding look n
    else return none

/-- What `look` tells of a binding in the member that comes behind `m` others in a block. -/
def atMember (g : Grammar) (look : Parser (Option Nat)) (n : Nat) : Nat → Parser (Option Nat)
  | 0 => do
    let t ← current
    if t.isSymbol "\x7d" || t.isSymbol ";" then return none
    else
      let _ ← g.attributesRule
      let _ ← g.modifiersRule
      if (← current).isIdentifierIn ["var", "let"] then
        skip 1
        g.atBinding look n
      else return none
  | m + 1 => do
    if (← g.blockItem).isNone then return none else g.atMember look n m

/-- What `look` tells of a binding in a member of a type declaration. -/
def atGroup (g : Grammar) (look : Parser (Option Nat)) (m n : Nat) : Parser (Option Nat) := do
  let _ ← g.attributesRule
  let _ ← g.modifiersRule
  if (← current).isIdentifierIn groupKeywords then
    let _ ← consume
    let name ← consume
    groupHeader name.text
    let _ ← expect "\x7b".toList
    g.atMember look n m
  else return none

variable {g : Grammar} {c d : Cursor} {k m n : Nat}

section Moves

variable (hg : g.Forward)
include hg

theorem bindingHead_forward (first : Token) : (g.bindingHead first).Forward := by
  unfold bindingHead
  extract_lets pattern
  have hpattern : ∀ name, Parser.Forward (pattern name) := by
    refine fun _ => .bind (.sliceFrom _) fun _ => .bind .current fun _ => ?_
    extract_lets initializer
    have hinitializer : ∀ type, Parser.Forward (initializer type) := by
      refine fun _ => .bind .current fun _ => ?_
      extract_lets finish
      have hfinish : ∀ value, Parser.Forward (finish value) := fun _ => .pure _
      refine .ite ?_ (.bind (.pure _) hfinish)
      exact .bind (.skip _) fun _ => .bind (orRest_forward hg.expression _) fun _ => .bind (.pure _) hfinish
    refine .ite ?_ (.bind (.pure _) hinitializer)
    exact .bind (.skip _) fun _ => .bind (orRest_forward hg.type _) fun _ => .bind (.pure _) hinitializer
  refine .ite (.bind .consume fun _ => .bind (.pure _) hpattern) (.ite ?_ (.bind (.fail _) hpattern))
  exact .bind .skipBalanced fun _ => .bind (.pure _) hpattern

variable {look : Parser (Option Nat)} (hlook : look.Forward)
include hlook

theorem atBinding_forward : (g.atBinding look n).Forward := by
  induction n with
  | zero => exact .bind .current fun _ => .bind (bindingHead_forward hg _) fun _ => hlook
  | succ n ih =>
    exact .bind (bindingRule_forward hg) fun _ => .bind .current fun _ => .ite (.bind (.skip _) fun _ => ih) (.pure _)

theorem atMember_forward : (g.atMember look n m).Forward := by
  induction m with
  | zero =>
    exact .bind .current fun _ => .ite (.pure _) (.bind (attributesRule_forward hg) fun _ => .bind
      (modifiersRule_forward hg) fun _ => .bind .current fun _ => .ite (.bind (.skip _) fun _ =>
        atBinding_forward hg hlook) (.pure _))
  | succ m ih => exact .bind (blockItem_forward hg) fun _ => .ite (.pure _) ih

theorem atGroup_forward : (g.atGroup look m n).Forward :=
  .bind (attributesRule_forward hg) fun _ => .bind (modifiersRule_forward hg) fun _ => .bind .current fun _ => .ite
    (.bind .consume fun _ => .bind .consume fun _ => .bind (groupHeader_forward _) fun _ => .bind (.expect _) fun _ =>
      atMember_forward hg hlook) (.pure _)

end Moves

theorem accessorsHere_forward : accessorsHere.Forward := .bind .current fun _ => .ite (.pure _) (.pure _)

theorem braceHere_forward : braceHere.Forward := .bind .current fun _ => .ite (.pure _) (.pure _)

section Ends

variable {look : Parser (Option Nat)}

/-- A way that ends with an answer leads to a place at which `look` gives it, and whatever else looks there. -/
theorem atBinding_reaches (h : g.atBinding look n c = .ok (some k) d) :
    ∃ c₁, look c₁ = .ok (some k) d ∧ ∀ look', g.atBinding look' n c = look' c₁ := by
  induction n generalizing c with
  | zero =>
    rw [atBinding, current_bind_eq_ok] at h
    obtain ⟨b, c₁, hhead, h⟩ := bind_eq_ok.mp h
    exact ⟨c₁, h, fun look' => bind_of_ok hhead⟩
  | succ n ih =>
    obtain ⟨b, c₁, hb, h⟩ := bind_eq_ok.mp h
    rw [current_bind_eq_ok, ite_eq_ok] at h
    rcases h with ⟨hcomma, h⟩ | ⟨-, h⟩
    · obtain ⟨c₂, hlook, hall⟩ := ih h
      refine ⟨c₂, hlook, fun look' => ?_⟩
      rw [atBinding, bind_of_ok hb]
      exact (congrFun (if_pos hcomma) c₁).trans (hall look')
    · cases (pure_eq_ok.mp h).1

theorem atMember_reaches (h : g.atMember look n m c = .ok (some k) d) :
    ∃ c₁, look c₁ = .ok (some k) d ∧ ∀ look', g.atMember look' n m c = look' c₁ := by
  induction m generalizing c with
  | zero =>
    rw [atMember, current_bind_eq_ok, ite_eq_ok] at h
    rcases h with ⟨-, h⟩ | ⟨hmark, h⟩
    · cases (pure_eq_ok.mp h).1
    obtain ⟨as, c₁, has, h⟩ := bind_eq_ok.mp h
    obtain ⟨ms, c₂, hms, h⟩ := bind_eq_ok.mp h
    rw [current_bind_eq_ok, ite_eq_ok] at h
    rcases h with ⟨hword, h⟩ | ⟨-, h⟩
    · obtain ⟨c₃, hlook, hall⟩ := atBinding_reaches h
      refine ⟨c₃, hlook, fun look' => ?_⟩
      rw [atMember]
      exact (congrFun (if_neg hmark) c).trans ((bind_of_ok has).trans ((bind_of_ok hms).trans
        ((congrFun (if_pos hword) c₂).trans (hall look'))))
    · cases (pure_eq_ok.mp h).1
  | succ m ih =>
    obtain ⟨o, c₁, ho, h⟩ := bind_eq_ok.mp h
    rw [ite_eq_ok] at h
    rcases h with ⟨-, h⟩ | ⟨hsome, h⟩
    · cases (pure_eq_ok.mp h).1
    · obtain ⟨c₂, hlook, hall⟩ := ih h
      refine ⟨c₂, hlook, fun look' => ?_⟩
      rw [atMember, bind_of_ok ho]
      exact (congrFun (if_neg hsome) c₁).trans (hall look')

theorem atGroup_reaches (h : g.atGroup look m n c = .ok (some k) d) :
    ∃ c₁, look c₁ = .ok (some k) d ∧ ∀ look', g.atGroup look' m n c = look' c₁ := by
  obtain ⟨as, c₁, has, h⟩ := bind_eq_ok.mp h
  obtain ⟨ms, c₂, hms, h⟩ := bind_eq_ok.mp h
  rw [current_bind_eq_ok, ite_eq_ok] at h
  rcases h with ⟨hword, h⟩ | ⟨-, h⟩
  · rw [consume_bind_eq_ok, consume_bind_eq_ok] at h
    obtain ⟨u, c₃, hheader, h⟩ := bind_eq_ok.mp h
    obtain ⟨hopen, h⟩ := expect_bind_eq_ok.mp h
    obtain ⟨c₄, hlook, hall⟩ := atMember_reaches h
    refine ⟨c₄, hlook, fun look' => ?_⟩
    have hblock : (expect "\x7b".toList >>= fun _ => g.atMember look' n m) c₃ = g.atMember look' n m (c₃.advance 1) :=
      bind_of_ok (expect_eq_ok.mpr ⟨hopen, rfl, rfl⟩)
    refine ((bind_of_ok has).trans (bind_of_ok hms)).trans ((congrFun (if_pos hword) c₂).trans ?_)
    exact ((bind_of_ok hheader).trans hblock).trans (hall look')
  · cases (pure_eq_ok.mp h).1

theorem accessorsHere_eq_ok : accessorsHere c = .ok (some k) d ↔
    d = c ∧ c.peek.isSymbol "\x7b" = true ∧ c.peek.newlineBefore = false ∧ c.peek.start = k := by
  rw [accessorsHere, current_bind_eq_ok, ite_eq_ok, pure_eq_ok, pure_eq_ok]
  simp only [Bool.and_eq_true, Bool.not_eq_true', Option.some.injEq, reduceCtorEq, false_and, and_false, or_false,
    and_assoc, eq_comm (a := d)]
  tauto

theorem braceHere_eq_ok : braceHere c = .ok (some k) d ↔
    d = c ∧ c.peek.isSymbol "\x7b" = true ∧ c.peek.start = k := by
  rw [braceHere, current_bind_eq_ok, ite_eq_ok, pure_eq_ok, pure_eq_ok]
  simp only [Option.some.injEq, reduceCtorEq, false_and, and_false, or_false, eq_comm (a := d)]
  tauto

/-- The reading stops at the brace that it tells of. -/
theorem atGroup_accessors_peek (h : g.atGroup accessorsHere m n c = .ok (some k) d) :
    d.peek.isSymbol "\x7b" = true ∧ d.peek.start = k := by
  obtain ⟨c₁, hlook, -⟩ := atGroup_reaches h
  obtain ⟨rfl, hbrace, -, hk⟩ := accessorsHere_eq_ok.mp hlook
  exact ⟨hbrace, hk⟩

end Ends

section Respaced

variable {S : Respacing} {c' : Cursor} (hg : g.Mirrored S) (h : c.Mirror S c')
include hg h

/-- Accessors are found in both sources or in none. -/
abbrev Finds (S : Respacing) (p : Parser (Option Nat)) (c c' : Cursor) : Prop :=
  Mirrors S (Option.map fun _ => ()) (fun _ _ => True) p p c c'

theorem atBinding_mirrors : Finds S (g.atBinding accessorsHere n) c c' := by
  induction n generalizing c c' with
  | zero =>
    refine .current_bind (.next (bindingHead_mirrors hg h) fun _ _ c₁ c₁' _ h₁ => .current_bind (.ite ?_
      (fun _ => .pure h₁ rfl trivial) fun _ => .pure h₁ rfl trivial))
    rw [(h₁.peek 0).isSymbol, (h₁.peek 0).newline]
  | succ n ih =>
    exact .next (bindingRule_mirrors hg h) fun _ _ c₁ c₁' _ h₁ => .current_bind (.ite ((h₁.peek 0).isSymbol _)
      (fun _ => .skip_bind h₁ fun h₂ => ih h₂) fun _ => .pure h₁ rfl trivial)

theorem atMember_mirrors : Finds S (g.atMember accessorsHere n m) c c' := by
  induction m generalizing c c' with
  | zero =>
    refine .current_bind (.ite ?_ (fun _ => .pure h rfl trivial) fun _ => .next (attributesRule_mirrors hg h)
      fun _ _ _ _ _ h₁ => .next (modifiersRule_mirrors hg h₁) fun _ _ _ _ _ h₂ => .current_bind (.ite
        ((h₂.peek 0).isIdentifierIn _) (fun _ => .skip_bind h₂ fun h₃ => atBinding_mirrors hg h₃) fun _ =>
          .pure h₂ rfl trivial))
    rw [(h.peek 0).isSymbol, (h.peek 0).isSymbol]
  | succ m ih =>
    refine .next (blockItem_mirrors hg h) fun o o' c₁ c₁' ho h₁ => .ite ?_ (fun _ => .pure h₁ rfl trivial) fun _ => ih h₁
    simpa using congrArg Option.isNone ho

theorem atGroup_mirrors : Finds S (g.atGroup accessorsHere m n) c c' := by
  refine .next (attributesRule_mirrors hg h) fun _ _ _ _ _ h₁ => .next (modifiersRule_mirrors hg h₁)
    fun _ _ _ _ _ h₂ => .current_bind (.ite ((h₂.peek 0).isIdentifierIn _) (fun _ => .consume_bind h₂ fun h₃ =>
      .consume_bind h₃ fun h₄ => ?_) fun _ => .pure h₂ rfl trivial)
  rw [(h₃.peek 0).spelled]
  exact .next (groupHeader_mirrors h₄) fun _ _ _ _ _ h₅ => .expect_bind h₅ fun h₆ => atMember_mirrors hg h₆

end Respaced

section Found

variable {x : Text} {b : Binding} {v : Variable} {c₁ : Cursor}

/-- The text `x` stands where reading with `p` finds accessors. -/
def Locates (p : Parser (Option Nat)) (c : Cursor) (x : Text) : Prop :=
  ∃ k d, p c = .ok (some k) d ∧ x <+: c.source.drop k

theorem Locates.of_step {p q : Parser (Option Nat)} (h : Locates q c₁ x) (hl : c.Onward c₁) (hp : p c = q c₁) :
    Locates p c x := by
  obtain ⟨k, d, hq, hx⟩ := h
  exact ⟨k, d, hp.trans hq, hl.source ▸ hx⟩

/-- The way to a binding behind a comma. -/
theorem atBinding_succ (h : g.bindingRule c = .ok b c₁) (hcomma : c₁.peek.isSymbol "," = true) :
    g.atBinding accessorsHere (n + 1) c = g.atBinding accessorsHere n (c₁.advance 1) := by
  rw [atBinding, bind_of_ok h]
  exact congrFun (if_pos hcomma) c₁

variable (hg : g.Forward)
include hg

theorem bindingRule_locates (h : g.bindingRule c = .ok b d) (hx : b.accessors = some x) :
    Locates (g.atBinding accessorsHere 0) c x := by
  rw [bindingRule_eq, current_bind_eq_ok] at h
  obtain ⟨b₁, c₁, hhead, h⟩ := bind_eq_ok.mp h
  have hsource := (Parser.Forward.onward (bindingHead_forward hg _) hhead).source
  rw [bindingTail, current_bind_eq_ok, ite_eq_ok] at h
  rcases h with ⟨hbrace, h⟩ | ⟨-, h⟩
  · obtain ⟨u, c₂, hskip, h⟩ := bind_eq_ok.mp h
    simp only [sliceFrom_bind_eq_ok, pure_bind_eq_ok, pure_eq_ok] at h
    obtain ⟨rfl, rfl⟩ := h
    obtain rfl := Option.some.inj hx
    refine ⟨c₁.peek.start, c₁, ?_, ?_⟩
    · rw [atBinding, current_bind_eq_ok, bind_of_ok hhead, accessorsHere, current_bind_eq_ok, if_pos hbrace]
      rfl
    · rw [Cursor.sliceFrom, Text.slice, (Parser.Forward.onward .skipBalanced hskip).source, hsource]
      exact List.take_prefix ..
  · simp only [sliceFrom_bind_eq_ok, pure_bind_eq_ok, pure_eq_ok] at h
    obtain ⟨rfl, rfl⟩ := h
    cases hx

theorem bindings_locate {bs : List Binding} (h : separated g.bindingRule c = .ok bs d) (hb : b ∈ bs)
    (hx : b.accessors = some x) : ∃ n, Locates (g.atBinding accessorsHere n) c x := by
  -- the bindings behind a comma
  have hothers : ∀ {c d : Cursor} {bs : List Binding}, Rounds (get >>= fun c => if c.peek.isSymbol "," = true then
      (skip 1 >>= fun _ => g.bindingRule) >>= fun a => pure (some a) else pure none) c bs d → b ∈ bs →
        c.peek.isSymbol "," = true ∧ ∃ n, Locates (g.atBinding accessorsHere n) (c.advance 1) x := by
    intro c d bs hr hb
    induction hr with
    | stop ho => cases hb
    | @round c c₁ d a as ho _ ih =>
      rw [get_bind_eq_ok, ite_eq_ok] at ho
      rcases ho with ⟨hcomma, ho⟩ | ⟨-, ho⟩
      · obtain ⟨a', c₂, ha, ho⟩ := bind_eq_ok.mp ho
        obtain ⟨ha', rfl⟩ := pure_eq_ok.mp ho
        cases ha'
        rw [skip_bind_eq_ok] at ha
        refine ⟨hcomma, ?_⟩
        rcases List.mem_cons.mp hb with rfl | hb
        · exact ⟨0, bindingRule_locates hg ha hx⟩
        · obtain ⟨hcomma₁, n, hn⟩ := ih hb
          exact ⟨n + 1, hn.of_step ((Parser.Forward.onward (bindingRule_forward hg) ha).trans
            (c₂.advance_onward 1)) (atBinding_succ ha hcomma₁)⟩
      · cases (pure_eq_ok.mp ho).1
  obtain ⟨a, c₁, ha, h⟩ := bind_eq_ok.mp h
  obtain ⟨as, c₂, has, h⟩ := bind_eq_ok.mp h
  obtain ⟨rfl, rfl⟩ := pure_eq_ok.mp h
  rcases List.mem_cons.mp hb with rfl | hb
  · exact ⟨0, bindingRule_locates hg ha hx⟩
  · obtain ⟨hcomma, n, hn⟩ := hothers (collect_eq_ok.mp has).1 hb
    exact ⟨n + 1, hn.of_step ((Parser.Forward.onward (bindingRule_forward hg) ha).trans (c₁.advance_onward 1))
      (atBinding_succ ha hcomma)⟩

theorem memberRule_locates (h : g.memberRule c = .ok (.binding v) d) (hmark : (c.peek.isSymbol "\x7d" ||
    c.peek.isSymbol ";") = false) (hb : b ∈ v.bindings) (hx : b.accessors = some x) :
    ∃ n, Locates (g.atMember accessorsHere n 0) c x := by
  rw [memberRule, current_bind_eq_ok] at h
  obtain ⟨as, c₁, has, h⟩ := bind_eq_ok.mp h
  obtain ⟨ms, c₂, hms, h⟩ := bind_eq_ok.mp h
  rw [memberBody, current_bind_eq_ok, ite_eq_ok] at h
  rcases h with ⟨hword, h⟩ | ⟨-, h⟩
  · rw [skip_bind_eq_ok] at h
    obtain ⟨bs, c₃, hbs, h⟩ := bind_eq_ok.mp h
    rw [sliceFrom_bind_eq_ok, pure_eq_ok] at h
    obtain ⟨hv, rfl⟩ := h
    cases hv
    obtain ⟨n, hn⟩ := bindings_locate hg hbs hb hx
    refine ⟨n, hn.of_step (((Parser.Forward.onward (attributesRule_forward hg) has).trans
      (Parser.Forward.onward (modifiersRule_forward hg) hms)).trans (c₂.advance_onward 1)) ?_⟩
    have hkeyword : (do
        if (← current).isIdentifierIn ["var", "let"] then
          skip 1
          g.atBinding accessorsHere n
        else return none : Parser (Option Nat)) c₂ = g.atBinding accessorsHere n (c₂.advance 1) := congrFun (if_pos hword) c₂
    rw [← hkeyword, atMember]
    exact (congrFun (if_neg (by simp [hmark])) c).trans ((bind_of_ok has).trans (bind_of_ok hms))
  · rw [get_bind_eq_ok, skip_bind_eq_ok, get_bind_eq_ok, pure_eq_ok] at h
    cases h.1

theorem members_locate {mss : List (List Member)} {ms : List Member} (h : Rounds g.blockItem c mss d) (hms : ms ∈ mss)
    (hv : .binding v ∈ ms) (hb : b ∈ v.bindings) (hx : b.accessors = some x) :
    ∃ m n, Locates (g.atMember accessorsHere n m) c x := by
  induction h with
  | stop ho => cases hms
  | @round c c₁ d ns nss ho _ ih =>
    rcases List.mem_cons.mp hms with rfl | hms
    · rw [blockItem, get_bind_eq_ok, ite_eq_ok] at ho
      rcases ho with ⟨-, ho⟩ | ⟨hclose, ho⟩
      · cases (pure_eq_ok.mp ho).1
      rw [ite_eq_ok] at ho
      rcases ho with ⟨-, ho⟩ | ⟨-, ho⟩
      · cases ho
      rw [ite_eq_ok] at ho
      rcases ho with ⟨-, ho⟩ | ⟨hsemicolon, ho⟩
      · rw [skip_bind_eq_ok, pure_eq_ok] at ho
        cases ho.1
        cases hv
      obtain ⟨m, c₂, hm, ho⟩ := bind_eq_ok.mp ho
      have hread : ms = [m] := by
        rw [get_bind_eq_ok] at ho
        split at ho
        · rw [skip_bind_eq_ok, pure_eq_ok] at ho
          exact (Option.some.inj ho.1).symm
        · exact (Option.some.inj (pure_eq_ok.mp ho).1).symm
      obtain rfl : .binding v = m := by simpa [hread] using hv
      obtain ⟨n, hn⟩ := memberRule_locates hg hm (by simpa using And.intro hclose hsemicolon) hb hx
      exact ⟨0, n, hn⟩
    · obtain ⟨m, n, hn⟩ := ih hms
      refine ⟨m + 1, n, hn.of_step (Parser.Forward.onward (blockItem_forward hg) ho) ?_⟩
      rw [atMember, bind_of_ok ho]
      rfl

/-- There is a way to all accessors in the members of a type declaration. -/
theorem declarationRule_locates {t : Group} (h : g.declarationRule c = .ok (.group t) d)
    (hv : .binding v ∈ t.block.members) (hb : b ∈ v.bindings) (hx : b.accessors = some x) :
    ∃ m n, Locates (g.atGroup accessorsHere m n) c x := by
  rw [declarationRule, current_bind_eq_ok] at h
  obtain ⟨as, c₁, has, h⟩ := bind_eq_ok.mp h
  obtain ⟨ms, c₂, hms, h⟩ := bind_eq_ok.mp h
  rw [current_bind_eq_ok, ite_eq_ok] at h
  rcases h with ⟨hword, h⟩ | ⟨-, h⟩
  · obtain ⟨t', c₃, hbody, h⟩ := bind_eq_ok.mp h
    obtain ⟨ht, rfl⟩ := pure_eq_ok.mp h
    cases ht
    rw [groupBody, consume_bind_eq_ok, current_bind_eq_ok, ite_eq_ok] at hbody
    rcases hbody with ⟨-, hbody⟩ | ⟨-, hbody⟩
    · cases hbody
    rw [consume_bind_eq_ok] at hbody
    obtain ⟨u, c₄, hheader, hbody⟩ := bind_eq_ok.mp hbody
    obtain ⟨block, c₅, hblock, hbody⟩ := bind_eq_ok.mp hbody
    rw [sliceFrom_bind_eq_ok, pure_eq_ok] at hbody
    obtain ⟨rfl, rfl⟩ := hbody
    rw [memberBlockRule, expect_bind_eq_ok] at hblock
    obtain ⟨hopen, hblock⟩ := hblock
    obtain ⟨mss, c₆, hmss, hblock⟩ := bind_eq_ok.mp hblock
    obtain ⟨last, c₇, hlast, hblock⟩ := bind_eq_ok.mp hblock
    rw [sliceFrom_bind_eq_ok, pure_eq_ok] at hblock
    obtain ⟨rfl, rfl⟩ := hblock
    obtain ⟨ns, hns, hv⟩ := List.mem_flatten.mp hv
    obtain ⟨m, n, hn⟩ := members_locate hg (collect_eq_ok.mp hmss).1 hns hv hb hx
    have hto : c.Onward (c₄.advance 1) := by
      refine ((Parser.Forward.onward (attributesRule_forward hg) has).trans (Parser.Forward.onward
        (modifiersRule_forward hg) hms)).trans (((c₂.advance_onward 1).trans (Cursor.advance_onward _ 1)).trans ?_)
      exact (Parser.Forward.onward (groupHeader_forward _) hheader).trans (c₄.advance_onward 1)
    refine ⟨m, n, hn.of_step hto ?_⟩
    have hblock : (expect "\x7b".toList >>= fun _ => g.atMember accessorsHere n m) c₄ = g.atMember accessorsHere n m (c₄.advance 1) :=
      bind_of_ok (expect_eq_ok.mpr ⟨hopen, rfl, rfl⟩)
    rw [← hblock, atGroup]
    refine ((bind_of_ok has).trans (bind_of_ok hms)).trans ((congrFun (if_pos hword) c₂).trans ?_)
    exact bind_of_ok hheader
  · obtain ⟨m, c₃, -, h⟩ := bind_eq_ok.mp h
    cases (pure_eq_ok.mp h).1

end Found

end Grammar

end SwiftMacros
