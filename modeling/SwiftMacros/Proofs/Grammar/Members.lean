import Mathlib
import SwiftMacros.Proofs.Grammar.Mirrors
import SwiftMacros.Setter.Property

/-! Members of a block are read alike if some white space in the source is other white space. -/

namespace SwiftMacros

open SwiftMacros.Parser

/-- The bindings tell the same, and both have accessors or none. -/
structure Binding.Like (b b' : Binding) : Prop where
  name : b.name = b'.name
  type : b.type = b'.type
  initializer : Option.Rel Expression.Like b.initializer b'.initializer
  accessors : b.accessors.isSome = b'.accessors.isSome

/-- The variables tell the same. -/
structure Variable.Like (v v' : Variable) : Prop where
  specifier : v.specifier = v'.specifier
  modifiers : v.modifiers.map Modifier.name = v'.modifiers.map Modifier.name
  bindings : List.Forall₂ Binding.Like v.bindings v'.bindings

/-- Both members are variables that tell the same, or none is a variable. -/
inductive Member.Like : Member → Member → Prop
  | binding {v v' : Variable} (h : v.Like v') : Member.Like (.binding v) (.binding v')
  | other (k x k' x' : Text) : Member.Like (.other k x) (.other k' x')

/-- The declarations have the same name, and their members tell the same. -/
structure Group.Like (d d' : Group) : Prop where
  keyword : d.keyword = d'.keyword
  name : d.name = d'.name
  members : List.Forall₂ Member.Like d.block.members d'.block.members

namespace Grammar

variable {S : Respacing} {g : Grammar} {c c' : Cursor}

/-- A binding that begins at `first`, up to its accessors. -/
def bindingHead (g : Grammar) (first : Token) : Parser Binding := do
  let name ←
    if first.kind == .identifier then pure (some (← consume).text)
    else if first.isSymbol "(" then do
      skipBalanced
      pure none
    else fail .pattern
  let pattern ← sliceFrom first
  let type ←
    if (← current).isSymbol ":" then do
      skip 1
      pure (some (← orRest g.type .raw))
    else pure none
  let initializer ←
    if (← current).has .operator "=" then do
      skip 1
      pure (some (← orRest g.expression .raw))
    else pure none
  return ⟨pattern, name, type, initializer, none, []⟩

/-- The accessors of a binding that begins at `first`, if they follow. -/
def bindingTail (first : Token) (b : Binding) : Parser Binding := do
  let brace ← current
  let accessors ←
    if brace.isSymbol "\x7b" && !brace.newlineBefore then do
      skipBalanced
      pure (some (← sliceFrom brace))
    else pure none
  return { b with accessors, text := ← sliceFrom first }

theorem bindingRule_eq (g : Grammar) :
    g.bindingRule = (current >>= fun first => g.bindingHead first >>= bindingTail first) := by
  have hite : ∀ {α : Type} (b : Bool) (p q : Parser α) (f : α → Parser Binding),
      ((if b then p else q) >>= f) = if b then p >>= f else q >>= f := by
    intro α b p q f
    cases b <;> rfl
  simp only [bindingRule, bindingHead, bindingTail, bind_assoc, pure_bind, hite]

theorem modifierFollows_mirror (h : c.Mirror S c') : modifierFollows c' = modifierFollows c := by
  simp only [modifierFollows, isDeclarationWord, (h.peek _).kind, (h.peek _).isIdentifierIn, (h.peek _).isSymbol,
    (h.peek _).space]

theorem orRest_mirrors {α : Type} {E : α → α → Prop} {p : Parser α} {raw : Text → α} (h : c.Mirror S c')
    (hp : Accord S E p p c c') (hraw : ∀ x, E (raw x) (raw x)) :
    Accord S E (orRest p raw) (orRest p raw) c c' := by
  refine .current_bind (.bind (.attempt h hp) fun o o' _ _ ho h₁ => ?_)
  cases o with
  | some a =>
    obtain ⟨a', rfl, -⟩ := Option.map_eq_some_iff.mp ho
    refine .pure h₁ rfl ?_
    rintro ⟨ha⟩
    exact ha
  | none =>
    obtain rfl : o' = none := by simpa using ho
    refine .get_bind ?_
    rw [Token.bindingLength_same h₁.ahead]
    exact .skip_bind h₁ fun h₂ => .keep h₂ h.begins (fun _ _ => rfl) fun x _ => hraw x

theorem groupHeader_mirrors {name : Text} (h : c.Mirror S c') :
    Accord S (fun _ _ => True) (groupHeader name) (groupHeader name) c c' := by
  refine (Mirrors.extend (v := fun _ => ()) (G := fun _ _ => True) (fun _ _ c₁ c₁' _ h₁ => .get_bind (.ite
    ((h₁.peek 0).isSymbol _) (fun _ => .pure h₁ rfl fun _ => .none) fun _ => .ite h₁.isEof (fun _ => .fail h₁) fun _ =>
      .ite (h₁.peek 0).isOpener (fun _ => .next (.skipBalanced h₁) fun _ _ _ _ _ h₂ => .pure h₂ rfl fun _ => .some trivial)
        fun _ => .skip_bind h₁ fun h₂ => .pure h₂ rfl fun _ => .some trivial)) rfl h).mono fun _ _ _ => trivial

variable (hg : g.Mirrored S) (h : c.Mirror S c')
include hg h

theorem bindingHead_mirrors : Accord S Binding.Like (g.bindingHead c.peek) (g.bindingHead c'.peek) c c' := by
  unfold bindingHead
  extract_lets rest rest'
  have hrest : ∀ name (c₁ c₁' : Cursor), c₁.Mirror S c₁' →
      Accord S Binding.Like (rest name) (rest' name) c₁ c₁' := by
    refine fun name c₁ c₁' h₁ => .sliceFrom_bind h₁ h.begins fun x x' => .current_bind ?_
    extract_lets rest rest'
    have hrest : ∀ type type' (c₂ c₂' : Cursor), c₂.Mirror S c₂' →
        Accord S (fun b b' => type = type' → b.Like b') (rest type) (rest' type') c₂ c₂' := by
      refine fun type type' c₂ c₂' h₂ => .current_bind ?_
      extract_lets rest rest'
      have hrest : ∀ initializer initializer' (c₃ c₃' : Cursor), c₃.Mirror S c₃' →
          Accord S (fun b b' => Option.Rel Expression.Like initializer initializer' → type = type' → b.Like b')
            (rest initializer) (rest' initializer') c₃ c₃' := fun _ _ _ _ h₃ =>
        .pure h₃ rfl fun hinitializer htype => ⟨rfl, htype, hinitializer, rfl⟩
      refine .ite ((h₂.peek 0).has (by decide) _) (fun _ => .skip_bind h₂ fun h₃ => .bind (orRest_mirrors h₃
        (hg.expression h₃) fun _ => rfl) fun e e' _ _ _ h₄ => ?_) fun _ => ?_
      · exact .pure_bind ((hrest _ _ _ _ h₄).mono fun _ _ hb he => hb (.some he))
      · exact .pure_bind ((hrest _ _ _ _ h₂).mono fun _ _ hb => hb .none)
    refine .ite ((h₁.peek 0).isSymbol _) (fun _ => .skip_bind h₁ fun h₂ => .bind (orRest_mirrors h₂ (hg.type h₂)
      fun _ => rfl) fun T T' _ _ _ h₃ => ?_) fun _ => ?_
    · exact .pure_bind ((hrest _ _ _ _ h₃).mono fun _ _ hb hT _ => hb (congrArg some hT))
    · exact .pure_bind ((hrest _ _ _ _ h₁).mono fun _ _ hb _ => hb rfl)
  refine .ite (by rw [(h.peek 0).kind]) (fun _ => .consume_bind h fun h₁ => .pure_bind ?_) fun _ => .ite
    ((h.peek 0).isSymbol _) (fun _ => .next (.skipBalanced h) fun _ _ _ _ _ h₁ => .pure_bind (hrest _ _ _ h₁)) fun _ => .fail_bind h
  rw [(h.peek 0).spelled]
  exact hrest _ _ _ h₁

omit hg in
theorem bindingTail_mirrors {first first' : Token} {b b' : Binding} :
    Accord S (fun a a' => b.Like b' → a.Like a') (bindingTail first b) (bindingTail first' b') c c' := by
  unfold bindingTail
  refine .current_bind ?_
  extract_lets rest rest'
  have hrest : ∀ accessors accessors' (c₁ c₁' : Cursor), accessors.isSome = accessors'.isSome → c₁.Mirror S c₁' →
      Accord S (fun a a' => b.Like b' → a.Like a') (rest accessors) (rest' accessors') c₁ c₁' := fun _ _ _ _ hsome h₁ =>
    .sliceFrom_next fun _ _ => .pure h₁ rfl fun hb => { hb with accessors := hsome }
  refine .ite ?_ (fun _ => .next (.skipBalanced h) fun _ _ _ _ _ h₁ => .sliceFrom_next fun x x' =>
    .pure_bind (hrest _ _ _ _ rfl h₁)) fun _ => .pure_bind (hrest _ _ _ _ rfl h)
  rw [(h.peek 0).isSymbol, (h.peek 0).newline]

theorem bindingRule_mirrors : Accord S Binding.Like g.bindingRule g.bindingRule c c' := by
  rw [bindingRule_eq]
  exact .current_bind (.bind (bindingHead_mirrors hg h) fun _ _ _ _ _ h₁ => bindingTail_mirrors h₁)

theorem modifierRule_mirrors : Accord S (fun m m' => m.name = m'.name) g.modifierRule g.modifierRule c c' := by
  refine .consume_bind h fun h₁ => ?_
  extract_lets rest rest'
  have hrest : ∀ detail detail' (c₁ c₁' : Cursor), c₁.Mirror S c₁' →
      Accord S (fun m m' => m.name = m'.name) (rest detail) (rest' detail') c₁ c₁' := fun _ _ _ _ h₂ =>
    .sliceFrom_bind h₂ h.begins fun _ _ => .next (attributesRule_mirrors hg h₂) fun _ _ _ _ _ h₃ =>
      .pure h₃ rfl fun _ => (h.peek 0).spelled.symm
  refine .get_bind (.ite ?_ (fun _ => .skip_bind h₁ fun h₂ => .consume_bind h₂ fun h₃ => .expect_bind h₃ fun h₄ =>
    .pure_bind (hrest _ _ _ _ h₄)) fun _ => .pure_bind (hrest _ _ _ _ h₁))
  rw [(h.peek 0).isIdentifierIn, parenFollows_mirror h₁]

theorem modifiersRule_mirrors : Accord S (fun ms ms' => ms.map Modifier.name = ms'.map Modifier.name)
    g.modifiersRule g.modifiersRule c c' := by
  refine ((Mirrors.collectWhile (fun _ _ h₁ => ?_) (fun _ _ h₁ _ => modifierRule_mirrors hg h₁) h).forget).mono
    fun ms ms' hms => ?_
  · exact modifierFollows_mirror h₁
  · rwa [← List.forall₂_eq_eq_eq, List.forall₂_map_left_iff, List.forall₂_map_right_iff]

theorem memberBody_mirrors {start start' : Token} {as as' : List Attribute} {ms ms' : List Modifier} : Accord S (fun m m' => ms.map Modifier.name = ms'.map Modifier.name → m.Like m')
      (g.memberBody start as ms) (g.memberBody start' as' ms') c c' := by
  refine .current_bind (.ite ((h.peek 0).isIdentifierIn _) (fun _ => .skip_bind h fun h₁ => .bind (.separated
    (s := fun _ => ()) (fun _ _ h₂ => bindingRule_mirrors hg h₂) h₁) fun _ _ _ _ _ h₂ => .sliceFrom_next fun _ _ =>
      .pure h₂ rfl fun hbs hms => .binding ⟨(h.peek 0).spelled.symm, hms, hbs⟩) fun _ => .get_bind ?_)
  rw [Token.memberLength_same h.ahead]
  exact .skip_bind h fun h₁ => .get_bind (.pure h₁ rfl fun _ => .other _ _ _ _)

theorem memberRule_mirrors : Accord S Member.Like g.memberRule g.memberRule c c' :=
  .current_bind (.next (attributesRule_mirrors hg h) fun _ _ _ _ _ h₁ => .bind (modifiersRule_mirrors hg h₁)
    fun _ _ _ _ _ h₂ => memberBody_mirrors hg h₂)

theorem blockItem_mirrors : Mirrors S (Option.map fun _ => ()) (Option.Rel (List.Forall₂ Member.Like)) g.blockItem
    g.blockItem c c' := by
  refine .get_bind (.ite ((h.peek 0).isSymbol _) (fun _ => .pure h rfl .none) fun _ => .ite h.isEof
    (fun _ => .fail h) fun _ => .ite ((h.peek 0).isSymbol _) (fun _ => .skip_bind h fun h₁ => .pure h₁ rfl (.some .nil))
      fun _ => .bind (memberRule_mirrors hg h) fun _ _ _ _ _ h₁ => .get_bind ?_)
  rw [h.position, h₁.position]
  split
  · exact .skip_bind h₁ fun h₂ => .pure h₂ rfl fun hm => .some (.cons hm .nil)
  · exact .pure h₁ rfl fun hm => .some (.cons hm .nil)

end Grammar

end SwiftMacros
