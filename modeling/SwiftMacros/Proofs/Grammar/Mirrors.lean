import Mathlib
import SwiftMacros.Proofs.Parser.Mirrors
import SwiftMacros.Proofs.Grammar.Twins
import SwiftMacros.Proofs.Grammar.Declaration

/-! The grammar reads a source alike if some white space in it is other white space. Types are the same, and so
is what is told of expressions: their text and their signature, but not where macros stand in them. -/

namespace SwiftMacros

open SwiftMacros.Parser

/-- What a sequence is told by an element of it: that it is a cast, or the type behind one. -/
def Expression.link? : Expression → Option (Option TypeTree)
  | .cast _ _ => some none
  | .typeOperand type _ => some (some type)
  | _ => none

/-- What an expression tells, but for places in the source. -/
def Expression.gist (e : Expression) : Text × Text × Option (Option TypeTree) :=
  (e.signature, e.toText, e.link?)

/-- The expressions tell the same. -/
def Expression.Like (e e' : Expression) : Prop := e.gist = e'.gist

/-- The closures tell the same by what stands before their `in`. -/
def Signature.Like (s s' : Signature) : Prop := s.parameters = s'.parameters ∧ s.result = s'.result

theorem Signature.ofClosure_like {o o' : Option Signature} (h : Option.Rel Signature.Like o o') :
    Signature.ofClosure o = Signature.ofClosure o' := by
  have hread : ∀ s : Signature, Signature.ofClosure (some s) =
      Signature.ofClosure (some ⟨none, s.parameters, [], s.result, [], []⟩) := fun _ => rfl
  cases h with
  | none => rfl
  | some hs => rw [hread, hs.1, hs.2, ← hread]

def Closure.Like (k k' : Closure) : Prop :=
  Signature.ofClosure k.signature = Signature.ofClosure k'.signature ∧ k.toText = k'.toText

def Argument.Like (a a' : Argument) : Prop := a.label = a'.label ∧ a.expression.Like a'.expression

def Entry.Like (e e' : Entry) : Prop := e.key.Like e'.key ∧ e.value.Like e'.value

section Signatures

open Signature (castType?)

theorem Expression.Like.signature {e e' : Expression} (h : e.Like e') : e.signature = e'.signature :=
  congrArg Prod.fst h

theorem Expression.Like.toText {e e' : Expression} (h : e.Like e') : e.toText = e'.toText :=
  congrArg (fun g : Text × Text × Option (Option TypeTree) => g.2.1) h

theorem Expression.Like.link? {e e' : Expression} (h : e.Like e') : e.link? = e'.link? :=
  congrArg (fun g : Text × Text × Option (Option TypeTree) => g.2.2) h

theorem signatures_like {es es' : List Expression} (h : List.Forall₂ Expression.Like es es') :
    signatures es = signatures es' := by
  induction h with
  | nil => rfl
  | cons he _ ih => rw [signatures, signatures, he.signature, ih]

theorem entrySignatures_like {es es' : List Entry} (h : List.Forall₂ Entry.Like es es') :
    entrySignatures es = entrySignatures es' := by
  have hcons : ∀ e es, entrySignatures (e :: es) = (e.key.signature, e.value.signature) :: entrySignatures es := by
    intro e es
    obtain ⟨key, value, text⟩ := e
    rfl
  induction h with
  | nil => rfl
  | cons he _ ih => rw [hcons, hcons, he.1.signature, he.2.signature, ih]

theorem argumentSignatures_like {as as' : List Argument} (h : List.Forall₂ Argument.Like as as') :
    argumentSignatures as = argumentSignatures as' := by
  have hcons : ∀ a as, argumentSignatures (a :: as) =
      (a.label.elim [] (· ++ ": ".toList) ++ a.expression.signature) :: argumentSignatures as := by
    intro a as
    obtain ⟨e, label, text⟩ := a
    cases label <;> rfl
  induction h with
  | nil => rfl
  | cons ha _ ih => rw [hcons, hcons, ha.1, ha.2.signature, ih]

/-- A cast is told by its links. -/
theorem castType?_cons {e : Expression} {es : List Expression} : castType? (e :: es) =
    (if e.link?.any Option.isNone then (es.head?.bind (Expression.link? ·)).join else none).or (castType? es) := by
  cases e with
  | cast =>
    cases es with
    | nil => rfl
    | cons e _ => cases e <;> rfl
  | _ => rfl

theorem castType?_like {es es' : List Expression} (h : List.Forall₂ Expression.Like es es') :
    castType? es = castType? es' := by
  induction h with
  | nil => rfl
  | cons he hes ih =>
    rw [castType?_cons, castType?_cons, he.link?, ih]
    cases hes with
    | nil => rfl
    | cons he _ => rw [List.head?_cons, List.head?_cons, Option.bind_some, Option.bind_some, he.link?]

namespace Expression.Like

/-- Expressions are told by their signature, their text, and what they are in a sequence. -/
theorem of {e e' : Expression} (hs : e.signature = e'.signature) (ht : e.toText = e'.toText)
    (hl : e.link? = e'.link?) : e.Like e' := Prod.ext hs (Prod.ext ht hl)

theorem array {es es' : List Expression} (h : List.Forall₂ Expression.Like es es') (x : Text) :
    (Expression.array es x).Like (.array es' x) :=
  .of (congrArg (fun ts => '[' :: (Signature.common? ts).getD "Any".toList ++ [']']) (signatures_like h)) rfl rfl

theorem dictionary {es es' : List Entry} (h : List.Forall₂ Entry.Like es es') (x : Text) :
    (Expression.dictionary es x).Like (.dictionary es' x) :=
  .of (congrArg (fun ts : List (Text × Text) =>
    '[' :: (Signature.common? (ts.map Prod.fst)).getD "AnyHashable".toList ++ ": ".toList ++
      (Signature.common? (ts.map Prod.snd)).getD "Any".toList ++ [']']) (entrySignatures_like h)) rfl rfl

theorem tuple {as as' : List Argument} (h : List.Forall₂ Argument.Like as as') (x : Text) :
    (Expression.tuple as x).Like (.tuple as' x) :=
  .of (congrArg (fun ts => '(' :: Text.join ", ".toList ts ++ [')']) (argumentSignatures_like h)) rfl rfl

theorem closure {k k' : Closure} (h : k.Like k') : (Expression.closure k).Like (.closure k') := .of h.1 h.2 rfl

theorem call {e e' : Expression} (h : e.Like e') (as as' : List Argument) (o o' : Option Closure) (b : Bool) (x : Text) :
    (Expression.call e as o b x).Like (.call e' as' o' b x) := .of (congrArg Text.trim h.toText) rfl rfl

theorem sequence {es es' : List Expression} (h : List.Forall₂ Expression.Like es es') (x : Text) :
    (Expression.sequence es x).Like (.sequence es' x) :=
  .of (congrArg (fun o : Option TypeTree => (o.map TypeTree.signature).getD "Any".toList) (castType?_like h)) rfl rfl

end Expression.Like

end Signatures

/-- A grammar that reads both sources alike. -/
structure Grammar.Mirrored (g : Grammar) (S : Respacing) : Prop where
  reliable : g.Reliable
  type : ∀ {c c' : Cursor}, c.Mirror S c' → Accord S Eq g.type g.type c c'
  constraint : ∀ {c c' : Cursor}, c.Mirror S c' → Accord S Eq g.constraint g.constraint c c'
  expression : ∀ {c c' : Cursor}, c.Mirror S c' → Accord S Expression.Like g.expression g.expression c c'
  operand : ∀ {c c' : Cursor}, c.Mirror S c' → Accord S Expression.Like g.operand g.operand c c'

namespace Grammar

variable {S : Respacing} {g : Grammar} {c c' : Cursor}

section Looks

variable (h : c.Mirror S c')
include h

theorem parenFollows_mirror : parenFollows c' = parenFollows c := by
  rw [parenFollows, parenFollows, (h.peek 0).isSymbol, (h.peek 0).space]

theorem genericsFollow_mirror : genericsFollow c' = genericsFollow c := by
  rw [genericsFollow, genericsFollow, (h.peek 0).isOperatorWith, (h.peek 0).space]

theorem qualifiesType_mirror : qualifiesType c'.peek = qualifiesType c.peek := by
  rw [qualifiesType, qualifiesType, (h.peek 0).kind, (h.peek 0).isIdentifierIn]

theorem markFollows_mirror : (c'.peek.isMark && !c'.peek.spaceBefore) = (c.peek.isMark && !c.peek.spaceBefore) := by
  rw [(h.peek 0).isMark, (h.peek 0).space]

end Looks

section Annotations

theorem effects_mirrors (h : c.Mirror S c') : Mirrors S List.isEmpty Eq effects effects c c' := by
  have hagree : Accord S Eq effects effects c c' := by
    refine .bind (.collectWhile (s := fun _ => ()) (E := Eq) (fun _ _ h₁ => (h₁.peek 0).isIdentifierIn _) (fun c₁ c₁' h₁ _ => ?_) h)
      fun parts parts' _ _ _ h₁ => .pure h₁ rfl fun hparts => ?_
    · refine .consume_bind h₁ fun h₂ => .get_bind (.ite ?_ (fun _ => .next (.skipBalanced h₂) fun _ _ _ _ _ h₃ =>
        .sliceFrom h₃ h₁.begins) fun _ => .sliceFrom h₂ h₁.begins)
      rw [(h₁.peek 0).spelled, parenFollows_mirror h₂]
    · rw [List.forall₂_eq_eq_eq] at hparts
      rw [hparts]
  cases he : isEffect c.peek with
  | false =>
    have he' : isEffect c'.peek = false := ((h.peek 0).isIdentifierIn _).trans he
    exact .stay h rfl (fun _ => rfl) (effects_of_not he) (effects_of_not he')
  | true =>
    refine ⟨fun x c₁ hx => ?_, hagree.error⟩
    obtain ⟨x', c₁', hx', -, h₁, hl, hE⟩ := hagree.ok x c₁ hx
    have hne := effects_ne_nil h.sound he hx
    have hne' := effects_ne_nil h.sound' (((h.peek 0).isIdentifierIn _).trans he) hx'
    exact ⟨x', c₁', hx', by rw [List.isEmpty_eq_false_iff.mpr hne, List.isEmpty_eq_false_iff.mpr hne'], h₁, hl, hE⟩

theorem elementLabel_mirrors (h : c.Mirror S c') : Accord S Eq elementLabel elementLabel c c' := by
  refine .get_bind (.ite ?_ (fun _ => .skip_bind h fun h₁ => .pure h₁ rfl ?_) fun _ => .ite ?_ (fun _ =>
    .skip_bind h fun h₁ => .sliceFrom_bind h₁ h.begins fun x x' => .skip_bind h₁ fun h₂ => .pure h₂ rfl ?_)
      fun _ => .pure h rfl rfl)
  · rw [(h.peek 0).kind, (h.peek 1).isSymbol]
  · rw [(h.peek 0).spelled]
  · rw [(h.peek 0).kind, (h.peek 1).kind, (h.peek 2).isSymbol]
  · exact congrArg some

theorem skipEllipsis_mirrors (h : c.Mirror S c') :
    Accord S (fun _ _ => True) skipEllipsis skipEllipsis c c' :=
  .current_bind (.ite ((h.peek 0).has (by decide) _) (fun _ => .skip h) fun _ => .pure h rfl trivial)

variable (hg : g.Mirrored S) (h : c.Mirror S c')
include hg h

theorem arguments_mirrors (first last : String) : Accord S (List.Forall₂ Argument.Like) (g.arguments first last)
    (g.arguments first last) c c' := by
  refine (Mirrors.bracketed (s := fun _ => ()) (fun c₁ c₁' h₁ => ?_) h).forget
  refine .get_bind ?_
  extract_lets start finish start' finish'
  have hfinish : ∀ label c₂ c₂', c₂.Mirror S c₂' →
      Accord S Argument.Like (finish label) (finish' label) c₂ c₂' := fun label c₂ c₂' h₂ =>
    .bind (hg.expression h₂) fun e e' c₃ c₃' _ h₃ => .keep h₃ h₁.begins (fun _ _ => rfl) fun _ he => ⟨rfl, he⟩
  refine .ite ?_ (fun _ => .skip_bind h₁ fun h₂ => ?_) fun _ => hfinish none _ _ h₁
  · rw [(h₁.peek 0).kind, (h₁.peek 1).isSymbol]
  · rw [show start'.text = start.text from (h₁.peek 0).spelled]
    exact hfinish _ _ _ h₂

theorem attributeRule_mirrors : Accord S (fun a a' => a.text = a'.text) g.attributeRule g.attributeRule c c' := by
  unfold attributeRule
  refine .consume_bind h fun h₁ => ?_
  extract_lets finish rest finish' rest'
  have hfinish : ∀ arguments arguments' c₂ c₂', c₂.Mirror S c₂' →
      Accord S (fun a a' => a.text = a'.text) (finish arguments) (finish' arguments') c₂ c₂' :=
    fun _ _ _ _ h₂ => .sliceFrom_bind h₂ h.begins fun _ _ => .get_bind (.pure h₂ rfl id)
  refine .ite (by rw [(h.peek 0).kind]) (fun _ => (Mirrors.throw h₁).of_eq rfl rfl) fun _ => .get_bind
    (.ite (parenFollows_mirror h₁) (fun _ => ?_) fun _ => hfinish _ _ _ _ h₁)
  refine .next (.attempt h₁ (arguments_mirrors hg h₁ _ _)) fun o o' c₂ c₂' ho h₂ => ?_
  cases o with
  | none =>
    obtain rfl : o' = none := by simpa using ho
    exact .next (.skipBalanced h₂) fun _ _ _ _ _ h₃ => hfinish _ _ _ _ h₃
  | some as =>
    obtain ⟨as', rfl, -⟩ := Option.map_eq_some_iff.mp ho
    exact hfinish _ _ _ _ h₂

theorem attributesRule_mirrors : Accord S (fun as as' => as.map Attribute.text = as'.map Attribute.text)
    g.attributesRule g.attributesRule c c' := by
  refine ((Mirrors.collectWhile (fun _ _ h₁ => by rw [(h₁.peek 0).kind])
    (fun _ _ h₁ _ => attributeRule_mirrors hg h₁) h).forget).mono fun as as' has => ?_
  rwa [← List.forall₂_eq_eq_eq, List.forall₂_map_left_iff, List.forall₂_map_right_iff]

theorem genericClause_mirrors : Accord S Eq g.genericClause g.genericClause c c' :=
  .consumeOperator_bind (m := '<') h rfl fun _ _ _ _ ht h₁ => .next (.separated (fun _ _ h₂ => hg.type h₂) h₁)
    fun _ _ _ _ _ h₂ => .consumeOperator_bind (m := '>') h₂ rfl fun _ _ _ _ _ h₃ => .sliceFrom h₃ ht

theorem namedType_mirrors : Accord S Eq g.namedType g.namedType c c' := by
  unfold namedType
  refine .consume_bind h fun h₁ => .get_bind ?_
  extract_lets members members'
  have hmembers : ∀ generics generics' c₂ c₂', c₂.Mirror S c₂' →
      Accord S (fun T T' => generics = generics' → T = T') (members generics) (members' generics') c₂ c₂' := by
    refine fun generics generics' c₂ c₂' h₂ => .sliceFrom_bind h₂ h.begins fun x x' => ?_
    refine (Mirrors.extend (v := fun _ => ()) (G := Eq) (fun node node' c₃ c₃' _ h₃ => .get_bind (.ite ?_
      (fun _ => .skip_bind h₃ fun h₄ => .get_bind (.ite (genericsFollow_mirror h₄) (fun _ => ?_) fun _ => ?_))
      fun _ => .pure h₃ rfl fun _ => .none)) rfl h₂).mono fun T T' hT hx hgenerics => hT ?_
    · rw [(h₃.peek 0).kind, (h₃.peek 1).kind, isMetatypeName, isMetatypeName, (h₃.peek 1).isIdentifierIn]
    · refine .next (genericClause_mirrors hg h₄) fun _ _ _ _ _ h₅ => .keep h₅ h.begins (fun _ _ => rfl) fun x hnode => ?_
      rw [hnode, (h₃.peek 1).spelled]
      exact .some rfl
    · refine .keep h₄ h.begins (fun _ _ => rfl) fun x hnode => ?_
      rw [hnode, (h₃.peek 1).spelled]
      exact .some rfl
    · rw [hx, hgenerics, (h.peek 0).spelled]
  exact .ite (genericsFollow_mirror h₁) (fun _ => .bind (genericClause_mirrors hg h₁) fun _ _ _ _ _ h₂ =>
    hmembers _ _ _ _ h₂) fun _ => .pure_bind ((hmembers _ _ _ _ h₁).mono fun _ _ hT => hT rfl)

theorem tupleOrFunctionType_mirrors : Accord S Eq g.tupleOrFunctionType g.tupleOrFunctionType c c' := by
  refine .current_bind (.bind (.bracketed (s := fun _ => ()) (E := Eq) (fun c₁ c₁' h₁ => ?_) h) fun as as' c₁ c₁' _ h₁ =>
    .bind (effects_mirrors h₁) fun x x' c₂ c₂' hx h₂ => .current_bind (.ite ((h₂.peek 0).has (by decide) _)
      (fun _ => ?_) fun _ => .ite (by rw [hx]) (fun _ => .fail h₂) fun _ => ?_))
  · refine .current_bind (.bind (elementLabel_mirrors h₁) fun _ _ _ _ _ h₂ => .bind (hg.type h₂) fun _ _ _ _ _ h₃ =>
      .next (skipEllipsis_mirrors h₃) fun _ _ _ _ _ h₄ => .keep h₄ h₁.begins (fun _ _ => rfl) ?_)
    rintro x rfl rfl
    rfl
  · refine .skip_bind h₂ fun h₃ => .bind (hg.type h₃) fun _ _ _ _ _ h₄ => .keep h₄ h.begins (fun _ _ => rfl) ?_
    rintro y rfl rfl has
    rw [List.forall₂_eq_eq_eq] at has
    rw [has]
  · refine .keep h₂ h.begins (fun _ _ => rfl) ?_
    rintro y rfl has
    rw [List.forall₂_eq_eq_eq] at has
    rw [has]

theorem collectionType_mirrors : Accord S Eq g.collectionType g.collectionType c c' := by
  refine .consume_bind h fun h₁ => .bind (hg.type h₁) fun _ _ _ _ _ h₂ => .current_bind (.ite ((h₂.peek 0).isSymbol _)
    (fun _ => .skip_bind h₂ fun h₃ => .bind (hg.type h₃) fun _ _ _ _ _ h₄ => .expect_bind h₄ fun h₅ =>
      .keep h₅ h.begins (fun _ _ => rfl) ?_) fun _ => .expect_bind h₂ fun h₃ => .keep h₃ h.begins (fun _ _ => rfl) ?_)
  · rintro x rfl rfl
    rfl
  · rintro x rfl
    rfl

omit hg in
theorem typeSuffixes_mirrors {start start' : Token} (hs : S.Begins start start') {base base' : TypeTree} :
    Accord S (fun T T' => base = base' → T = T') (typeSuffixes start base) (typeSuffixes start' base') c c' := by
  refine Mirrors.extend (v := fun _ => ()) (G := Eq) (fun node node' c₁ c₁' _ h₁ => .get_bind (.ite
    (markFollows_mirror h₁) (fun hm => ?_) fun _ => .ite ?_ (fun _ => .skip_bind h₁ fun h₂ => ?_)
      fun _ => .pure h₁ rfl fun _ => .none)) rfl h
  · rw [Bool.and_eq_true] at hm
    refine .consumePart_bind h₁ (.inl hm.1) fun t t' _ _ ht h₂ => .keep h₂ hs (fun _ _ => rfl) ?_
    rintro x rfl
    rw [ht.same.spelled]
    exact .some rfl
  · rw [(h₁.peek 0).kind, isMetatypeName, isMetatypeName, (h₁.peek 1).isIdentifierIn]
  · refine .keep h₂ hs (fun _ _ => rfl) ?_
    rintro x rfl
    rw [(h₁.peek 1).spelled]
    exact .some rfl

theorem simpleType_mirrors : Accord S Eq g.simpleType g.simpleType c c' :=
  .current_bind (.ite ((h.peek 0).isSymbol _) (fun _ => tupleOrFunctionType_mirrors hg h) fun _ =>
    .ite ((h.peek 0).isSymbol _) (fun _ => collectionType_mirrors hg h) fun _ =>
      .ite ((h.peek 0).kind_beq _) (fun _ => namedType_mirrors hg h) fun _ => .fail h)

theorem constraintRule_mirrors : Accord S Eq g.constraintRule g.constraintRule c c' := by
  refine .get_bind (.ite (qualifiesType_mirror h) (fun _ => .bind (.collectWhile (s := fun _ => ()) (E := Eq)
    (fun _ _ h₁ => qualifiesType_mirror h₁) (fun c₁ c₁' h₁ _ => .current_bind (.ite ((h₁.peek 0).kind_beq _)
      (fun _ => .bind (attributeRule_mirrors hg h₁) fun _ _ _ _ _ h₂ => .pure h₂ rfl id) fun _ =>
        .consume_bind h₁ fun h₂ => .pure h₂ rfl (h₁.peek 0).spelled.symm)) h) fun as as' _ _ _ h₁ =>
          .bind (hg.type h₁) fun _ _ _ _ _ h₂ => .keep h₂ h.begins (fun _ _ => rfl) ?_) fun _ => .ite ?_
            (fun _ => .skip_bind h fun h₁ => .bind (hg.constraint h₁) fun _ _ _ _ _ h₂ =>
              .keep h₂ h.begins (fun _ _ => rfl) ?_) fun _ => .bind (simpleType_mirrors hg h) fun _ _ _ _ _ h₁ =>
                typeSuffixes_mirrors h₁ h.begins)
  · rintro x rfl has
    rw [List.forall₂_eq_eq_eq] at has
    rw [has]
  · rw [(h.peek 0).isIdentifierIn, typeFollows, typeFollows, (h.peek 1).newline, (h.peek 1).kind, (h.peek 1).isSymbolIn]
  · rintro x rfl
    rw [(h.peek 0).spelled]

theorem typeRule_mirrors : Accord S Eq g.typeRule g.typeRule c c' := by
  refine .current_bind (.bind (constraintRule_mirrors hg h) fun T T' _ _ _ h₁ => .bind (.collectWhile
    (fun _ _ h₂ => (h₂.peek 0).has (by decide) _) (fun _ _ h₂ _ => .skip_bind h₂ fun h₃ => constraintRule_mirrors hg h₃)
      h₁) fun Ts Ts' _ _ hTs h₂ => .ite ?_ (fun _ => .pure h₂ rfl fun _ => id) fun _ =>
        .keep h₂ h.begins (fun _ _ => rfl) ?_)
  · rw [← List.isEmpty_map (l := Ts'), hTs, List.isEmpty_map]
  · rintro x hTs rfl
    rw [List.forall₂_eq_eq_eq] at hTs
    rw [hTs]

end Annotations

section Closures

theorem captureSpecifier_mirrors (h : c.Mirror S c') :
    Accord S (fun _ _ => True) captureSpecifier captureSpecifier c c' := by
  refine .get_bind (.ite ?_ (fun _ => .skip_bind h fun h₁ => .get_bind (.ite (parenFollows_mirror h₁) (fun _ =>
    .next (.skipBalanced h₁) fun _ _ _ _ _ h₂ => .keep h₂ h.begins (fun _ _ => rfl) fun _ => trivial) fun _ =>
      .keep h₁ h.begins (fun _ _ => rfl) fun _ => trivial)) fun _ => .pure h rfl trivial)
  rw [(h.peek 0).isIdentifierIn, (h.peek 1).kind, (h.peek 0).spelled, (h.peek 1).isSymbol]

theorem captureName_mirrors (h : c.Mirror S c') : Accord S (fun _ _ => True) captureName captureName c c' := by
  refine .get_bind (.ite ?_ (fun _ => .skip_bind h fun h₁ => .pure h₁ rfl trivial) fun _ => .pure h rfl trivial)
  rw [(h.peek 0).kind, (h.peek 1).has (by decide)]

/-- The statements of both bodies take as many tokens. -/
theorem statements_mirrors (h : c.Mirror S c') : Accord S (fun _ _ => True) statements statements c c' := by
  have hsome : ∀ {d : Cursor} {n : Nat}, Token.bodyLength? 0 d.ahead = some n →
      ∃ ss, statements d = .ok ss (d.advance n) := by
    intro d n hn
    let start := d.previous.stop + ((d.source.drop d.previous.stop).takeWhile Text.isBlank).length
    have hlength := (Token.statementsFrom_length d.source d.eof { start } d.ahead).trans hn
    obtain ⟨⟨ss, k⟩, hss, rfl⟩ := Option.map_eq_some_iff.mp hlength
    refine ⟨ss, ?_⟩
    rw [statements, run_get_bind, hss]
    rfl
  have hnone : ∀ {d : Cursor}, Token.bodyLength? 0 d.ahead = none →
      statements d = (skip d.ahead.length >>= fun _ => fail .closureEnd) d := by
    intro d hn
    let start := d.previous.stop + ((d.source.drop d.previous.stop).takeWhile Text.isBlank).length
    have hlength := (Token.statementsFrom_length d.source d.eof { start } d.ahead).trans hn
    rw [statements, run_get_bind, Option.map_eq_none_iff.mp hlength]
  have hlength := Token.bodyLength_same h.ahead 0
  cases hn : Token.bodyLength? 0 c.ahead with
  | some n =>
    obtain ⟨ss, hss⟩ := hsome hn
    obtain ⟨ss', hss'⟩ := hsome (hlength.trans hn)
    exact .step (h.sound.advance n) (.pure (a := ss) (h.advance n) rfl trivial) hss hss'
  | none =>
    have hfail := hnone (hlength.trans hn)
    rw [← h.ahead.length_eq] at hfail
    exact .of_eq (.skip_bind h fun h₁ => .fail h₁) (hnone hn) hfail

/-- The same words come behind the brace. -/
theorem accessorsFollow_mirror (h : c.Mirror S c') : accessorsFollow c' = accessorsFollow c := by
  have hhead : ∀ {ts ts' : List Token}, List.Forall₂ (Token.Same S) ts ts' →
      Token.Same S (ts.head?.getD c.eof) (ts'.head?.getD c'.eof) := by
    intro ts ts' hts
    cases hts with
    | nil => exact h.eof
    | cons ht _ => exact ht
  have hinner : ∀ {ts ts' : List Token}, List.Forall₂ (Token.Same S) ts ts' →
      List.Forall₂ (Token.Same S) (ts.dropWhile (·.kind == .atName)) (ts'.dropWhile (·.kind == .atName)) := by
    intro ts ts' hts
    induction hts with
    | nil => exact .nil
    | cons ht hts ih =>
      rw [List.dropWhile_cons, List.dropWhile_cons, ht.kind]
      split
      · exact ih
      · exact .cons ht hts
  have hwords := hinner (List.forall₂_drop 1 h.ahead)
  rw [accessorsFollow, accessorsFollow, (hhead hwords).isIdentifierIn,
    (hhead (List.forall₂_drop 1 hwords)).isSymbolIn]

theorem closureFollows_mirror (h : c.Mirror S c') : closureFollows c' = closureFollows c := by
  rw [closureFollows, closureFollows, (h.peek 0).isSymbol, (h.peek 0).newline, accessorsFollow_mirror h]

variable (hg : g.Mirrored S) (h : c.Mirror S c')
include hg h

theorem captureClause_mirrors : Accord S (fun _ _ => True) g.captureClause g.captureClause c c' :=
  .current_bind (.next (.bracketed (s := fun _ => ()) (E := fun _ _ => True) (fun _ _ h₁ => .current_bind (.next
    (captureSpecifier_mirrors h₁) fun _ _ _ _ _ h₂ => .next (captureName_mirrors h₂) fun _ _ _ _ _ h₃ => .next
      (hg.expression h₃) fun _ _ _ _ _ h₄ => .keep h₄ h₁.begins (fun _ _ => rfl) fun _ => trivial)) h)
        fun _ _ _ _ _ h₁ => .keep h₁ h.begins (fun _ _ => rfl) fun _ => trivial)

theorem closureParameter_mirrors : Accord S Eq g.closureParameter g.closureParameter c c' := by
  unfold closureParameter
  refine .current_bind ?_
  extract_lets type rest type' rest'
  have htype : ∀ name (c₁ c₁' : Cursor), c₁.Mirror S c₁' → Accord S Eq (type name) (type' name) c₁ c₁' := by
    refine fun name c₁ c₁' h₁ => .current_bind (.ite ((h₁.peek 0).isSymbol _) (fun _ => .skip_bind h₁ fun h₂ => ?_)
      fun _ => .keep h₁ h.begins (fun _ _ => rfl) fun _ => rfl)
    refine .bind (hg.type h₂) fun T T' _ _ _ h₃ => .next (skipEllipsis_mirrors h₃) fun _ _ _ _ _ h₄ => .pure_bind
      (.keep h₄ h.begins (fun _ _ => rfl) ?_)
    rintro x rfl
    rfl
  refine .ite (by rw [(h.peek 0).kind]) (fun _ => .fail_bind h) fun _ => .consume_bind h fun h₁ => .current_bind
    (.ite (by rw [(h₁.peek 0).kind]) (fun _ => .consume_bind h₁ fun h₂ => ?_) fun _ => ?_)
  · rw [(h₁.peek 0).spelled]
    exact htype _ _ _ h₂
  · rw [(h.peek 0).spelled]
    exact htype _ _ _ h₁

theorem closureParameters_mirrors : Accord S Eq g.closureParameters g.closureParameters c c' := by
  refine .current_bind (.ite ((h.peek 0).isSymbol _) (fun _ => .bind (.bracketed (s := fun _ => ()) (E := Eq)
    (fun _ _ h₁ => closureParameter_mirrors hg h₁) h) fun _ _ _ _ _ h₁ => .keep h₁ h.begins (fun _ _ => rfl) ?_)
      fun _ => .ite ?_ (fun _ => .bind (.separated (s := fun _ => ()) (E := Eq) (fun c₁ c₁' h₁ => .current_bind (.ite
        ((h₁.peek 0).kind_beq _) (fun _ => .consume_bind h₁ fun h₂ => .pure h₂ rfl (h₁.peek 0).spelled.symm)
          fun _ => .fail h₁)) h) fun _ _ _ _ _ h₁ => .keep h₁ h.begins (fun _ _ => rfl) ?_) fun _ => .pure h rfl rfl)
  · intro x has
    rw [List.forall₂_eq_eq_eq] at has
    rw [has]
  · rw [(h.peek 0).kind, isEffect, isEffect, (h.peek 0).isIdentifierIn, (h.peek 0).spelled]
  · intro x has
    rw [List.forall₂_eq_eq_eq] at has
    rw [has]

theorem returnClause_mirrors : Accord S Eq g.returnClause g.returnClause c c' := by
  refine .current_bind (.ite ((h.peek 0).has (by decide) _) (fun _ => .skip_bind h fun h₁ => .bind (hg.type h₁)
    fun _ _ _ _ _ h₂ => .keep h₂ h.begins (fun _ _ => rfl) ?_) fun _ => .pure h rfl rfl)
  rintro x rfl
  rfl

theorem closureSignature_mirrors : Accord S Signature.Like g.closureSignature g.closureSignature c c' := by
  unfold closureSignature
  refine .current_bind (.next (attributesRule_mirrors hg h) fun _ _ c₁ c₁' _ h₁ => .current_bind ?_)
  extract_lets rest rest'
  have hrest : ∀ capture capture' (c₂ c₂' : Cursor), c₂.Mirror S c₂' →
      Accord S Signature.Like (rest capture) (rest' capture') c₂ c₂' := by
    refine fun _ _ _ _ h₂ => .bind (closureParameters_mirrors hg h₂) fun _ _ _ _ _ h₃ => .next (effects_mirrors h₃)
      fun _ _ _ _ _ h₄ => .bind (returnClause_mirrors hg h₄) fun _ _ _ _ _ h₅ => .current_bind (.ite
        ((h₅.peek 0).isIdentifierIn _) (fun _ => .skip_bind h₅ fun h₆ => .keep h₆ h.begins (fun _ _ => rfl) ?_)
          fun _ => .fail h₅)
    exact fun _ hresult hparameters => ⟨hparameters, hresult⟩
  exact .ite ((h₁.peek 0).isSymbol _) (fun _ => .next (captureClause_mirrors hg h₁) fun _ _ _ _ _ h₂ =>
    hrest _ _ _ _ h₂) fun _ => hrest _ _ _ _ h₁

theorem closureRule_mirrors : Accord S Closure.Like g.closureRule g.closureRule c c' := by
  refine ((Mirrors.expect_bind h fun h₁ => .bind (.attempt h₁ (closureSignature_mirrors hg h₁)) fun o o' _ _ _ h₂ =>
    .next (statements_mirrors h₂) fun _ _ _ _ _ h₃ => .expect_bind h₃ fun h₄ => .keep h₄ h.begins
      (fun _ _ => rfl) fun x ho => ?_ : Accord S (fun k k' => Option.Rel Signature.Like k.signature k'.signature ∧
        k.text = k'.text) g.closureRule g.closureRule c c').known (closureRule_spec hg.reliable h.sound)).mono ?_
  · exact ⟨ho, rfl⟩
  · rintro ⟨o, ss, x, u⟩ ⟨o', ss', x', u'⟩ ⟨⟨ho, hx⟩, c₁, hl, hk⟩
    obtain ⟨d, y, rfl⟩ : ∃ d y, x = d :: y :=
      List.exists_cons_of_ne_nil fun hnil => hl.upTo_ne_nil hk.lt (hk.text.symm.trans hnil)
    obtain rfl : d :: y = x' := hx
    exact ⟨Signature.ofClosure_like ho, rfl⟩

theorem trailingClosure_mirrors : Accord S (fun _ _ => True) g.trailingClosure g.trailingClosure c c' :=
  .get_bind (.ite (closureFollows_mirror h) (fun _ => .next (closureRule_mirrors hg h) fun _ _ _ _ _ h₁ =>
    .pure h₁ rfl trivial) fun _ => .pure h rfl trivial)

theorem specializationClause_mirrors : Accord S Eq g.specializationClause g.specializationClause c c' := by
  refine .bind (genericClause_mirrors hg h) fun _ _ _ _ _ h₁ => .current_bind (.ite ?_ (fun _ => .pure h₁ rfl id)
    fun _ => .fail h₁)
  rw [(h₁.peek 0).kind, (h₁.peek 0).newline, (h₁.peek 0).isSymbolIn]

theorem expansionRule_mirrors : Accord S (fun e e' => e.text = e'.text) g.expansionRule g.expansionRule c c' := by
  unfold expansionRule
  refine .consume_bind h fun h₁ => ?_
  extract_lets trailing arguments rest trailing' arguments' rest'
  have htrailing : ∀ as as' (c₂ c₂' : Cursor), c₂.Mirror S c₂' →
      Accord S (fun e e' => e.text = e'.text) (trailing as) (trailing' as') c₂ c₂' := fun _ _ _ _ h₂ =>
    .next (trailingClosure_mirrors hg h₂) fun _ _ _ _ _ h₃ => .sliceFrom_bind h₃ h.begins fun _ _ =>
      .get_bind (.pure h₃ rfl id)
  have harguments : ∀ c₂ c₂' : Cursor, c₂.Mirror S c₂' →
      Accord S (fun e e' => e.text = e'.text) (arguments ()) (arguments' ()) c₂ c₂' := by
    refine fun c₂ c₂' h₂ => .current_bind (.ite ?_ (fun _ => .next (arguments_mirrors hg h₂ _ _) fun _ _ _ _ _ h₃ =>
      htrailing _ _ _ _ h₃) fun _ => htrailing _ _ _ _ h₂)
    rw [(h₂.peek 0).isSymbol, (h₂.peek 0).newline]
  refine .ite (by rw [(h.peek 0).kind]) (fun _ => (Mirrors.throw h₁).of_eq rfl rfl) fun _ => .get_bind
    (.ite (genericsFollow_mirror h₁) (fun _ => .next (.attempt h₁ (specializationClause_mirrors hg h₁))
      fun _ _ _ _ _ h₂ => harguments _ _ h₂) fun _ => harguments _ _ h₁)

end Closures

section Expressions

theorem isBinary_mirror (h : c.Mirror S c') : isBinary c' = isBinary c := by
  rw [isBinary, isBinary, (h.peek 0).space, (h.peek 1).kind, (h.peek 1).isCloser, (h.peek 1).isSymbolIn, (h.peek 1).space]

theorem isMarks_mirror (h : c.Mirror S c') : isMarks c'.peek = isMarks c.peek := by
  rw [isMarks, isMarks, (h.peek 0).kind, (h.peek 0).spelled]

/-- Marks are more than none. -/
theorem isMark_of_isMarks (hs : c.Sound) (hm : isMarks c.peek = true) : c.peek.isMark = true := by
  simp only [isMarks, Bool.and_eq_true, beq_iff_eq] at hm
  obtain ⟨m, x, hx⟩ := List.exists_cons_of_ne_nil (hs.placed_peek (by simp [hm.1])).text_ne_nil
  have hfirst := List.all_eq_true.mp hm.2 m (by simp [hx])
  simpa [Token.isMark, hm.1, hx] using hfirst

theorem controlExpression_mirrors (h : c.Mirror S c') :
    Accord S Expression.Like controlExpression controlExpression c c' := by
  refine .consume_bind h fun h₁ => .next (.extend (v := fun _ => ()) (G := fun _ _ => True) (fun _ _ c₂ c₂' _ h₂ => ?_)
    rfl h₁) fun _ _ _ _ _ h₃ => .keep h₃ h.begins (fun _ _ => rfl) fun _ => rfl
  refine .get_bind (.ite ((h₂.peek 0).isSymbol _) (fun _ => .next (.skipBalanced h₂) fun _ _ _ _ _ h₃ => .current_bind
    (.ite ?_ (fun _ => .skip_bind h₃ fun h₄ => .pure h₄ rfl fun _ => .some trivial) fun _ => .pure h₃ rfl fun _ => .none))
      fun _ => .ite h₂.isEof (fun _ => .fail h₂) fun _ => .ite (h₂.peek 0).isOpener (fun _ => .next (.skipBalanced h₂)
        fun _ _ _ _ _ h₃ => .pure h₃ rfl fun _ => .some trivial) fun _ => .skip_bind h₂ fun h₃ => .pure h₃ rfl
          fun _ => .some trivial)
  rw [(h₃.peek 0).reads, (h₃.peek 0).reads]

theorem keyPath_mirrors (h : c.Mirror S c') : Accord S Expression.Like keyPath keyPath c c' := by
  refine .consume_bind h fun h₁ => .next (.extend (v := fun _ => ()) (G := fun _ _ => True) (fun _ _ c₂ c₂' _ h₂ => ?_)
    rfl h₁) fun _ _ _ _ _ h₃ => .keep h₃ h.begins (fun _ _ => rfl) fun _ => rfl
  refine .current_bind (.ite (h₂.peek 0).space (fun _ => .pure h₂ rfl fun _ => .none) fun _ => .ite
    (by rw [(h₂.peek 0).kind]) (fun _ => .skip_bind h₂ fun h₃ => .pure h₃ rfl fun _ => .some trivial) fun _ => .ite
      (h₂.peek 0).isMark (fun hm => .consumePart_bind h₂ (.inl hm) fun _ _ _ _ _ h₃ => .pure h₃ rfl fun _ => .some trivial) fun _ =>
        .ite ((h₂.peek 0).isSymbol _) (fun _ => .next (.skipBalanced h₂) fun _ _ _ _ _ h₃ => .pure h₃ rfl
          fun _ => .some trivial) fun _ => .pure h₂ rfl fun _ => .none)

theorem otherItems_mirrors {α : Type} {item : Parser α} {E : α → α → Prop} (h : c.Mirror S c')
    (hi : ∀ c c', c.Mirror S c' → Accord S E item item c c') :
    Accord S (List.Forall₂ E) (otherItems item) (otherItems item) c c' := by
  refine (Mirrors.collect (s := fun _ => ()) (E := E) (fun c₁ c₁' h₁ => .current_bind (.ite ((h₁.peek 0).isSymbol _)
    (fun _ => .skip_bind h₁ fun h₂ => .current_bind (.ite ((h₂.peek 0).isSymbol _) (fun _ => ?_) fun _ => ?_)) fun _ => ?_))
      h).forget
  · exact .pure h₂ rfl .none
  · exact .bind (hi _ _ h₂) fun _ _ _ _ _ h₃ => .pure h₃ rfl .some
  · exact .pure h₁ rfl .none

theorem castModifier_mirrors (h : c.Mirror S c') : Accord S (fun _ _ => True) castModifier castModifier c c' :=
  .current_bind (.ite (markFollows_mirror h) (fun hm => .consumePart_bind h (.inl (Bool.and_eq_true _ _ ▸ hm).1)
    fun _ _ _ _ _ h₁ => .pure h₁ rfl trivial) fun _ => .pure h rfl trivial)

variable (hg : g.Mirrored S) (h : c.Mirror S c')
include hg h

theorem collectionLiteral_mirrors : Accord S Expression.Like g.collectionLiteral g.collectionLiteral c c' := by
  refine .consume_bind h fun h₁ => .get_bind (.ite ?_ (fun _ => .skip_bind h₁ fun h₂ => .keep h₂ h.begins
    (fun _ _ => rfl) fun _ => rfl) fun _ => .ite ((h₁.peek 0).isSymbol _) (fun _ => .skip_bind h₁ fun h₂ =>
      .keep h₂ h.begins (fun _ _ => rfl) fun _ => rfl) fun _ => .bind (hg.expression h₁) fun _ _ _ _ _ h₂ =>
        .current_bind (.ite ((h₂.peek 0).isSymbol _) (fun _ => .skip_bind h₂ fun h₃ => .bind (hg.expression h₃)
          fun _ _ _ _ _ h₄ => .sliceFrom_bind h₄ h₁.begins fun _ _ => ?_) fun _ => ?_))
  · rw [(h₁.peek 0).isSymbol, (h₁.peek 1).isSymbol]
  · refine .bind (otherItems_mirrors (E := Entry.Like) h₄ fun _ _ h₅ => .current_bind (.bind (hg.expression h₅)
      fun _ _ _ _ _ h₆ => .expect_bind h₆ fun h₇ => .bind (hg.expression h₇) fun _ _ _ _ _ h₈ => .keep h₈ h₅.begins
        (fun _ _ => rfl) fun _ hvalue hkey => ⟨hkey, hvalue⟩)) fun _ _ _ _ _ h₅ => .expect_bind h₅ fun h₆ =>
          .keep h₆ h.begins (fun _ _ => rfl) fun x hothers _ hvalue hkey => ?_
    exact .dictionary (.cons ⟨hkey, hvalue⟩ hothers) x
  · refine .bind (otherItems_mirrors h₂ fun _ _ h₃ => hg.expression h₃) fun _ _ _ _ _ h₃ => .expect_bind h₃ fun h₄ =>
      .keep h₄ h.begins (fun _ _ => rfl) fun x hothers hfirst => .array (.cons hfirst hothers) x

theorem nameExpression_mirrors : Accord S Expression.Like g.nameExpression g.nameExpression c c' := by
  have hname : (Expression.reference c.peek.text c.peek.text).Like (.reference c'.peek.text c'.peek.text) := by
    rw [(h.peek 0).spelled]
    rfl
  refine .consume_bind h fun h₁ => .get_bind (.ite (genericsFollow_mirror h₁) (fun _ => .next (.attempt h₁
    (specializationClause_mirrors hg h₁)) fun o o' _ _ ho h₂ => ?_) fun _ => .pure h₁ rfl hname)
  cases o with
  | none =>
    obtain rfl : o' = none := by simpa using ho
    exact .pure h₂ rfl hname
  | some x =>
    obtain ⟨x', rfl, -⟩ := Option.map_eq_some_iff.mp ho
    exact .keep h₂ h.begins (fun _ _ => rfl) fun _ => rfl

theorem wordExpression_mirrors : Accord S Expression.Like g.wordExpression g.wordExpression c c' := by
  refine .current_bind (.ite ((h.peek 0).isIdentifierIn _) (fun _ => .skip_bind h fun h₁ => .pure h₁ rfl ?_)
    fun _ => .ite ((h.peek 0).isIdentifierIn _) (fun _ => .skip_bind h fun h₁ => .pure h₁ rfl ?_) fun _ =>
      .ite ((h.peek 0).isIdentifierIn _) (fun _ => controlExpression_mirrors h) fun _ => nameExpression_mirrors hg h)
  · rw [(h.peek 0).spelled]
    rfl
  · rw [(h.peek 0).spelled]
    rfl

theorem primary_mirrors : Accord S Expression.Like g.primary g.primary c c' := by
  refine .get_bind ?_
  dsimp only
  rw [(h.peek 0).kind, (h.peek 0).spelled]
  split
  case h_4 => exact wordExpression_mirrors hg h
  case h_5 =>
    refine .bind (expansionRule_mirrors hg h) fun e e' _ _ _ h₁ => .pure h₁ rfl fun he => ?_
    show (Text.trim e.text, e.text, none) = (Text.trim e'.text, e'.text, none)
    rw [he]
  case h_6 => exact keyPath_mirrors h
  case h_7 =>
    refine .ite ?_ (fun _ => .skip_bind h fun h₁ => .keep h₁ h.begins (fun _ _ => rfl) fun _ => rfl) fun _ => .ite
      ((h.peek 0).isSymbol _) (fun _ => collectionLiteral_mirrors hg h) fun _ => .ite ((h.peek 0).isSymbol _)
        (fun _ => .bind (arguments_mirrors hg h _ _) fun _ _ _ _ _ h₁ => .keep h₁ h.begins (fun _ _ => rfl)
          fun x has => .tuple has x) fun _ => .ite ((h.peek 0).isSymbol _) (fun _ => .bind (closureRule_mirrors hg h)
            fun _ _ _ _ _ h₁ => .pure h₁ rfl .closure) fun _ => .fail h
    rw [(h.peek 1).kind, (h.peek 1).space]
  all_goals exact .skip_bind h fun h₁ => .pure h₁ rfl rfl

theorem suffixes_mirrors {start start' : Token} (hs : S.Begins start start') {base base' : Expression} :
    Accord S (fun e e' => base.Like base' → e.Like e') (g.suffixes start base) (g.suffixes start' base') c c' := by
  refine Mirrors.extend (v := fun _ => ()) (G := Expression.Like) (fun e e' c₁ c₁' _ h₁ => .get_bind (.ite ?_
    (fun _ => .skip_bind h₁ fun h₂ => ?_) fun _ => .ite ?_ (fun _ => .next (arguments_mirrors hg h₁ _ _)
      fun _ _ _ _ _ h₂ => .next (trailingClosure_mirrors hg h₂) fun _ _ _ _ _ h₃ => ?_) fun _ => .ite ?_
        (fun _ => .next (arguments_mirrors hg h₁ _ _) fun _ _ _ _ _ h₂ => ?_) fun _ => .ite (closureFollows_mirror h₁)
          (fun _ => .next (closureRule_mirrors hg h₁) fun _ _ _ _ _ h₂ => ?_) fun _ => .ite ?_ (fun hm => ?_)
            fun _ => .pure h₁ rfl fun _ => .none)) rfl h
  · rw [(h₁.peek 0).kind, (h₁.peek 1).kind]
  · exact .keep h₂ hs (fun _ _ => rfl) fun x _ => .some rfl
  · rw [(h₁.peek 0).isSymbol, (h₁.peek 0).newline]
  · exact .keep h₃ hs (fun _ _ => rfl) fun x he => .some (.call he _ _ _ _ _ x)
  · rw [(h₁.peek 0).isSymbol, (h₁.peek 0).newline, (h₁.peek 0).space]
  · exact .keep h₂ hs (fun _ _ => rfl) fun x _ => .some rfl
  · exact .keep h₂ hs (fun _ _ => rfl) fun x he => .some (.call he _ _ _ _ _ x)
  · rw [isMarks_mirror h₁, (h₁.peek 0).space]
  · rw [Bool.and_eq_true] at hm
    exact .consumePart_bind h₁ (.inl (isMark_of_isMarks h₁.sound hm.1)) fun _ _ _ _ _ h₂ => .keep h₂ hs
      (fun _ _ => rfl) fun x _ => .some rfl

theorem operandRule_mirrors : Accord S Expression.Like g.operandRule g.operandRule c c' := by
  unfold operandRule
  refine .get_bind ?_
  extract_lets start next inner start' next' inner'
  have hinner : ∀ c₁ c₁' : Cursor, c₁.Mirror S c₁' → Accord S Expression.Like (inner ()) (inner' ()) c₁ c₁' :=
    fun _ _ h₁ => .sliceFrom_bind h₁ h.begins fun _ _ => .next (hg.operand h₁) fun _ _ _ _ _ h₂ =>
      .keep h₂ h.begins (fun _ _ => rfl) fun _ _ => rfl
  refine .ite ?_ (fun _ => .skip_bind h fun h₁ => .ite ?_ (fun hm => .consumePart_bind h₁ (.inl ?_)
    fun _ _ _ _ _ h₂ => hinner _ _ h₂) fun _ => hinner _ _ h₁) fun _ => .ite ?_ (fun _ => .skip_bind h fun h₁ =>
      .pure h₁ rfl ?_) fun _ => .ite ?_ (fun _ => .skip_bind h fun h₁ => .next (hg.operand h₁) fun _ _ _ _ _ h₂ =>
        .keep h₂ h.begins (fun _ _ => rfl) fun _ => rfl) fun _ => .bind (primary_mirrors hg h) fun _ _ _ _ _ h₁ =>
          suffixes_mirrors hg h₁ h.begins
  · rw [(h.peek 0).isIdentifierIn, operandFollows, operandFollows, (h.peek 1).kind, (h.peek 1).newline,
      (h.peek 1).isCloser, (h.peek 1).isSymbolIn]
  · rw [(h.peek 0).spelled, (h.peek 1).isMark, (h.peek 1).space]
  · rw [Cursor.peek_advance]
    simp only [Bool.and_eq_true] at hm
    exact hm.1.2
  · rw [(h.peek 0).kind, (h.peek 1).kind, (h.peek 1).isCloser, (h.peek 1).isSymbol]
  · rw [(h.peek 0).spelled]
    rfl
  · rw [(h.peek 0).kind, (h.peek 1).space]

theorem sequenceTail_mirrors : Mirrors S (Option.map fun _ => ()) (Option.Rel (List.Forall₂ Expression.Like))
    g.sequenceTail g.sequenceTail c c' := by
  unfold sequenceTail
  refine .get_bind ?_
  extract_lets t target operand t'
  have htext : t'.text = t.text := (h.peek 0).spelled
  have htarget : ∀ link link' (c₁ c₁' : Cursor), c₁.Mirror S c₁' →
      Mirrors S (Option.map fun _ => ()) (fun o o' => link.Like link' → Option.Rel (List.Forall₂ Expression.Like) o o')
        (target link) (target link') c₁ c₁' := by
    refine fun _ _ c₁ c₁' h₁ => .current_bind (.bind (hg.type h₁) fun _ _ _ _ _ h₂ => .keep h₂ h₁.begins
      (fun _ _ => rfl) ?_)
    rintro x rfl hlink
    exact .some (.cons hlink (.cons rfl .nil))
  have hoperand : ∀ link link' (c₁ c₁' : Cursor), c₁.Mirror S c₁' →
      Mirrors S (Option.map fun _ => ()) (fun o o' => link.Like link' → Option.Rel (List.Forall₂ Expression.Like) o o')
        (operand link) (operand link') c₁ c₁' := fun _ _ c₁ c₁' h₁ =>
    .bind (operandRule_mirrors hg h₁) fun _ _ _ _ _ h₂ => .pure h₂ rfl fun he hlink =>
      .some (.cons hlink (.cons he .nil))
  refine .ite ?_ (fun _ => .skip_bind h fun h₁ => .ite ?_ (fun _ => .next (castModifier_mirrors h₁) fun _ _ _ _ _ h₂ =>
    .sliceFrom_bind h₂ h.begins fun x x' => .pure_bind ?_) fun _ => .pure_bind ?_) fun _ => .ite ?_ (fun _ => .skip_bind h
      fun h₁ => .ite ?_ (fun _ => .next (hg.expression h₁) fun _ _ _ _ _ h₂ => .expect_bind h₂ fun h₃ =>
        .sliceFrom_bind h₃ h.begins fun x x' => .pure_bind ?_) fun _ => .pure_bind ?_) fun _ => .pure h rfl .none
  · rw [(h.peek 0).isIdentifierIn, (h.peek 0).newline]
  · rw [(h.peek 0).spelled]
  · exact (htarget _ _ _ _ h₂).mono fun _ _ hlink hx => hlink (by rw [hx]; rfl)
  · exact (htarget _ _ _ _ h₁).mono fun _ _ hlink => hlink (by rw [htext]; rfl)
  · rw [(h.peek 0).kind, isBinary_mirror h]
  · rw [(h.peek 0).spelled]
  · exact (hoperand _ _ _ _ h₃).mono fun _ _ hlink hx => hlink (by rw [hx]; rfl)
  · exact (hoperand _ _ _ _ h₁).mono fun _ _ hlink => hlink (by rw [htext]; rfl)

theorem expressionRule_mirrors : Accord S Expression.Like g.expressionRule g.expressionRule c c' := by
  refine .current_bind (.bind (operandRule_mirrors hg h) fun _ _ _ _ _ h₁ => .bind (.collect (fun _ _ h₂ =>
    sequenceTail_mirrors hg h₂) h₁) fun others others' _ _ hothers h₂ => .ite ?_ (fun _ => .pure h₂ rfl fun _ => id) fun _ =>
      .keep h₂ h.begins (fun _ _ => rfl) fun x hall hfirst => ?_)
  · rw [← List.isEmpty_map (l := others'), hothers, List.isEmpty_map]
  · exact .sequence (.cons hfirst (List.rel_flatten hall)) x

omit hg h in
theorem upTo_mirrored (S : Respacing) (n : Nat) : (upTo n).Mirrored S := by
  induction n with
  | zero => exact ⟨upTo_reliable 0, .stall, .stall, .stall, .stall⟩
  | succ n ih => exact ⟨upTo_reliable (n + 1), typeRule_mirrors ih, constraintRule_mirrors ih,
      expressionRule_mirrors ih, operandRule_mirrors ih⟩

end Expressions

end Grammar

end SwiftMacros
