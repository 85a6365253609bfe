import Mathlib
import SwiftMacros.Proofs.Grammar.Composed

/-! What a parameter type is put together of. Literals have types of their own, casts and closures those
that are written in them, collections those of their members; the rest stands for itself. Where all these
parts are types, the whole is one. -/

namespace SwiftMacros

open Grammar (IsType IsElement IsSignature)
open SwiftMacros.Parser

namespace Signature

/-- A part of a signature. -/
inductive Ingredient where
  /-- A type that has been read. -/
  | type (T : TypeTree)
  /-- An expression that stands for itself, as it is written. -/
  | source (e : Expression)
  /-- What could not be read, and stands for itself. -/
  | rest (t : Text)
  | label (l : Text)

/-- The text is read as a type. -/
def Signed (s : Text) : Prop := ∃ T V, IsType s T V

namespace Ingredient

/-- The part can be put into a signature. -/
def Signed : Ingredient → Prop
  | type T => Signature.Signed T.signature
  | source e => Signature.Signed (Text.trim e.toText)
  | rest t => Signature.Signed (Text.trim t)
  | label l => Token.IsName l

end Ingredient

end Signature

open Signature (common? castType? Ingredient Signed)

def TypeTree.part : TypeTree → Ingredient
  | raw t => .rest t
  | T => .type T

/-- The types in the signature of a closure. -/
def Signature.parts (s : Signature) : List Ingredient :=
  let parameters := match s.parameters with
    | some (.typed ps _) => ps.filterMap fun p => p.type.map TypeTree.part
    | _ => []
  parameters ++ (s.result.map fun r => r.type.part).toList

mutual

/-- What the signature of an expression is put together of. Members of a collection that do not agree
do not count. -/
def Expression.parts : Expression → List Ingredient
  | .integer _ | .float _ | .string _ _ | .boolean _ _ | .nilLiteral _ | .keyPath _ => []
  | .closure c => (c.signature.map Signature.parts).getD []
  | .array es _ => if (common? (signatures es)).isSome then firstParts es else []
  | .dictionary es _ =>
    (if (common? ((entrySignatures es).map Prod.fst)).isSome then firstKeyParts es else []) ++
      if (common? ((entrySignatures es).map Prod.snd)).isSome then firstValueParts es else []
  | .tuple as _ => argumentParts as
  | .call called _ _ _ _ => [.source called]
  | .sequence es _ => ((castType? es).map TypeTree.part).toList
  | e => [.source e]

def firstParts : List Expression → List Ingredient
  | [] => []
  | e :: _ => e.parts

def firstKeyParts : List Entry → List Ingredient
  | [] => []
  | ⟨key, _, _⟩ :: _ => key.parts

def firstValueParts : List Entry → List Ingredient
  | [] => []
  | ⟨_, value, _⟩ :: _ => value.parts

def argumentParts : List Argument → List Ingredient
  | [] => []
  | ⟨e, label, _⟩ :: as => (label.map Ingredient.label).toList ++ (e.parts ++ argumentParts as)

end

/-- What the signature of a property is put together of: an annotation comes before an initializer. -/
def Property.parts (p : Property) : List Ingredient :=
  match p.type, p.initializer with
  | some T, _ => [T.part]
  | none, some e => e.parts
  | none, none => []

theorem TypeTree.signed_part {T : TypeTree} : T.part.Signed ↔ Signed T.signature := by
  cases T <;> rfl

namespace Signature

theorem IsSignature.signed {s : Text} (h : IsSignature s) : Signed s :=
  h.imp fun _ h => h.imp fun _ h => h.1

/-- The number of braces that are opened in a text. -/
def braces (t : Text) : Nat := (Token.tokenize t).toOption.elim 0 (·.countP (·.isSymbol "\x7b"))

theorem exists_tokens {t : Text} {c : Cursor} (h : Cursor.ofText t = .ok c) :
    ∃ ts, Token.tokenize t = .ok ts ∧ braces t = ts.countP (·.isSymbol "\x7b") := by
  cases hts : Token.tokenize t with
  | error e =>
    rw [Cursor.ofText, hts] at h
    cases h
  | ok ts => exact ⟨ts, rfl, by rw [braces, hts]; rfl⟩

theorem braceless_ofText {t : Text} {c : Cursor} (h : Cursor.ofText t = .ok c) (hb : braces t = 0) :
    c.Braceless := by
  obtain ⟨ts, hts, hcount⟩ := exists_tokens h
  exact Cursor.braceless_ofText hts (by simpa [hcount, List.countP_eq_zero] using hb) h

/-- Whether a text is, as it stands, a type without opening braces. -/
def isPlain (t : Text) : Bool := braces t == 0 && (runOn (whole type) t).toOption.any fun T => T.text == t

theorem signed_of_isPlain {t : Text} (h : isPlain t = true) : Signed t := by
  simp only [isPlain, Bool.and_eq_true, beq_iff_eq] at h
  obtain ⟨hb, h⟩ := h
  cases hT : runOn (whole type) t with
  | error e =>
    rw [hT] at h
    cases h
  | ok T =>
    obtain ⟨c, c', hc, hread, -⟩ := of_runOn_whole hT
    obtain ⟨V, hV⟩ := IsType.of_typeRule (braceless_ofText hc hb) hread
    have htext : T.text = t := by simpa [hT, Except.toOption] using h
    exact ⟨T, V, htext ▸ hV⟩

/-- The types that have no part to be told from. -/
theorem signed_ready {w : String} (hw : w ∈ ["Any", "AnyHashable", "Bool", "CGFloat", "Int", "KeyPath", "Nil",
    "String", "()"]) : Signed w.toList := by
  have hplain : (["Any", "AnyHashable", "Bool", "CGFloat", "Int", "KeyPath", "Nil", "String", "()"].all
    fun w => isPlain w.toList) = true := by decide +kernel
  exact signed_of_isPlain (List.all_eq_true.mp hplain w hw)

/-- What all members share is the signature of the first. -/
theorem eq_of_common? {t u : Text} {ts : List Text} (h : common? (t :: ts) = some u) : u = t := by
  rw [common?, Option.ite_none_right_eq_some] at h
  exact (Option.some.inj h.2).symm

theorem signed_getD {o : Option Text} {u : Text} (h : ∀ t ∈ o, Signed t) (hu : Signed u) :
    Signed (o.getD u) := by
  cases o with
  | none => exact hu
  | some t => exact h t rfl

theorem Signed.array {s : Text} (h : Signed s) : Signed ('[' :: s ++ [']']) :=
  let ⟨_, _, h⟩ := h
  ⟨_, _, h.array.isType⟩

theorem Signed.dictionary {k v : Text} (hk : Signed k) (hv : Signed v) :
    Signed ('[' :: k ++ ": ".toList ++ v ++ [']']) :=
  let ⟨_, _, hk⟩ := hk
  let ⟨_, _, hv⟩ := hv
  ⟨_, _, (hk.entries hv).isType⟩

/-- Types are elements without labels. -/
theorem exists_elements {ss : List Text} (h : ∀ s ∈ ss, Signed s) :
    ∃ (es : List TypeElement) (Vs : _), es.Forall₂ IsElement Vs ∧ es.map (·.text) = ss := by
  induction ss with
  | nil => exact ⟨[], [], .nil, rfl⟩
  | cons s ss ih =>
    obtain ⟨⟨T, V, hT⟩, hss⟩ := List.forall_mem_cons.mp h
    obtain ⟨es, Vs, hes, rfl⟩ := ih hss
    exact ⟨_, _, .cons hT.element hes, rfl⟩

/-- The signature of a closure is a function type that outlives its call. -/
theorem signed_ofClosure {o : Option Signature} (h : ∀ s ∈ o, ∀ x ∈ s.parts, x.Signed) :
    Signed (ofClosure o) := by
  have hform : ∀ (p r : Text), (∃ ss, (∀ s ∈ ss, Signed s) ∧ p = '(' :: Text.join ", ".toList ss ++ [')']) →
      Signed r → Signed ("@escaping ".toList ++ p ++ " -> ".toList ++ r) := by
    rintro p r ⟨ss, hss, rfl⟩ ⟨R, U, hR⟩
    obtain ⟨es, Vs, hes, rfl⟩ := exists_elements hss
    have := (IsType.function hes hR).escaping (by rfl)
    exact ⟨_, _, by simpa using this⟩
  have hunit : Signed "()".toList := signed_ready (by decide)
  have hnone : ∃ ss : List Text, (∀ s ∈ ss, Signed s) ∧ "()".toList = '(' :: Text.join ", ".toList ss ++ [')'] :=
    ⟨[], by simp, rfl⟩
  cases o with
  | none => exact hform _ _ hnone hunit
  | some s =>
    obtain ⟨capture, parameters, effects, result, attributes, text⟩ := s
    have h := h _ rfl
    simp only [parts, List.mem_append, or_imp, forall_and] at h
    obtain ⟨hp, hr⟩ := h
    refine hform _ _ ?_ ?_
    · cases parameters with
      | none => exact hnone
      | some q =>
        cases q with
        | shorthand _ _ => exact hnone
        | typed ps _ =>
          refine ⟨_, fun t ht => ?_, rfl⟩
          obtain ⟨p, hmem, rfl⟩ := List.mem_map.mp ht
          cases hT : p.type with
          | none => exact signed_ready (by decide)
          | some T =>
            refine TypeTree.signed_part.mp (hp T.part ?_)
            simp only [List.mem_filterMap]
            exact ⟨p, hmem, by simp [hT]⟩
    · cases result with
      | none => exact hunit
      | some r =>
        have hr := TypeTree.signed_part.mp (hr r.type.part (by simp))
        cases htype : r.type.signature with
        | nil => simpa only [Option.bind_some, htype] using hunit
        | cons a x => simpa only [Option.bind_some, htype] using hr

end Signature

open Signature

mutual

/-- The signature of an expression is a type if its parts are. -/
theorem Expression.signed (e : Expression) (h : ∀ x ∈ e.parts, x.Signed) : Signed e.signature := by
  match e with
  | .integer _ | .float _ | .string _ _ | .boolean _ _ | .nilLiteral _ | .keyPath _ =>
    exact signed_ready (by decide)
  | .closure c =>
    refine signed_ofClosure fun s hs => ?_
    simpa [Expression.parts, Option.mem_def.mp hs] using h
  | .array es _ =>
    refine Signed.array (signed_getD (fun t ht => ?_) (signed_ready (by decide)))
    refine signed_first es (fun x hx => h x ?_) t ht
    rw [Expression.parts, Option.mem_def.mp ht]
    exact hx
  | .dictionary es _ =>
    simp only [Expression.parts, List.mem_append, or_imp, forall_and] at h
    refine Signed.dictionary (signed_getD (fun t ht => ?_) (signed_ready (by decide)))
      (signed_getD (fun t ht => ?_) (signed_ready (by decide)))
    · exact signed_firstKey es (fun x hx => h.1 x (by rwa [Option.mem_def.mp ht])) t ht
    · exact signed_firstValue es (fun x hx => h.2 x (by rwa [Option.mem_def.mp ht])) t ht
  | .tuple as _ =>
    obtain ⟨es, Vs, hes, htexts⟩ := exists_argumentElements as h
    rw [Expression.signature, ← htexts]
    exact ⟨_, _, (Grammar.IsChain.tuple hes).isType⟩
  | .call called _ _ _ _ => exact h _ (List.mem_singleton_self _)
  | .sequence es _ =>
    refine signed_getD (fun t ht => ?_) (signed_ready (by decide))
    obtain ⟨T, hT, rfl⟩ := Option.map_eq_some_iff.mp ht
    exact TypeTree.signed_part.mp (h T.part (by simp [Expression.parts, hT]))
  | .reference _ _ | .specialization _ _ _ | .member _ _ _ | .implicitMember _ _ | .subscript _ _ _
  | .prefixed _ _ _ | .postfixed _ _ _ | .effect _ _ _ | .operator _ | .cast _ _ | .typeTest _
  | .ternary _ _ | .typeOperand _ _ | .raw _ | .expansion _ => exact h _ (List.mem_singleton_self _)

theorem signed_first (es : List Expression) (h : ∀ x ∈ firstParts es, x.Signed) :
    ∀ t ∈ common? (signatures es), Signed t := by
  match es with
  | [] => simp [signatures, common?]
  | e :: es =>
    intro t ht
    rw [eq_of_common? ht]
    exact e.signed h

theorem signed_firstKey (es : List Entry) (h : ∀ x ∈ firstKeyParts es, x.Signed) :
    ∀ t ∈ common? ((entrySignatures es).map Prod.fst), Signed t := by
  match es with
  | [] => simp [entrySignatures, common?]
  | ⟨key, _, _⟩ :: es =>
    intro t ht
    rw [eq_of_common? ht]
    exact key.signed h

theorem signed_firstValue (es : List Entry) (h : ∀ x ∈ firstValueParts es, x.Signed) :
    ∀ t ∈ common? ((entrySignatures es).map Prod.snd), Signed t := by
  match es with
  | [] => simp [entrySignatures, common?]
  | ⟨_, value, _⟩ :: es =>
    intro t ht
    rw [eq_of_common? ht]
    exact value.signed h

theorem exists_argumentElements (as : List Argument) (h : ∀ x ∈ argumentParts as, x.Signed) :
    ∃ (es : List TypeElement) (Vs : _), es.Forall₂ IsElement Vs ∧ es.map (·.text) = argumentSignatures as := by
  match as with
  | [] => exact ⟨[], [], .nil, rfl⟩
  | ⟨e, label, _⟩ :: as =>
    simp only [argumentParts, List.mem_append, or_imp, forall_and] at h
    obtain ⟨T, V, hT⟩ := e.signed h.2.1
    obtain ⟨es, Vs, hes, htexts⟩ := exists_argumentElements as h.2.2
    cases label with
    | none => exact ⟨_, _, .cons hT.element hes, by simp [argumentSignatures, htexts]⟩
    | some l =>
      have hl := h.1 (.label l) (by simp)
      exact ⟨_, _, .cons (hT.labelled hl) hes, by simp [argumentSignatures, htexts]⟩

end

/-- The signature of a property is a type if its parts are. -/
theorem Property.signed {p : Property} {s : Text} (h : ∀ x ∈ p.parts, x.Signed) (hs : p.signature? = some s) :
    Signed s := by
  rw [parts] at h
  rw [signature?] at hs
  cases hT : p.type with
  | some T =>
    obtain rfl : T.signature = s := by simpa [hT] using hs
    exact TypeTree.signed_part.mp (h T.part (by simp [hT]))
  | none =>
    obtain ⟨e, he, rfl⟩ : ∃ e, p.initializer = some e ∧ e.signature = s := by simpa [hT] using hs
    exact e.signed (by simpa [hT, he] using h)

end SwiftMacros
