import Mathlib
import SwiftMacros.Text.Utf8

/-! Decoding what has been encoded. The bytes of a character are a start byte and as many bytes behind
it as that tells of, and they stand for its code point. -/

namespace SwiftMacros.Text.Utf8

/-- Bytes that are taken as one character. -/
structure Sequence (first : UInt8) (rest : List UInt8) : Prop where
  length : lengthFor first = rest.length + 1
  second : ∀ b ∈ rest.head?, isSecond first b = true
  others : ∀ b ∈ rest.tail, isContinuation b = true

theorem Sequence.continuing {first : UInt8} {rest : List UInt8} (h : Sequence first rest)
    (bs : List UInt8) : (continuing first (rest ++ bs)).take rest.length = rest := by
  cases rest with
  | nil => rfl
  | cons b rest =>
    have hall : rest.takeWhile isContinuation = rest := List.takeWhile_eq_self_iff.mpr h.others
    rw [List.cons_append, Utf8.continuing, if_pos (h.second b rfl), List.length_cons,
      List.take_succ_cons, List.takeWhile_append, if_pos (by rw [hall]), List.take_left]

theorem decodeFrom_skip (offset : Nat) (xs bs : List UInt8) :
    decodeFrom offset xs.length (xs ++ bs) = decodeFrom (offset + xs.length) 0 bs := by
  induction xs generalizing offset with
  | nil => rfl
  | cons x xs ih =>
    rw [List.length_cons, List.cons_append, decodeFrom, ih]
    congr 1
    omega

theorem Sequence.decodeFrom {first : UInt8} {rest : List UInt8} (h : Sequence first rest)
    (offset : Nat) (bs : List UInt8) :
    decodeFrom offset 0 (first :: rest ++ bs) =
      (decodeFrom (offset + 1 + rest.length) 0 bs).map (Char.ofNat (codePoint first rest) :: ·) := by
  rw [List.cons_append, Utf8.decodeFrom, h.length]
  dsimp only
  rw [h.continuing, if_pos rfl, decodeFrom_skip]

section Bytes

variable {b first : UInt8}

theorem isContinuation_iff : isContinuation b = true ↔ 128 ≤ b.toNat ∧ b.toNat < 192 := by
  simp [isContinuation, UInt8.le_iff_toNat_le, UInt8.lt_iff_toNat_lt]

theorem isSecond_iff : isSecond first b = true ↔ (128 ≤ b.toNat ∧ b.toNat < 192) ∧
    (first.toNat = 224 → 160 ≤ b.toNat) ∧ (first.toNat = 237 → b.toNat < 160) ∧
    (first.toNat = 240 → 144 ≤ b.toNat) ∧ (first.toNat = 244 → b.toNat < 144) := by
  simp only [isSecond, Bool.and_eq_true, Bool.not_eq_true', isContinuation_iff, Bool.and_eq_false_imp,
    beq_iff_eq, decide_eq_false_iff_not, UInt8.le_iff_toNat_le, UInt8.lt_iff_toNat_lt,
    UInt8.toNat_inj.symm, UInt8.reduceToNat, not_lt, not_le, and_assoc]

theorem lengthFor_eq (first : UInt8) : lengthFor first =
    if first.toNat < 128 then 1
    else if first.toNat < 194 then 0
    else if first.toNat < 224 then 2
    else if first.toNat < 240 then 3
    else if first.toNat < 245 then 4
    else 0 := by
  simp only [lengthFor, UInt8.lt_iff_toNat_lt, UInt8.reduceToNat]

end Bytes

/-- The bytes that a character is encoded in are a sequence that stands for its code point. -/
theorem encodeChar_sequence (c : Char) : ∃ first rest, String.utf8EncodeChar c = first :: rest ∧
    Sequence first rest ∧ codePoint first rest = c.toNat := by
  have hvalid : c.toNat < 55296 ∨ 57343 < c.toNat ∧ c.toNat < 1114112 := c.valid
  have hval : c.val.toNat = c.toNat := rfl
  simp only [String.utf8EncodeChar, hval]
  generalize c.toNat = v at hvalid
  split
  · refine ⟨_, _, rfl, ⟨?_, by simp, by simp⟩, ?_⟩
    · rw [lengthFor_eq, UInt8.toNat_ofNat', if_pos (by omega)]
      rfl
    · simp only [codePoint, List.length_nil, List.foldl_nil, UInt8.toNat_ofNat']
      omega
  split
  · refine ⟨_, _, rfl, ⟨?_, ?_, by simp⟩, ?_⟩
    · rw [lengthFor_eq, UInt8.toNat_ofNat', if_neg (by omega), if_neg (by omega), if_pos (by omega)]
      rfl
    · simp only [List.head?_cons, Option.mem_some_iff, forall_eq', isSecond_iff, UInt8.toNat_ofNat']
      omega
    · simp only [codePoint, List.length_cons, List.length_nil, List.foldl_cons, List.foldl_nil,
        UInt8.toNat_ofNat']
      omega
  split
  · refine ⟨_, _, rfl, ⟨?_, ?_, ?_⟩, ?_⟩
    · rw [lengthFor_eq, UInt8.toNat_ofNat', if_neg (by omega), if_neg (by omega), if_neg (by omega),
        if_pos (by omega)]
      rfl
    · simp only [List.head?_cons, Option.mem_some_iff, forall_eq', isSecond_iff, UInt8.toNat_ofNat']
      omega
    · simp only [List.tail_cons, List.mem_singleton, forall_eq, isContinuation_iff,
        UInt8.toNat_ofNat']
      omega
    · simp only [codePoint, List.length_cons, List.length_nil, List.foldl_cons, List.foldl_nil,
        UInt8.toNat_ofNat']
      omega
  · refine ⟨_, _, rfl, ⟨?_, ?_, ?_⟩, ?_⟩
    · rw [lengthFor_eq, UInt8.toNat_ofNat', if_neg (by omega), if_neg (by omega), if_neg (by omega),
        if_neg (by omega), if_pos (by omega)]
      rfl
    · simp only [List.head?_cons, Option.mem_some_iff, forall_eq', isSecond_iff, UInt8.toNat_ofNat']
      omega
    · simp only [List.tail_cons, List.mem_cons, List.not_mem_nil, or_false, forall_eq_or_imp,
        forall_eq, isContinuation_iff, UInt8.toNat_ofNat']
      omega
    · simp only [codePoint, List.length_cons, List.length_nil, List.foldl_cons, List.foldl_nil,
        UInt8.toNat_ofNat']
      omega

section Lists

theorem toList_loop (bs : ByteArray) (i : Nat) (r : List UInt8) :
    ByteArray.toList.loop bs i r = r.reverse ++ bs.data.toList.drop i := by
  fun_induction ByteArray.toList.loop bs i r with
  | case1 i r hlt ih =>
    have hlen : i < bs.data.toList.length := by simpa using hlt
    have hget : bs.get! i = bs.data.toList[i] := by
      change bs.data[i]! = _
      rw [getElem!_pos bs.data i hlt]
      simp
    rw [ih, List.drop_eq_getElem_cons hlen, hget]
    simp
  | case2 i r hge =>
    rw [List.drop_eq_nil_of_le (by simpa using hge)]
    simp

theorem encode_eq (t : Text) : encode t = t.flatMap String.utf8EncodeChar := by
  change ByteArray.toList (List.flatMap String.utf8EncodeChar t).toByteArray = _
  rw [ByteArray.toList, toList_loop, List.data_toByteArray]
  rfl

end Lists

theorem decodeFrom_encode (offset : Nat) (t : Text) :
    decodeFrom offset 0 (t.flatMap String.utf8EncodeChar) = .ok t := by
  induction t generalizing offset with
  | nil => rfl
  | cons c t ih =>
    obtain ⟨first, rest, hc, hsequence, hpoint⟩ := encodeChar_sequence c
    rw [List.flatMap_cons, hc, hsequence.decodeFrom, ih, hpoint, Char.ofNat_toNat]
    rfl

/-- A text that has been encoded is decoded as it was. -/
theorem decode_encode (t : Text) : decode (encode t) = .ok t := by
  rw [encode_eq]
  exact decodeFrom_encode 0 t

theorem encode_injective : Function.Injective encode := fun t u h => by
  have := congrArg decode h
  rw [decode_encode, decode_encode] at this
  exact Except.ok.inj this

end SwiftMacros.Text.Utf8
