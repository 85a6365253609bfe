import Mathlib
import SwiftMacros.Path.Basic

/-! Names and their suffixes. A name is its stem and its suffix, and with another suffix it is told by
its folder, its stem and that suffix. -/

namespace SwiftMacros

namespace Path

variable {p q dest : Path} {s : Text}

/-- The name of a path without its suffix. -/
def stem (p : Path) : Text := p.name.take (p.name.length - p.suffix.length)

theorem withSuffix_eq (p : Path) (s : Text) :
    p.withSuffix s = { p with parts := p.parts.dropLast ++ [p.stem ++ s] } := rfl

/-- The text can name a file. -/
structure IsName (n : Text) : Prop where
  noRoot : '/' ∉ n
  noEnd : '\x00' ∉ n
  kept : n ∉ [[], ".".toList, "..".toList]

/-- The text is the suffix of some name. -/
def IsSuffix (s : Text) : Prop := ∃ n, IsName n ∧ suffixOf n = s

/-- A suffix is a dot with characters behind it of which none is a dot. The name has something in front
of it. -/
theorem suffixOf_append {x e : Text} (hx : x ≠ []) (he : e ≠ []) (hdot : '.' ∉ e) :
    suffixOf (x ++ '.' :: e) = '.' :: e := by
  have hall : ∀ c ∈ e.reverse, decide (c ≠ '.') = true := fun c hc => by
    rw [List.mem_reverse] at hc
    simpa using fun h : c = '.' => hdot (h ▸ hc)
  have hafter : ((x ++ '.' :: e).reverse.takeWhile (· ≠ '.')).length = e.length := by
    rw [List.reverse_append, List.reverse_cons, List.append_assoc, List.takeWhile_append_of_pos hall]
    simp
  have hlength : (x ++ '.' :: e).length = x.length + e.length + 1 := by
    simp only [List.length_append, List.length_cons]
    omega
  have hx' := List.length_pos_iff.mpr hx
  have he' := List.length_pos_iff.mpr he
  simp only [suffixOf, hafter, hlength]
  rw [if_pos (by omega), show x.length + e.length + 1 - e.length - 1 = x.length by omega, List.drop_left]

theorem suffixOf_cases (name : Text) : suffixOf name = [] ∨
    ∃ x e, name = x ++ '.' :: e ∧ x ≠ [] ∧ e ≠ [] ∧ '.' ∉ e ∧ suffixOf name = '.' :: e := by
  by_contra hcon
  rw [not_or] at hcon
  obtain ⟨hsome, hnone⟩ := hcon
  have hsplit := List.takeWhile_append_dropWhile (p := (decide <| · ≠ '.')) (l := name.reverse)
  simp only [suffixOf] at hsome
  split at hsome
  · rename_i hafter
    set a := name.reverse.takeWhile (· ≠ '.') with ha
    have hb := List.head?_dropWhile_not (decide <| · ≠ '.') name.reverse
    cases hd : name.reverse.dropWhile (decide <| · ≠ '.') with
    | nil =>
      have hlength := congrArg List.length hsplit
      rw [hd, List.append_nil, List.length_reverse] at hlength
      omega
    | cons c b =>
      rw [hd] at hsplit hb
      obtain rfl : c = '.' := by simpa using hb
      have hname : name = b.reverse ++ '.' :: a.reverse := by
        rw [← List.reverse_reverse name, ← hsplit]
        simp
      have hne : a.reverse ≠ [] := by
        intro h
        simp only [List.reverse_eq_nil_iff] at h
        simp [h] at hafter
      have hlength := congrArg List.length hname
      simp only [List.length_append, List.length_reverse, List.length_cons] at hlength
      have hx : b.reverse ≠ [] := List.ne_nil_of_length_pos (by rw [List.length_reverse]; omega)
      have hdot : '.' ∉ a.reverse := by
        intro h
        rw [List.mem_reverse] at h
        simpa using List.mem_takeWhile_imp h
      exact hnone ⟨_, _, hname, hx, hne, hdot, hname ▸ suffixOf_append hx hne hdot⟩
  · exact hsome rfl

/-- A suffix stays one behind another stem. -/
theorem IsSuffix.suffixOf_cons (h : IsSuffix s) : suffixOf ('a' :: s) = s := by
  obtain ⟨name, -, rfl⟩ := h
  rcases suffixOf_cases name with hnil | ⟨x, e, -, -, he, hdot, hs⟩
  · rw [hnil]
    rfl
  · rw [hs]
    exact suffixOf_append (by simp : ['a'] ≠ []) he hdot

theorem IsSuffix.isName_cons (h : IsSuffix s) : IsName ('a' :: s) := by
  obtain ⟨name, hname, rfl⟩ := h
  have hsub : ∀ c ∈ suffixOf name, c ∈ name := fun c hc => by
    rcases suffixOf_cases name with hnil | ⟨x, e, hx, -, -, -, hs⟩
    · simp [hnil] at hc
    · rw [hs] at hc
      exact hx ▸ List.mem_append_right x hc
  refine ⟨fun h => ?_, fun h => ?_, by simp⟩
  · exact hname.noRoot (hsub _ (by simpa using h))
  · exact hname.noEnd (hsub _ (by simpa using h))

/-- A name is its stem and its suffix. -/
theorem stem_append_suffix (p : Path) : p.stem ++ p.suffix = p.name := by
  unfold stem suffix
  rcases suffixOf_cases p.name with hnil | ⟨x, e, hname, -, -, -, hs⟩
  · simp [hnil]
  · rw [hs]
    generalize p.name = name at hname
    subst hname
    simp

theorem name_append (hroot : p.root = []) (hne : p.parts ≠ []) : (dest.append p).name = p.name := by
  have hrelative : p.isAbsolute = false := by simp [isAbsolute, hroot]
  rw [append, if_neg (by simp [hrelative]), name, name, List.getLast?_append_of_ne_nil _ hne]

/-- Another suffix only changes the last component. -/
theorem withSuffix_append (dest : Path) (hroot : p.root = []) (hne : p.parts ≠ []) (s : Text) :
    (dest.append p).withSuffix s = dest.append (p.withSuffix s) := by
  have hrelative : p.isAbsolute = false := by simp [isAbsolute, hroot]
  have hrelative' : (p.withSuffix s).isAbsolute = false := hrelative
  rw [withSuffix, suffix, name_append hroot hne, append, append, if_neg (by simp [hrelative]),
    if_neg (by simp [hrelative']), List.dropLast_append_of_ne_nil hne, List.append_assoc]
  rfl

/-- Paths down from a folder are told apart by it. -/
theorem append_inj (hp : p.root = []) (hq : q.root = []) : dest.append p = dest.append q ↔ p = q := by
  have hparts : ∀ x : Path, x.root = [] → dest.append x = { dest with parts := dest.parts ++ x.parts } :=
    fun x hx => by simp [append, isAbsolute, hx]
  rw [hparts p hp, hparts q hq]
  obtain ⟨proot, pparts⟩ := p
  obtain ⟨qroot, qparts⟩ := q
  simp only at hp hq
  simp [hp, hq]

theorem withSuffix_inj (hp : p.root = q.root) :
    p.withSuffix s = q.withSuffix s ↔ p.parent = q.parent ∧ p.stem = q.stem := by
  rw [withSuffix_eq, withSuffix_eq, parent, parent]
  simp only [mk.injEq, hp, true_and]
  constructor
  · intro h
    obtain ⟨hinit, hlast⟩ := List.append_inj' h rfl
    exact ⟨hinit, by simpa using hlast⟩
  · rintro ⟨hinit, hlast⟩
    rw [hinit, hlast]

/-- Two paths with the same folder, stem and suffix are one. -/
theorem eq_of_stem (hroot : p.root = q.root) (hp : p.parts ≠ []) (hq : q.parts ≠ [])
    (hparent : p.parent = q.parent) (hstem : p.stem = q.stem) (hsuffix : p.suffix = q.suffix) : p = q := by
  have hname : p.name = q.name := by
    rw [← stem_append_suffix, ← stem_append_suffix, hstem, hsuffix]
  have hlast : ∀ x : Path, x.parts ≠ [] → x.parts = x.parent.parts ++ [x.name] := fun x hx => by
    rw [name, List.getLast?_eq_some_getLast hx, Option.getD_some, parent, List.dropLast_append_getLast]
  have hparts : p.parts = q.parts := by rw [hlast p hp, hlast q hq, hparent, hname]
  cases p
  cases q
  exact congrArg₂ mk hroot hparts

/-- The suffix of a trace. -/
theorem suffix_withSuffix_trace (p : Path) :
    (p.withSuffix ".trace.json".toList).suffix = ".json".toList := by
  have hname : (p.withSuffix ".trace.json".toList).name = (p.stem ++ ".trace".toList) ++ '.' :: "json".toList := by
    rw [withSuffix_eq, name]
    simp
  rw [suffix, hname]
  exact suffixOf_append (by simp) (by decide) (by decide)

end Path

end SwiftMacros
