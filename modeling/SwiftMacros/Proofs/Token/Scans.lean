import Mathlib
import SwiftMacros.Proofs.Token.Relined

/-! Reading a text with the gaps in it. In front of each lexeme there can be white space and comments, and
a line end among them. Moving lines leaves that as it is. -/

namespace SwiftMacros.Token

/-- What stands in front of a lexeme: whether a line end is among it, and whether there is anything. -/
structure Gap where
  newline : Bool := false
  space : Bool := false

/-- The gap goes on over a text. -/
def Gap.over (g : Gap) (x : Text) : Gap := ⟨g.newline || x.contains '\n', true⟩

/-- A gap that has a line end in it. -/
def Gap.line : Gap := ⟨true, true⟩

/-- A lexeme and the gap in front of it. -/
abbrev Spot := Gap × Word

/-- The front of a text up to the last one is made of chunks with these significant lexemes. The gap in
front of the text goes on into it, and the last gap in front of what is left. -/
inductive Scans : Gap → Text → List Spot → Text → Gap → Prop
  | done (g : Gap) (r : Text) : Scans g r [] r g
  | pass {g g' : Gap} {x u r : Text} {ls : List Spot} : Chunk x [] u → Scans (g.over x) u ls r g' →
      Scans g (x ++ u) ls r g'
  | take {g g' : Gap} {x u r : Text} {w : Word} {ls : List Spot} : Chunk x [w] u → Scans {} u ls r g' →
      Scans g (x ++ u) ((g, w) :: ls) r g'

theorem Chunk.cases_words {x u : Text} {a : List Word} (h : Chunk x a u) : a = [] ∨ ∃ w, a = [w] := by
  cases h with
  | lexeme => exact .inr ⟨_, rfl⟩
  | _ => exact .inl rfl

/-- What is read can be scanned with any gap in front of it. -/
theorem Reads.scans {t r : Text} {ls : List Word} (h : Reads t ls r) (g : Gap) :
    ∃ ms g', Scans g t ms r g' ∧ ms.map Prod.snd = ls := by
  induction h generalizing g with
  | done r => exact ⟨[], g, .done g r, rfl⟩
  | chunk hc _ ih =>
    rcases hc.cases_words with rfl | ⟨w, rfl⟩
    · obtain ⟨ms, g', hms, rfl⟩ := ih (g.over _)
      exact ⟨ms, g', .pass hc hms, rfl⟩
    · obtain ⟨ms, g', hms, rfl⟩ := ih {}
      exact ⟨_, g', .take hc hms, rfl⟩

/-- Other indents leave a line end where there is one. -/
theorem Relined.contains_newline {t u : Text} (h : Relined t u) : t.contains '\n' = u.contains '\n' := by
  induction h with
  | nil => rfl
  | char c _ ih => simp only [List.contains_cons, ih]
  | line => simp

namespace Scans

variable {g g' h h' : Gap} {t u v r s x x' : Text} {ls ms : List Spot}

theorem reads (hs : Scans g t ls r g') : Reads t (ls.map Prod.snd) r := by
  induction hs with
  | done => exact .done _
  | pass hc _ ih => exact .chunk hc ih
  | take hc _ ih => exact .chunk hc ih

theorem trans (hs : Scans g t ls u h) (hs' : Scans h u ms r g') : Scans g t (ls ++ ms) r g' := by
  induction hs with
  | done => exact hs'
  | pass hc _ ih => exact .pass hc (ih hs')
  | take hc _ ih => exact .take hc (ih hs')

/-- Of two scans of a text, the longer one goes on where the shorter one ends. -/
theorem between (hs : Scans g t ls u h) (hs' : Scans g t ms r h') (hle : r.length ≤ u.length) :
    ∃ ns, ms = ls ++ ns ∧ Scans h u ns r h' := by
  induction hs generalizing ms with
  | done => exact ⟨ms, rfl, hs'⟩
  | @pass g h x w u ls hc hrest ih =>
    generalize ht : x ++ w = t at hs'
    cases hs' with
    | done =>
      subst ht
      have h1 := hrest.reads.suffix.length_le
      have h2 := List.length_pos_iff.mpr hc.ne_nil
      simp only [List.length_append] at hle
      omega
    | pass hc' hrest' =>
      obtain ⟨rfl, -, rfl⟩ := hc.unique hc' ht
      exact ih hrest' hle
    | take hc' hrest' =>
      obtain ⟨-, hnil, -⟩ := hc.unique hc' ht
      cases hnil
  | @take g h x w u p ls hc hrest ih =>
    generalize ht : x ++ w = t at hs'
    cases hs' with
    | done =>
      subst ht
      have h1 := hrest.reads.suffix.length_le
      have h2 := List.length_pos_iff.mpr hc.ne_nil
      simp only [List.length_append] at hle
      omega
    | pass hc' hrest' =>
      obtain ⟨-, hnil, -⟩ := hc.unique hc' ht
      cases hnil
    | take hc' hrest' =>
      obtain ⟨rfl, hw, rfl⟩ := hc.unique hc' ht
      cases hw
      obtain ⟨ns, rfl, hns⟩ := ih hrest' hle
      exact ⟨ns, rfl, hns⟩

theorem eq_nil (hs : Scans g t ls t g') : ls = [] := List.map_eq_nil_iff.mp hs.reads.eq_nil

/-- A scan divides where the text has been read up to a place on the way. -/
theorem split {ws : List Word} (hs : Scans g t ls r g') (hu : Reads t ws u) (hle : r.length ≤ u.length) :
    ∃ ls₁ ls₂ h, ls = ls₁ ++ ls₂ ∧ ls₁.map Prod.snd = ws ∧ Scans g t ls₁ u h ∧ Scans h u ls₂ r g' := by
  obtain ⟨ls₁, h, hs₁, hws⟩ := hu.scans g
  obtain ⟨ls₂, rfl, hs₂⟩ := hs₁.between hs hle
  exact ⟨ls₁, ls₂, h, rfl, hws, hs₁, hs₂⟩

/-- With another gap in front of the text, the lexemes are the same, and the gaps between them. -/
theorem restart (hs : Scans g t ls r g') (h : Gap) : ∃ ms h', Scans h t ms r h' ∧
    ms.map Prod.snd = ls.map Prod.snd ∧ ms.tail = ls.tail := by
  induction hs generalizing h with
  | done g r => exact ⟨[], h, .done h r, rfl, rfl⟩
  | pass hc _ ih =>
    obtain ⟨ms, h', hms, hws, htail⟩ := ih (h.over _)
    exact ⟨ms, h', .pass hc hms, hws, htail⟩
  | take hc hrest _ => exact ⟨_, _, .take hc hrest, rfl, rfl⟩

/-- White space in front of a text makes its gap longer. -/
theorem of_gaps {w : Text} (hw : ∀ c ∈ w, isGap c = true) (hs : Scans Gap.line t ls r g') :
    Scans Gap.line (w ++ t) ls r g' := by
  induction w with
  | nil => exact hs
  | cons c w ih => exact .pass (x := [c]) (.gap (hw c (by simp))) (ih fun d hd => hw d (by simp [hd]))

/-- White space in front of what is scanned can be left out behind a line end. -/
theorem drop_blanks {b : Text} (hs : Scans Gap.line (b ++ u) ls r g') (hb : ∀ c ∈ b, Text.isBlank c = true)
    (hr : r.length ≤ u.length) : Scans Gap.line u ls r g' := by
  obtain ⟨hgaps, -⟩ := hs.reads.drop_blanks hb hr
  rcases eq_or_ne b [] with rfl | hne
  · exact hs
  · obtain ⟨ns, rfl, hns⟩ := (of_gaps hgaps (.done _ u)).between hs hr
    exact hns

/-- What has been scanned stands if the rest is replaced by a text that can follow. -/
theorem append (hs : Scans g t ls r g') (ht : t = u ++ r) {r' : Text} (hr : Follows u r r')
    (hq : r'.head? = some '"' → r.head? = some '"') : Scans g (u ++ r') ls r' g' := by
  induction hs generalizing u with
  | done g r =>
    obtain rfl : u = [] := by simpa using ht
    exact .done g _
  | @pass g g' x w r ls hc hrest ih =>
    obtain ⟨v, rfl⟩ := hrest.reads.suffix
    obtain rfl : u = x ++ v := by simpa [← List.append_assoc] using ht.symm
    rw [List.append_assoc]
    exact .pass (hc.append hr hq) (ih rfl (hr.of_suffix (List.suffix_append x v)) hq)
  | @take g g' x w r p ls hc hrest ih =>
    obtain ⟨v, rfl⟩ := hrest.reads.suffix
    obtain rfl : u = x ++ v := by simpa [← List.append_assoc] using ht.symm
    rw [List.append_assoc]
    exact .take (hc.append hr hq) (ih rfl (hr.of_suffix (List.suffix_append x v)) hq)

/-- A line end in front of a text that is left. -/
theorem newline (g : Gap) (r : Text) : Scans g ('\n' :: r) [] r Gap.line := by
  have := Scans.pass (g := g) (x := ['\n']) (.gap (c := '\n') (r := r) rfl) (.done _ r)
  simpa [Gap.over, Gap.line] using this

/-- What is read without a lexeme belongs to the gap. -/
theorem of_reads (hr : Reads t [] r) (ht : t = x ++ r) (hx : x ≠ []) (g : Gap) : Scans g t [] r (g.over x) := by
  obtain ⟨ms, g', hs, hms⟩ := hr.scans g
  obtain rfl := List.map_eq_nil_iff.mp hms
  clear hr hms
  generalize hnil : ([] : List Spot) = ls at hs
  induction hs generalizing x with
  | done g r => exact absurd (by simpa using ht) hx
  | @pass g g' y u r ls hc hrest ih =>
    subst hnil
    obtain ⟨v, rfl⟩ := hrest.reads.suffix
    obtain rfl : x = y ++ v := by simpa [← List.append_assoc] using ht.symm
    rcases eq_or_ne v [] with rfl | hv
    · rw [List.append_nil]
      exact .pass hc (.done _ _)
    · have hover : (g.over y).over v = g.over (y ++ v) := by simp [Gap.over, Bool.or_assoc]
      exact .pass hc (hover ▸ ih rfl hv rfl)
  | take => cases hnil

/-- White space at the end of what has been scanned can give way to a line end. -/
theorem trim (hs : Scans g t ls r g') {w : Text} (ht : t = x ++ w ++ r)
    (hw : ∀ c ∈ w, Text.isBlank c = true) (r' : Text) : Scans g (x ++ '\n' :: r') ls r' Gap.line := by
  have hstop : Stops ('\n' :: r') := stops_cons (by decide)
  have hquote : ∀ v : Text, ('\n' :: r').head? = some '"' → v.head? = some '"' := by simp
  induction hs generalizing x w with
  | done g r =>
    have hlen := congrArg List.length ht
    simp only [List.length_append] at hlen
    obtain rfl : x = [] := List.length_eq_zero_iff.mp (by omega)
    exact newline g r'
  | @pass g g' y u r ls hc hrest ih =>
    obtain ⟨v, rfl⟩ := hrest.reads.suffix
    have hyv : y ++ v = x ++ w := by simpa [← List.append_assoc] using ht
    rcases List.append_eq_append_iff.mp hyv with ⟨x', rfl, rfl⟩ | ⟨w', rfl, rfl⟩
    · -- the chunk lies in front of the white space
      rw [List.append_assoc] at hc ⊢
      exact .pass (hc.append (.inl (hstop.apart _)) (hquote _)) (ih rfl hw)
    · -- nothing but the gap is left, whether it is a comment or white space that is cut off
      obtain rfl : ls = [] := List.map_eq_nil_iff.mp
        (hrest.reads.blank rfl fun c hc => hw c (by simp [hc])).1
      have hread : Reads (x ++ '\n' :: r') [] r' :=
        (Reads.chunk hc hrest.reads).trim (by simp) hw r'
      have := of_reads (x := x ++ ['\n']) hread (by simp) (by simp) g
      simpa [Gap.over, Gap.line] using this
  | @take g g' y u r p ls hc hrest ih =>
    obtain ⟨v, rfl⟩ := hrest.reads.suffix
    have hyv : y ++ v = x ++ w := by simpa [← List.append_assoc] using ht
    rcases List.append_eq_append_iff.mp hyv with ⟨x', rfl, rfl⟩ | ⟨w', rfl, rfl⟩
    · rw [List.append_assoc] at hc ⊢
      exact .take (hc.append (.inl (hstop.apart _)) (hquote _)) (ih rfl hw)
    · -- a lexeme does not end with white space
      obtain rfl : w' = [] := by
        rcases List.eq_nil_or_concat w' with rfl | ⟨w', c, rfl⟩
        · rfl
        · have := (hc.last_not_blank (c := c) (by simp [← List.append_assoc]) (hw c (by simp))).1
          cases this
      rw [List.append_nil] at hc
      exact .take (Chunk.append (u := []) (r := v ++ r) hc (.inl (hstop.apart _)) (hquote _))
        (ih (x := []) (w := v) rfl fun c hc => hw c (by simp [hc]))

section Moves

variable {S : Text → Text → Prop} (hS : Mover S)
include hS

/-- Moved lines are scanned as the same lexemes with the same gaps between them. -/
theorem moved (hs : Scans g t ls r g') (ht : t = x ++ r) (hx : S x x') : ∃ ls',
    ls.Forall₂ (fun p p' => p.1 = p'.1 ∧ p.2.1 = p'.2.1 ∧ S p.2.2 p'.2.2) ls' ∧ Scans g (x' ++ r) ls' r g' := by
  induction hs generalizing x x' with
  | done g r =>
    obtain rfl : x = [] := by simpa using ht
    cases hS.relined hx
    exact ⟨[], .nil, .done g r⟩
  | @pass g g' y u r ls hc hrest ih =>
    obtain ⟨v, rfl⟩ := hrest.reads.suffix
    obtain rfl : x = y ++ v := by simpa [← List.append_assoc] using ht.symm
    -- behind a line end the next line is moved as well, and its indent does not change the gap
    have hnext : ∀ w, Gap.over g y = Gap.line → S ('\n' :: v) w → ∃ v' ls', w = '\n' :: v' ∧
        ls.Forall₂ (fun p p' => p.1 = p'.1 ∧ p.2.1 = p'.2.1 ∧ S p.2.2 p'.2.2) ls' ∧
          Scans Gap.line (v' ++ r) ls' r g' := by
      intro w hline hw
      obtain ⟨b, i, w, w', rfl, rfl, hb, hi, hw⟩ := hS.of_newline hw
      have hnot : '\n' ∉ b := fun hmem => (hb _ hmem).2 rfl
      obtain ⟨ls', hls, hread⟩ := ih rfl (hS.line hnot hw)
      rw [hline, List.append_assoc] at hread
      refine ⟨i ++ w', ls', rfl, hls, ?_⟩
      rw [List.append_assoc]
      exact of_gaps (fun c hc => isGap_of_isIndent (hi c hc)) (hread.drop_blanks (fun c hc => (hb c hc).1) (by simp))
    generalize hnil : ([] : List Word) = a at hc
    cases hc with
    | @gap c _ hg =>
      by_cases hline : c = '\n'
      · subst hline
        have hover : g.over ['\n'] = Gap.line := by simp [Gap.over, Gap.line]
        obtain ⟨v', ls', rfl, hls, hread⟩ := hnext _ hover hx
        exact ⟨ls', hls, .pass (x := ['\n']) (.gap hg) (hover ▸ hread)⟩
      · obtain ⟨v', rfl, hv⟩ := hS.of_line (x := [c]) (by simpa using Ne.symm hline) hx
        obtain ⟨ls', hls, hread⟩ := ih rfl hv
        exact ⟨ls', hls, .pass (x := [c]) (.gap hg) hread⟩
    | @lineComment y _ hy =>
      have hline : '\n' ∉ Token.lineComment ++ y := by
        simpa [Token.lineComment] using fun hmem => hy _ hmem rfl
      have hover : g.over (Token.lineComment ++ y ++ ['\n']) = Gap.line := by simp [Gap.over, Gap.line]
      rw [List.append_assoc] at hx
      obtain ⟨w, rfl, hw⟩ := hS.of_line hline hx
      obtain ⟨v', ls', rfl, hls, hread⟩ := hnext _ hover hw
      refine ⟨ls', hls, ?_⟩
      have := Scans.pass (.lineComment hy) (hover ▸ hread)
      simpa using this
    | blockComment hp hl =>
      have hsolid : ∀ c ∈ y.getLast?, Text.isBlank c = false := by
        obtain ⟨s, rfl⟩ := scanComment_suffix
          (show scanComment (0 + 1) 2 0 (y ++ _) = some (0 + _) by simpa [commentLength?] using hl)
        rw [List.getLast?_append_of_ne_nil _ (by simp)]
        rintro c ⟨⟩
        decide
      obtain ⟨y', v', rfl, hy, hv⟩ := hS.of_solid hsolid hx
      obtain ⟨ls', hls, hread⟩ := ih rfl hv
      obtain ⟨hp', hl'⟩ : blockOpen <+: y' ∧ commentLength? (y' ++ (v' ++ r)) = some y'.length :=
        (hS.relined hy).commentLength hp hl
      have hover : g.over y = g.over y' := by
        simp only [Gap.over, (hS.relined hy).contains_newline]
      refine ⟨ls', hls, ?_⟩
      rw [List.append_assoc]
      exact .pass (.blockComment hp' hl') (hover ▸ hread)
    | lexeme => cases hnil
  | @take g g' y u r p ls hc hrest ih =>
    obtain ⟨v, rfl⟩ := hrest.reads.suffix
    obtain rfl : x = y ++ v := by simpa [← List.append_assoc] using ht.symm
    generalize hp : [p] = a at hc
    cases hc with
    | @lexeme k _ _ hl hk =>
      obtain rfl : p = (k, y) := by simpa using hp
      have hsolid : ∀ c ∈ y.getLast?, Text.isBlank c = false := fun c hc => lexeme_last hl hk hc
      obtain ⟨y', v', rfl, hy, hv⟩ := hS.of_solid hsolid hx
      obtain ⟨ls', hls, hread⟩ := ih rfl hv
      refine ⟨(g, k, y') :: ls', .cons ⟨rfl, rfl, hy⟩ hls, ?_⟩
      rw [List.append_assoc]
      cases Chunk.relined (.lexeme hl hk) (hS.relined hv) with
      | lexeme hl' =>
        exact .take (.lexeme ((hS.relined hy).lexeme hl' hk) hk) hread
    | _ => cases hp

end Moves

end Scans

end SwiftMacros.Token
