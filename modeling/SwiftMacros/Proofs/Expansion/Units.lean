import Mathlib
import SwiftMacros.Proofs.Expansion.Siteless
import SwiftMacros.Proofs.Token.Boundary

/-! Texts one behind the other, with a line end between them. The sites that are found in both together are those of
the first and those of the second, further on. So what two runs have left without sites is left as it is by a run over
both, although a run over the two sources can read a declaration of the first into the second. -/

namespace SwiftMacros

open Token (Lexes tokenize)

/-- The site, with so many line ends and characters put in front of the source. -/
def Site.further (lines chars : Nat) (x : Site) : Site := { x with token := x.token.further lines chars }

variable {r : Registry} {a b : Text}

section Sites

variable {role : Role} {ts us : List Token}

theorem Site.all_append : Site.all r role (ts ++ us) = Site.all r role ts ++ Site.all r role us := List.filterMap_append

theorem Site.all_further (lines chars : Nat) :
    Site.all r role (us.map (Token.further lines chars)) = (Site.all r role us).map (Site.further lines chars) := by
  rw [Site.all, Site.all, List.filterMap_map, List.map_filterMap]
  refine List.filterMap_congr fun t _ => ?_
  show (if t.kind = tokenKind role then _ else none) = _
  split
  · rw [Option.map_map]
    rfl
  · rfl

/-- Tokens that are the same but for trivia have the same sites. -/
theorem Site.all_of_significant
    (h : ts.filter (fun t => !t.kind.isTrivia) = us.filter fun t => !t.kind.isTrivia) :
    Site.all r role ts = Site.all r role us := by
  have hfilter : ∀ ks : List Token, (ks.filter fun t => !t.kind.isTrivia).filter (fun t => t.kind == tokenKind role) =
      ks.filter fun t => t.kind == tokenKind role := fun ks => by
    rw [List.filter_filter]
    refine List.filter_congr fun t _ => ?_
    cases hk : t.kind == tokenKind role with
    | false => rfl
    | true =>
      rw [beq_iff_eq.mp hk]
      cases role <;> rfl
  rw [← Site.all_filter, ← hfilter, h, hfilter, Site.all_filter]

theorem Site.all_eof (p : Place) : Site.all r role [Token.tokenAt p .eof []] = [] := by cases role <;> rfl

/-- What stands in front of a line end and what stands behind it are searched for sites each by itself. -/
theorem Site.all_lines (hts : tokenize a = .ok ts) (hus : tokenize b = .ok us) :
    ∃ vs, tokenize (a ++ '\n' :: b) = .ok vs ∧ ∀ r role, Site.all r role vs =
      Site.all r role ts ++ (Site.all r role us).map (Site.further (a.count '\n' + 1) (a.length + 1)) := by
  obtain ⟨fs, p, rfl, hfs⟩ := (Token.tokensFrom_lexes {} a).1 ts hts
  obtain ⟨ks, e, rfl, hks⟩ := (Token.tokensFrom_lexes {} b).1 us hus
  obtain ⟨ws, hws, hfilter⟩ := hfs.broken (List.append_nil a).symm b
  rw [Token.foldl_newline] at hws
  refine ⟨_, (hws.append (hks.further (a.count '\n' + 1) (a.length + 1))).tokensFrom rfl, fun r role => ?_⟩
  simp only [Site.all_append, Site.all_eof, List.append_nil, Site.all_of_significant hfilter, Site.all_further]

end Sites

/-- Texts without sites have none together. -/
theorem Siteless.lines (ha : Siteless r a) (hb : Siteless r b) : Siteless r (a ++ '\n' :: b) := by
  obtain ⟨ts, hts, hnone⟩ := ha
  obtain ⟨us, hus, hnone'⟩ := hb
  obtain ⟨vs, hvs, hall⟩ := Site.all_lines hts hus
  exact ⟨vs, hvs, fun role => by rw [hall, hnone, hnone']; rfl⟩

namespace Expansion

end Expansion

end SwiftMacros
