import Mathlib
import SwiftMacros.Proofs.StrictMode
import SwiftMacros.Proofs.Expansion.Disjoint
import SwiftMacros.Expansion.Report
import SwiftMacros.Proofs.Text.LineEnds

/-! The report on setters against the expansion. Both read the declarations at the same tokens one
after the other, so the report lists what a pass over the same source makes. It does not follow the
source through several passes: what an expression marker inside a declaration expands to is not
seen. -/

namespace SwiftMacros

/-- The setters made of an annotated declaration. -/
structure Made where
  group : Group
  tag : Attribute
  list : SetterList

namespace Made

/-- The setters as the report lists them. -/
def rows (m : Made) : List Expansion.FieldReport :=
  m.list.setters.map fun f => ⟨m.group.name, m.list.kind, f, m.group.line⟩

def report (m : Made) : Expansion.FieldReports := ⟨m.rows, m.list.warnings⟩

/-- The edits of a source that remove the attribute and insert the methods of the setters. -/
def edits (s : Settings) (code : Text) (m : Made) : List Edit :=
  let outer := Text.lineIndent code m.group.start
  let inner := (m.group.block.indent? code).getD (outer ++ s.indent)
  let methods := Setter.methods m.list.kind m.tag.access (unitFor inner s.indent) m.list.setters
  let removal := Edit.removal code m.tag.start m.tag.stop
  if methods.isEmpty then [removal]
  else [removal, Edit.insertion code m.group.block methods outer inner]

end Made

section Registry

/-- The macros that are built in. -/
theorem Registry.ofSettings_cases {s : Settings} {name : Text} {role : Role} {m : Macro}
    (h : (Registry.ofSettings s).withRole? name role = some m) : m.role = role ∧
      (m = Macro.fluentSetter s.fluentSetter ∨ m = Macro.weakSelf s.weakSelf) := by
  unfold withRole? at h
  obtain ⟨hfind, hrole⟩ := Option.filter_eq_some_iff.mp h
  obtain ⟨e, he, rfl⟩ := Option.map_eq_some_iff.mp hfind
  have hmem := List.mem_of_find?_eq_some he
  have hentries : ∀ e ∈ (Registry.ofSettings s).entries,
      e.2 = Macro.fluentSetter s.fluentSetter ∨ e.2 = Macro.weakSelf s.weakSelf := by
    simp only [ofSettings, register, insertEntry]
    split <;> simp
  exact ⟨by simpa using hrole, hentries e hmem⟩

/-- The only member macro that is built in makes setters. -/
theorem Site.setters_of_mem_all {s : Settings} {ts : List Token} {x : Site}
    (h : x ∈ Site.all (Registry.ofSettings s) .member ts) : x.called.action = .setters := by
  obtain ⟨t, -, ht⟩ := List.mem_filterMap.mp h
  split at ht
  · obtain ⟨m, hm, rfl⟩ := Option.map_eq_some_iff.mp ht
    obtain ⟨hrole, rfl | rfl⟩ := Registry.ofSettings_cases hm
    · rfl
    · cases hrole
  · cases ht

/-- The only expression macro that is built in captures `self` weakly. -/
theorem Site.weakCapture_of_mem_all {s : Settings} {ts : List Token} {x : Site}
    (h : x ∈ Site.all (Registry.ofSettings s) .expression ts) : x.called.action = .weakCapture := by
  obtain ⟨t, -, ht⟩ := List.mem_filterMap.mp h
  split at ht
  · obtain ⟨m, hm, rfl⟩ := Option.map_eq_some_iff.mp ht
    obtain ⟨hrole, rfl | rfl⟩ := Registry.ofSettings_cases hm
    · cases hrole
    · rfl
  · cases ht

end Registry

namespace Parser

variable {α β : Type} {p : Parser α} {f : α → Parser β} {c c' : Cursor} {a : α} {e : SyntaxError}

end Parser

section Sites

variable {s : Settings} {path : Option Text} {c c₁ : Cursor}

theorem Expanded.ofMember_setters {code : Text} {m : Macro} (hm : m.action = .setters) {g : Group}
    {a : Attribute} {y : Expanded}
    (hy : (Expanded.ofMember { settings := s, path } code m g a).result = .ok y) :
    ∃ l, g.setters = .ok l ∧ y.edits = (Made.mk g a l).edits s code := by
  unfold Expanded.ofMember Macro.expandMember at hy
  rw [hm] at hy
  cases hl : g.setters with
  | error e =>
    simp only [hl] at hy
    cases hy
  | ok l =>
    simp only [hl] at hy
    cases hy
    refine ⟨l, rfl, ?_⟩
    have hunit : ∀ inner, (Context.withIndent { settings := s, path } (unitFor inner s.indent)).indent =
        unitFor inner s.indent := by
      intro inner
      unfold Context.indent Context.withIndent
      dsimp only
      split
      · rename_i hempty
        unfold unitFor at hempty ⊢
        split at hempty
        · cases hempty
        · rw [if_neg ‹_›]
      · rfl
    have hindent : Context.indent { settings := s, path } = s.indent := rfl
    simp only [Made.edits, hindent, hunit]

end Sites

section Selection

open Pass

variable {markers : List Nat} {t : Selection}

end Selection

namespace Expansion

variable {s : Settings} {r : Registry} {code : Text} {c : Cursor}

end Expansion

end SwiftMacros
