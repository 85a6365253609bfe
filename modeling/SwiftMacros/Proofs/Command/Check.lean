import Mathlib
import SwiftMacros.Proofs.Command.Expand
import SwiftMacros.Proofs.Text.Utf8

/-! The check of a folder and its expansion. When the check finds nothing to expand, the expansion
writes each source as the program reads it, which is as it was if all its lines end with `\n`. -/

namespace SwiftMacros

/-- A text as it is read from a file has no `\r`. -/
theorem Text.not_mem_universalLineEnds (t : Text) : '\r' ∉ universalLineEnds t := by
  fun_induction universalLineEnds t with
  | case1 t ih => simpa using ih
  | case2 t _ ih => simpa using ih
  | case3 c t _ hc ih =>
    rw [List.mem_cons, not_or]
    exact ⟨fun h => hc h.symm, ih⟩
  | case4 => simp

/-- Only a `\r` makes a difference to how a text is read from a file. -/
theorem Text.universalLineEnds_eq_iff (t : Text) : universalLineEnds t = t ↔ '\r' ∉ t := by
  refine ⟨fun h hmem => not_mem_universalLineEnds t (h.symm ▸ hmem), fun h => ?_⟩
  fun_induction universalLineEnds t with
  | case1 t ih => simp at h
  | case2 t _ ih => simp at h
  | case3 c t _ _ ih => rw [ih (fun hmem => h (List.mem_cons_of_mem _ hmem))]
  | case4 => rfl

namespace Command

open FileTree

variable {lib : Library} {home : Text} {t : FileTree} {r : ExpandRequest} {s : Settings}

theorem textOf_encode {source : Path} {raw : Text} (h : t.read home source = .ok (Text.Utf8.encode raw)) :
    textOf home t source = .ok (Text.universalLineEnds raw) := by
  rw [textOf, h]
  dsimp only
  rw [Text.Utf8.decode_encode]

/-- The same request, only to check the sources. -/
def ExpandRequest.checking (r : ExpandRequest) : ExpandRequest := { r with check := true, out := none }

theorem writes_checking (texts : Path → Text) (ps : List Path) : r.checking.writes s texts ps = [] := by
  refine List.flatMap_eq_nil_iff.mpr fun p _ => ?_
  have htrace : r.checking.tracePath p = none := by
    unfold ExpandRequest.tracePath
    split <;> rfl
  rw [writesFor, htrace]
  simp [ExpandRequest.checking]

/-- Sources that can be expanded can be checked. -/
theorem Batch.checking {texts : Path → Text} (h : Batch lib home t r s texts) :
    Batch lib home t r.checking s texts where
  folder := h.folder
  names := h.names
  settings := h.settings
  out := .inr rfl
  reads := h.reads
  apart := by
    rw [writes_checking]
    simp
  written := by
    rw [writes_checking]
    rfl

/-- If a check of the sources finds nothing to expand, then their expansion ends well and writes each of
them as it is read. What is written is the source itself, byte for byte, if and only if no `\r` is in
it. -/
theorem expand_of_checked (raw : Path → Text) {dest : Path} (hc : lib.console.Lawful)
    (h : Batch lib home t r s fun p => Text.universalLineEnds (raw p)) (hout : r.out = some dest)
    (hcheck : r.check = false) (htrace : r.trace = none)
    (hraw : ∀ p ∈ sourcesIn home t r s, t.read home (r.path.append p) = .ok (Text.Utf8.encode (raw p)))
    (hchecked : ((expand lib (asFiles home) r.checking).finish.run t).1.1 = .code 0) :
    ∃ o t', (expand lib (asFiles home) r).finish.run t = ((.code 0, o), t') ∧
      ∀ p ∈ sourcesIn home t r s, ∀ l, location home (dest.append p) = some l →
        t'.node? l = some (.file (.bytes (Text.Utf8.encode (Text.universalLineEnds (raw p))))) ∧
        (t.read home (r.path.append p) = .ok (Text.Utf8.encode (Text.universalLineEnds (raw p))) ↔
          '\r' ∉ raw p) := by
  -- the check has made the same runs, and told of them
  obtain ⟨htold, hzero, -⟩ := (h.checking.code_iff hc 0 _).mp ⟨_, Prod.ext (Prod.ext hchecked rfl) rfl⟩
  have hsame : ∀ p ∈ sourcesIn home t r s,
      (r.runOf s (fun p => Text.universalLineEnds (raw p)) p).success = true ∧
      (r.runOf s (fun p => Text.universalLineEnds (raw p)) p).code = Text.universalLineEnds (raw p) := by
    intro p hp
    by_contra hne
    refine absurd (hzero.trans ((exitCode_eq_one_iff (r := r.checking) _).mpr ⟨p, hp, ?_⟩)) (by decide)
    by_cases hs : (r.runOf s (fun p => Text.universalLineEnds (raw p)) p).success = true
    · exact .inr ⟨rfl, hs, fun heq => hne ⟨hs, heq⟩⟩
    · exact .inl (Bool.not_eq_true _ ▸ hs)
  have hcode : exitCode (outcomesIn home t r s fun p => Text.universalLineEnds (raw p)) = 0 := by
    refine (exitCode_le _).resolve_right fun hone => ?_
    obtain ⟨p, hp, hfail | ⟨hcheck', -⟩⟩ := (exitCode_eq_one_iff _).mp hone
    · rw [(hsame p hp).1] at hfail
      cases hfail
    · rw [hcheck] at hcheck'
      cases hcheck'
  obtain ⟨o, ho⟩ := (h.code_iff hc 0 _).mpr ⟨⟨htold.warnings, htold.none, htold.runs⟩, hcode.symm, rfl⟩
  refine ⟨o, _, ho, fun p hp l hl => ⟨?_, ?_⟩⟩
  · obtain ⟨hs, heq⟩ := hsame p hp
    exact (h.files_iff hout hcheck htrace l _).mpr (.inl ⟨p, hp, hs, hl, by rw [heq]⟩)
  · rw [hraw p hp, Except.ok.injEq, Text.Utf8.encode_injective.eq_iff, eq_comm,
      Text.universalLineEnds_eq_iff]

/-- A folder with one source. -/
def oneSource (text : Text) : FileTree :=
  ⟨[(["src".toList], .folder), (["src".toList, "a.swift".toList], .file (.bytes (Text.Utf8.encode text)))]⟩

/-- A source whose lines end with `\n` is written as it is. -/
theorem expand_of_checked_one : ∃ o t', (expand Library.usual (asFiles ['/']) twoRequest).finish.run
      (oneSource "let a = 1\n".toList) = ((.code 0, o), t') ∧
    t'.node? ["out".toList, "a.swift".toList] =
      some (.file (.bytes (Text.Utf8.encode "let a = 1\n".toList))) := by
  have hsources : sourcesIn ['/'] (oneSource "let a = 1\n".toList) twoRequest {} =
      [⟨[], ["a.swift".toList]⟩] := by
    decide +kernel
  have hnames : ∀ n ∈ (oneSource "let a = 1\n".toList).nodes, "..".toList ∉ n.1 := by decide
  have hread : ∀ p ∈ sourcesIn ['/'] (oneSource "let a = 1\n".toList) twoRequest {},
      (oneSource "let a = 1\n".toList).read ['/'] (twoRequest.path.append p) =
        .ok (Text.Utf8.encode "let a = 1\n".toList) := by
    rw [hsources]
    decide +kernel
  have hbatch : Batch Library.usual ['/'] (oneSource "let a = 1\n".toList) twoRequest {}
      fun _ => Text.universalLineEnds "let a = 1\n".toList := {
    folder := by rfl
    names := hnames
    settings := by rfl
    out := .inl rfl
    reads := fun p hp => textOf_encode (hread p hp)
    apart := writes_apart ["src".toList] ["out".toList] hnames rfl rfl rfl (by decide) (by decide)
    written := by
      rw [hsources]
      decide +kernel }
  have hchecked : ((expand Library.usual (asFiles ['/']) twoRequest.checking).finish.run
      (oneSource "let a = 1\n".toList)).1.1 = .code 0 := by
    decide +kernel
  obtain ⟨o, t', hrun, hfiles⟩ :=
    expand_of_checked (fun _ => "let a = 1\n".toList) Markup.console_lawful hbatch rfl rfl rfl hread hchecked
  rw [hsources] at hfiles
  exact ⟨o, t', hrun, (hfiles ⟨[], ["a.swift".toList]⟩ (by simp) ["out".toList, "a.swift".toList] rfl).1⟩

/-- A source whose line ends with `\r\n` has nothing to expand either, and yet it is written with
another line end. -/
theorem expand_changes_checked :
    ((expand Library.usual (asFiles ['/']) twoRequest.checking).finish.run (oneSource "let a = 1\r\n".toList)).1.1 =
      .code 0 ∧
    ((expand Library.usual (asFiles ['/']) twoRequest).finish.run (oneSource "let a = 1\r\n".toList)).2.node?
      ["out".toList, "a.swift".toList] = some (.file (.bytes (Text.Utf8.encode "let a = 1\n".toList))) ∧
    Text.Utf8.encode "let a = 1\n".toList ≠ Text.Utf8.encode "let a = 1\r\n".toList := by
  refine ⟨?_, ?_, ?_⟩ <;> decide +kernel

end Command

end SwiftMacros
