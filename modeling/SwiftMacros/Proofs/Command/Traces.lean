import Mathlib
import SwiftMacros.Proofs.Command.Expand

/-! The traces of a batch. Each goes beside the code of its source, with another suffix in place of the
source's own; so sources that differ in nothing but their suffixes share one, and a source can be named
as the trace of another is. Where neither happens, each trace and each expanded file is kept. -/

namespace SwiftMacros.Command

open FileTree

variable {lib : Library} {home : Text} {t t' : FileTree} {r : ExpandRequest} {s : Settings}
  {texts : Path → Text} {dest p q : Path}

/-- All files and folders have names. -/
def Named (t : FileTree) : Prop := ∀ n ∈ t.nodes, ∀ part ∈ n.1, Path.IsName part

/-- The traces of a batch have places of their own: no two sources share one, and none is the place of an
expanded source. -/
structure TracesApart (home : Text) (t : FileTree) (r : ExpandRequest) (s : Settings) : Prop where
  traces : ∀ p ∈ sourcesIn home t r s, ∀ q ∈ sourcesIn home t r s, p ≠ q → r.tracePath p ≠ r.tracePath q
  results : ∀ p ∈ sourcesIn home t r s, ∀ q ∈ sourcesIn home t r s, r.tracePath p ≠ r.destination q

/-- No two sources differ in nothing but their suffixes, and none is named as the trace of another. -/
structure StemsApart (home : Text) (t : FileTree) (r : ExpandRequest) (s : Settings) : Prop where
  stems : ∀ p ∈ sourcesIn home t r s, ∀ q ∈ sourcesIn home t r s, p.parent = q.parent → p.stem = q.stem →
    p = q
  names : ∀ p ∈ sourcesIn home t r s, p.withSuffix ".trace.json".toList ∉ sourcesIn home t r s

/-- Of the extensions, one at most is the suffix of any name, and that is not the one of traces. -/
structure OneSuffix (extensions : List Text) : Prop where
  one : ∀ e ∈ extensions, ∀ e' ∈ extensions, Path.IsSuffix e → Path.IsSuffix e' → e = e'
  noJson : ".json".toList ∉ extensions

section Paths

theorem tracePath_eq (hout : r.out = some dest) (htrace : r.trace.isSome = true) (hroot : p.root = [])
    (hne : p.parts ≠ []) : r.tracePath p = some (dest.append (p.withSuffix ".trace.json".toList)) := by
  rw [ExpandRequest.tracePath, if_pos htrace, ExpandRequest.destination, hout, Option.map_some,
    Option.map_some, Path.withSuffix_append dest hroot hne]

/-- Whether the traces have places of their own is told by the names of the sources. -/
theorem tracesApart_iff (hout : r.out = some dest) (htrace : r.trace.isSome = true) :
    TracesApart home t r s ↔ StemsApart home t r s := by
  have hdown : ∀ p ∈ sourcesIn home t r s, p.root = [] ∧ p.parts ≠ [] := fun p hp =>
    have h := mem_filesBelow (mem_sourcesIn_iff.mp hp).1
    ⟨h.1, h.2.1⟩
  have hroot : ∀ p ∈ sourcesIn home t r s, (p.withSuffix ".trace.json".toList).root = [] := fun p hp =>
    (hdown p hp).1
  have hpath : ∀ p ∈ sourcesIn home t r s,
      r.tracePath p = some (dest.append (p.withSuffix ".trace.json".toList)) := fun p hp =>
    tracePath_eq hout htrace (hdown p hp).1 (hdown p hp).2
  have hshared : ∀ p ∈ sourcesIn home t r s, ∀ q ∈ sourcesIn home t r s,
      (r.tracePath p = r.tracePath q ↔ p.parent = q.parent ∧ p.stem = q.stem) := by
    intro p hp q hq
    rw [hpath p hp, hpath q hq, Option.some.injEq, Path.append_inj (hroot p hp) (hroot q hq),
      Path.withSuffix_inj ((hdown p hp).1.trans (hdown q hq).1.symm)]
  have hnamed : ∀ p ∈ sourcesIn home t r s, ∀ q ∈ sourcesIn home t r s,
      (r.tracePath p = r.destination q ↔ p.withSuffix ".trace.json".toList = q) := by
    intro p hp q hq
    rw [hpath p hp, ExpandRequest.destination, hout, Option.map_some, Option.some.injEq,
      Path.append_inj (hroot p hp) (hdown q hq).1]
  constructor
  · intro h
    refine ⟨fun p hp q hq hparent hstem => ?_, fun p hp hmem => ?_⟩
    · by_contra hne
      exact h.traces p hp q hq hne ((hshared p hp q hq).mpr ⟨hparent, hstem⟩)
    · exact h.results p hp _ hmem ((hnamed p hp _ hmem).mpr rfl)
  · intro h
    refine ⟨fun p hp q hq hne heq => ?_, fun p hp q hq heq => ?_⟩
    · obtain ⟨hparent, hstem⟩ := (hshared p hp q hq).mp heq
      exact hne (h.stems p hp q hq hparent hstem)
    · have hq' := (hnamed p hp q hq).mp heq
      exact h.names p hp (hq' ▸ hq)

end Paths

section Extensions

/-- Files of some names beside each other. -/
def flatTree (names : List Text) : FileTree := ⟨names.map fun n => ([n], .file (.bytes []))⟩

/-- A request for the traces of all that is below the root. -/
def flatRequest : ExpandRequest :=
  { path := ⟨[], []⟩, out := some ⟨[], ["out".toList]⟩, trace := some ⟨[], ["t".toList]⟩ }

theorem named_flatTree {names : List Text} (h : ∀ n ∈ names, Path.IsName n) : Named (flatTree names) := by
  intro node hnode part hpart
  obtain ⟨n, hn, rfl⟩ := List.mem_map.mp hnode
  rw [List.mem_singleton.mp hpart]
  exact h n hn

theorem mem_flatTree {names : List Text} {n : Text} (hn : n ∈ names)
    (hsuffix : Path.suffixOf n ∈ s.fileExtensions) :
    (⟨[], [n]⟩ : Path) ∈ sourcesIn home (flatTree names) flatRequest s := by
  refine mem_sourcesIn_iff.mpr ⟨?_, hsuffix⟩
  have hwalk : (flatTree names).walk home flatRequest.path = .found [] .folder := rfl
  rw [filesBelow, hwalk]
  refine List.mem_filterMap.mpr ⟨([n], .bytes []), ?_, rfl⟩
  exact List.mem_filterMap.mpr ⟨([n], .file (.bytes [])), List.mem_map_of_mem hn, rfl⟩

/-- The name of a source can name a file. -/
theorem isName_of_mem_sourcesIn (ht : Named t) (hp : p ∈ sourcesIn home t r s) : Path.IsName p.name := by
  obtain ⟨-, hne, n, hn, hsuffix⟩ := mem_filesBelow (mem_sourcesIn_iff.mp hp).1
  rw [Path.name, List.getLast?_eq_some_getLast hne, Option.getD_some]
  exact ht n hn _ (hsuffix.subset (List.getLast_mem hne))

/-- If all batches keep their traces apart, files of two suffixes are never looked for. -/
theorem OneSuffix.of_stemsApart (h : ∀ t, Named t → StemsApart [] t flatRequest s) :
    OneSuffix s.fileExtensions := by
  refine ⟨fun e he e' he' hsuffix hsuffix' => ?_, fun hjson => ?_⟩
  · have hall : ∀ x ∈ [e, e'], x ∈ s.fileExtensions ∧ Path.IsSuffix x := by
      simp only [List.forall_mem_cons, List.not_mem_nil, false_implies, implies_true, and_true]
      exact ⟨⟨he, hsuffix⟩, he', hsuffix'⟩
    have hmem : ∀ x ∈ [e, e'], (⟨[], ['a' :: x]⟩ : Path) ∈
        sourcesIn [] (flatTree ([e, e'].map ('a' :: ·))) flatRequest s := fun x hx => by
      refine mem_flatTree (List.mem_map_of_mem hx) ?_
      rw [(hall x hx).2.suffixOf_cons]
      exact (hall x hx).1
    have hstem : ∀ x, Path.IsSuffix x → Path.stem ⟨[], ['a' :: x]⟩ = ['a'] := fun x hx => by
      have hname : _ ++ Path.suffixOf ('a' :: x) = ['a'] ++ x := Path.stem_append_suffix ⟨[], ['a' :: x]⟩
      rw [hx.suffixOf_cons] at hname
      exact List.append_cancel_right hname
    have hnamed : Named (flatTree ([e, e'].map ('a' :: ·))) := named_flatTree fun n hn => by
      obtain ⟨x, hx, rfl⟩ := List.mem_map.mp hn
      exact (hall x hx).2.isName_cons
    have heq := (h _ hnamed).stems _ (hmem e (by simp)) _ (hmem e' (by simp)) rfl
      ((hstem e hsuffix).trans (hstem e' hsuffix').symm)
    simpa using heq
  · have hnames : ∀ n ∈ ["a.json".toList, "a.trace.json".toList],
        Path.suffixOf n = ".json".toList ∧ '/' ∉ n ∧ '\x00' ∉ n ∧ n ∉ [[], ".".toList, "..".toList] := by
      decide
    have hmem : ∀ n ∈ ["a.json".toList, "a.trace.json".toList], (⟨[], [n]⟩ : Path) ∈
        sourcesIn [] (flatTree ["a.json".toList, "a.trace.json".toList]) flatRequest s := fun n hn => by
      refine mem_flatTree hn ?_
      rwa [(hnames n hn).1]
    have hnamed : Named (flatTree ["a.json".toList, "a.trace.json".toList]) := named_flatTree fun n hn =>
      have h := (hnames n hn).2
      ⟨h.1, h.2.1, h.2.2⟩
    exact (h _ hnamed).names _ (hmem "a.json".toList (by simp)) (hmem "a.trace.json".toList (by simp))

theorem OneSuffix.stemsApart (h : OneSuffix s.fileExtensions) (ht : Named t) : StemsApart home t r s := by
  refine ⟨fun p hp q hq hparent hstem => ?_, fun p hp hmem => ?_⟩
  · obtain ⟨hbelow, hin⟩ := mem_sourcesIn_iff.mp hp
    obtain ⟨hbelow', hin'⟩ := mem_sourcesIn_iff.mp hq
    obtain ⟨hroot, hne, -⟩ := mem_filesBelow hbelow
    obtain ⟨hroot', hne', -⟩ := mem_filesBelow hbelow'
    exact Path.eq_of_stem (hroot.trans hroot'.symm) hne hne' hparent hstem
      (h.one _ hin _ hin' ⟨_, isName_of_mem_sourcesIn ht hp, rfl⟩ ⟨_, isName_of_mem_sourcesIn ht hq, rfl⟩)
  · have hin := (mem_sourcesIn_iff.mp hmem).2
    rw [Path.suffix_withSuffix_trace] at hin
    exact h.noJson hin

end Extensions

section Kept

/-- What is written for sources is a trace or the code of one of them. -/
theorem mem_writes_cases {ps : List Path} {w : Path × Content} : w ∈ r.writes s texts ps ↔
    ∃ p ∈ ps, (r.tracePath p = some w.1 ∧ w.2 = .trace (r.runOf s texts p).events) ∨
      ((r.runOf s texts p).success = true ∧ r.check = false ∧ r.destination p = some w.1 ∧
        w.2 = .bytes (Text.Utf8.encode (r.runOf s texts p).code)) := by
  obtain ⟨x, content⟩ := w
  simp only [ExpandRequest.writes, List.mem_flatMap, writesFor, List.mem_append, Option.mem_toList,
    Option.map_eq_some_iff, Prod.mk.injEq]
  refine exists_congr fun p => and_congr_right fun _ => or_congr ?_ ?_
  · constructor
    · rintro ⟨y, hy, rfl, rfl⟩
      exact ⟨hy, rfl⟩
    · rintro ⟨hy, rfl⟩
      exact ⟨x, hy, rfl, rfl⟩
  · cases hs : (r.runOf s texts p).success <;> cases hc : r.check <;>
      simp [eq_comm, and_comm]

/-- Where the traces have places of their own, all that is written to one place is the same. -/
theorem TracesApart.writes_one (h : TracesApart home t r s) (hnames : ∀ n ∈ t.nodes, "..".toList ∉ n.1)
    (hout : r.out = some dest) : ∀ w ∈ r.writes s texts (sourcesIn home t r s),
      ∀ w' ∈ r.writes s texts (sourcesIn home t r s), ∀ l, location home w.1 = some l →
        location home w'.1 = some l → w.2 = w'.2 := by
  intro w hw w' hw' l hl hl'
  have hpath : w.1 = w'.1 := by
    obtain ⟨x, hx, hxparts, hwx⟩ := destination_of_mem_writes hnames hout hw
    obtain ⟨y, hy, hyparts, hwy⟩ := destination_of_mem_writes hnames hout hw'
    rw [hwx] at hl
    rw [hwy] at hl'
    rw [hwx, hwy, location_append_inj hx hxparts hy hyparts hl hl']
  obtain ⟨p, hp, ⟨htrace, hw⟩ | ⟨-, -, hdest, hw⟩⟩ := mem_writes_cases.mp hw <;>
    obtain ⟨q, hq, ⟨htrace', hw'⟩ | ⟨-, -, hdest', hw'⟩⟩ := mem_writes_cases.mp hw'
  · have hpq : p = q := by
      by_contra hne
      exact h.traces p hp q hq hne (by rw [htrace, htrace', hpath])
    rw [hw, hw', hpq]
  · exact absurd (by rw [htrace, hdest', hpath]) (h.results p hp q hq)
  · exact absurd (by rw [htrace', hdest, hpath]) (h.results q hq p hp)
  · have hpq : p = q := by
      have heq := hdest.trans ((congrArg some hpath).trans hdest'.symm)
      rw [ExpandRequest.destination, ExpandRequest.destination, hout, Option.map_some, Option.map_some,
        Option.some.injEq] at heq
      exact (Path.append_inj (sourcesIn_down hnames p hp).1 (sourcesIn_down hnames q hq).1).mp heq
    rw [hw, hw', hpq]

/-- The traces of a batch. They have places of their own just if no two sources differ in nothing but
their suffixes and none is named as the trace of another; that is so for every tree just if one suffix is
looked for at most, which is not the one of traces. Where it is so, a batch that ends with a code leaves the
trace of each source and, unless the sources are only checked, the code of each whose run succeeds; and it
ends with one if all can be told of it. -/
theorem traces_kept (hc : lib.console.Lawful) (h : Batch lib home t r s texts) (hout : r.out = some dest)
    (htrace : r.trace.isSome = true) :
    (TracesApart home t r s ↔ StemsApart home t r s) ∧
    (OneSuffix s.fileExtensions ↔ ∀ home t r, Named t → r.out.isSome = true → r.trace.isSome = true →
      TracesApart home t r s) ∧
    (TracesApart home t r s → (Told lib home t r s texts → ∃ n o t',
        (expand lib (asFiles home) r).finish.run t = ((.code n, o), t')) ∧
      ∀ n o t', (expand lib (asFiles home) r).finish.run t = ((.code n, o), t') →
        ∀ p ∈ sourcesIn home t r s, ∀ x l, location home x = some l →
        (r.tracePath p = some x → t'.node? l = some (.file (.trace (r.runOf s texts p).events))) ∧
        (r.destination p = some x → r.check = false → (r.runOf s texts p).success = true →
          t'.node? l = some (.file (.bytes (Text.Utf8.encode (r.runOf s texts p).code))))) := by
  refine ⟨tracesApart_iff hout htrace, ⟨fun hone home t r ht hr hr' => ?_, fun hall => ?_⟩,
    fun hapart => ⟨fun htold => ?_, fun n o t' hrun p hp x l hl => ?_⟩⟩
  · obtain ⟨dest, hdest⟩ := Option.isSome_iff_exists.mp hr
    exact (tracesApart_iff hdest hr').mpr (hone.stemsApart ht)
  · exact .of_stemsApart fun t ht => (tracesApart_iff rfl rfl).mp (hall [] t flatRequest ht rfl rfl)
  · obtain ⟨o, ho⟩ := (h.code_iff hc _ _).mpr ⟨htold, rfl, rfl⟩
    exact ⟨_, o, _, ho⟩
  · obtain ⟨-, -, rfl⟩ := (h.code_iff hc n t').mp ⟨o, hrun⟩
    have hfiles := writeAll_files h.written' (hapart.writes_one h.names hout) l
    constructor
    · intro hx
      exact (hfiles _).mpr (.inl ⟨(x, _), mem_writes_cases.mpr ⟨p, hp, .inl ⟨hx, rfl⟩⟩, hl, rfl⟩)
    · intro hx hcheck hs
      exact (hfiles _).mpr
        (.inl ⟨(x, _), mem_writes_cases.mpr ⟨p, hp, .inr ⟨hs, hcheck, hx, rfl⟩⟩, hl, rfl⟩)

/-- A folder with two sources that can be read. -/
def traceTree : FileTree :=
  ⟨[(["src".toList], .folder),
    (["src".toList, "a.swift".toList], .file (.bytes (Text.Utf8.encode "let a = 1\n".toList))),
    (["src".toList, "b.swift".toList], .file (.bytes (Text.Utf8.encode "let b = 2\n".toList)))]⟩

/-- A request to expand the folder and to leave the traces. -/
def traceRequest : ExpandRequest :=
  { path := ⟨[], ["src".toList]⟩, out := some ⟨[], ["out".toList]⟩, trace := some ⟨[], ["t.json".toList]⟩ }

/-- What its sources read as. -/
def traceTexts (p : Path) : Text :=
  if p.parts = ["a.swift".toList] then "let a = 1\n".toList else "let b = 2\n".toList

/-- Each of the two sources has its trace. -/
theorem traces_kept_two : ∃ n o t',
    (expand Library.usual (asFiles ['/']) traceRequest).finish.run traceTree = ((.code n, o), t') ∧
    t'.node? ["out".toList, "a.trace.json".toList] = some (.file
      (.trace (traceRequest.runOf {} traceTexts ⟨[], ["a.swift".toList]⟩).events)) ∧
    t'.node? ["out".toList, "b.trace.json".toList] = some (.file
      (.trace (traceRequest.runOf {} traceTexts ⟨[], ["b.swift".toList]⟩).events)) := by
  have hnames : ∀ n ∈ traceTree.nodes, "..".toList ∉ n.1 := by decide
  have hsources : sourcesIn ['/'] traceTree traceRequest {} =
      [⟨[], ["a.swift".toList]⟩, ⟨[], ["b.swift".toList]⟩] := by
    decide +kernel
  have hbatch : Batch Library.usual ['/'] traceTree traceRequest {} traceTexts := {
    folder := by rfl
    names := hnames
    settings := by rfl
    out := .inl rfl
    reads := by
      rw [hsources]
      decide +kernel
    apart := writes_apart ["src".toList] ["out".toList] hnames rfl rfl rfl (by decide) (by decide)
    written := by
      rw [hsources]
      decide +kernel }
  have hout : traceRequest.out = some ⟨[], ["out".toList]⟩ := rfl
  have htold : Told Library.usual ['/'] traceTree traceRequest {} traceTexts := {
    warnings := fun w hw => by cases hw
    none := fun hnil => by rw [hsources] at hnil; cases hnil
    runs := by
      rw [hsources]
      have hnone : ∀ p ∈ ([⟨[], ["a.swift".toList]⟩, ⟨[], ["b.swift".toList]⟩] : List Path),
          (traceRequest.runOf {} traceTexts p).warnings = [] := by
        decide +kernel
      refine fun p hp => ⟨fun w hw => ?_, rfl⟩
      rw [hnone p hp] at hw
      cases hw }
  obtain ⟨hiff, -, hkept⟩ := traces_kept Markup.console_lawful hbatch hout rfl
  have hapart : TracesApart ['/'] traceTree traceRequest {} := by
    refine hiff.mpr ⟨?_, ?_⟩ <;> rw [hsources] <;> decide +kernel
  obtain ⟨hends, hfiles⟩ := hkept hapart
  obtain ⟨n, o, t', hrun⟩ := hends htold
  replace hfiles := hfiles n o t' hrun
  rw [hsources] at hfiles
  refine ⟨n, o, t', hrun, ?_, ?_⟩
  · exact (hfiles _ (by simp) ⟨[], ["out".toList, "a.trace.json".toList]⟩ _ (by decide)).1 (by decide +kernel)
  · exact (hfiles _ (by simp) ⟨[], ["out".toList, "b.trace.json".toList]⟩ _ (by decide)).1 (by decide +kernel)

/-- Two sources that differ in their suffixes, beside each other. -/
def sharedTree : FileTree :=
  ⟨[(["src".toList], .folder),
    (["src".toList, "a.swift".toList], .file (.bytes (Text.Utf8.encode "let a = 1\n".toList))),
    (["src".toList, "a.swiftinterface".toList], .file (.bytes (Text.Utf8.encode "let b = 2\n".toList)))]⟩

/-- With an interface beside a source, and both looked for, one trace is written over the other. -/
theorem traces_shared : ∃ p q, p ≠ q ∧
    sourcesIn ['/'] sharedTree traceRequest
      { fileExtensions := [".swift".toList, ".swiftinterface".toList] } = [p, q] ∧
    traceRequest.tracePath p = traceRequest.tracePath q ∧
    traceRequest.tracePath p = some ⟨[], ["out".toList, "a.trace.json".toList]⟩ :=
  ⟨⟨[], ["a.swift".toList]⟩, ⟨[], ["a.swiftinterface".toList]⟩, by decide +kernel⟩

end Kept

end SwiftMacros.Command
