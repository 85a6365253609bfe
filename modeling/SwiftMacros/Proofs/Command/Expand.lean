import Mathlib
import SwiftMacros.Proofs.Command.Ends
import SwiftMacros.Proofs.Files.Suffix

/-! The expansion of all sources below a folder. Each source that can be read is run on its own; what
comes of it decides on its file below the destination and, for all sources together, on the exit code.
Something that cannot be told of a run breaks the whole expansion off. -/

namespace SwiftMacros.Command

open FileTree

variable {home : Text} {t t' : FileTree}

section Settled

/-- The action looks at the files and changes none. -/
def Looks {α : Type} (a : StateM FileTree α) : Prop := ∀ t, (a.run t).2 = t

theorem Looks.bind {α β : Type} {a : StateM FileTree α} {f : α → StateM FileTree β} (h : Looks a)
    (hf : ∀ x, Looks (f x)) : Looks (a >>= f) := by
  intro t
  change ((f (a.run t).1).run (a.run t).2).2 = t
  rw [hf, h]

theorem Looks.pure {α : Type} (x : α) : Looks (Pure.pure x) := fun _ => rfl

theorem nearestFile_looks (home : Text) (folders : List Path) :
    Looks (Settings.nearestFile (asFiles home) folders) := by
  induction folders with
  | nil => exact .pure none
  | cons folder folders ih =>
    refine .bind (.bind (fun _ => rfl) fun _ => .pure _) fun found => ?_
    split
    · exact .pure _
    · exact ih

/-- Loading settings changes no file. -/
theorem load_looks (lib : Library) (home : Text) (given : Entries) (folder : Path) :
    Looks (Settings.load lib (asFiles home) given folder) := by
  refine .bind (fun _ => rfl) fun _ => .bind (nearestFile_looks home _) fun found => ?_
  cases found with
  | none => exact .pure _
  | some file =>
    refine .bind (fun _ => rfl) fun found => ?_
    dsimp only
    split <;> exact .pure _

variable {lib : Library}

/-- The message that all have passed is plain. -/
theorem plain_passed (passed all : Nat) : Text.Plain ("Batch Complete: ".toList ++ Text.ofNat passed ++
    '/' :: Text.ofNat all ++ " files expanded.".toList) :=
  ((Text.Plain.append (by decide) (Text.plain_ofNat _)).append
    (List.forall_mem_cons.mpr ⟨by decide, Text.plain_ofNat _⟩)).append (by decide)

theorem summarize_ends (hc : lib.console.Lawful) (outcomes : List Outcome) :
    Ends t (summarize lib outcomes) () t := by
  unfold summarize
  dsimp only
  split
  · exact .log hc ⟨plain_passed _ _, trivial⟩
  · exact .bind (.tabulate hc _ _ _) (.emit _)

theorem conclude_ends (hc : lib.console.Lawful) (check isFolder : Bool) (outcomes : List Outcome) :
    Ends t (conclude lib check isFolder outcomes) (exitCode outcomes) t := by
  unfold conclude
  extract_lets finish pending rest
  have hfinish : Ends t (finish ()) (exitCode outcomes) t := .pure _
  have hrest : Ends t (rest ()) (exitCode outcomes) t := by
    simp only [rest]
    split
    · refine .bind (.forM fun _ _ => .log hc ⟨by decide, trivial⟩) ?_
      split
      · exact .bind (.log hc ⟨by decide, trivial⟩) hfinish
      · exact hfinish
    · exact hfinish
  split
  · exact .bind (summarize_ends hc outcomes) hrest
  · exact hrest

end Settled

section Batch

variable {lib : Library} {r : ExpandRequest} {s : Settings} {texts : Path → Text}

/-- The sources of a request, seen from its folder. -/
def sourcesIn (home : Text) (t : FileTree) (r : ExpandRequest) (s : Settings) : List Path :=
  ((sourcesBelow (asFiles home) r.path s.fileExtensions).run t).1

namespace ExpandRequest

/-- Where the code of a source goes. -/
def destination (r : ExpandRequest) (p : Path) : Option Path := r.out.map (·.append p)

/-- Where the trace of a source goes, if it is asked for. -/
def tracePath (r : ExpandRequest) (p : Path) : Option Path :=
  if r.trace.isSome then (r.destination p).map (·.withSuffix ".trace.json".toList) else none

/-- The run on a source that reads as `texts` tells. -/
def runOf (r : ExpandRequest) (s : Settings) (texts : Path → Text) (p : Path) : Expansion.Result :=
  Expansion.run s (Registry.ofSettings s) (texts p) (some (r.path.append p).toText)

/-- Whether a source is told to change. -/
def isPending (r : ExpandRequest) (s : Settings) (texts : Path → Text) (p : Path) : Bool :=
  r.check && (r.runOf s texts p).success && (texts p != (r.runOf s texts p).code)

/-- All that is written for sources, in order. -/
def writes (r : ExpandRequest) (s : Settings) (texts : Path → Text) (ps : List Path) :
    List (Path × Content) :=
  ps.flatMap fun p => writesFor r.check (r.destination p) (r.tracePath p) (r.runOf s texts p)

end ExpandRequest

/-- Sources that can be read, and that nothing is written to, end with the results of their runs if all
can be told of each, and only then. -/
theorem sources_ends (hc : lib.console.Lawful) {ps : List Path}
    (htexts : ∀ p ∈ ps, textOf home t (r.path.append p) = .ok (texts p))
    (hapart : ∀ w ∈ r.writes s texts ps, ∀ p ∈ ps, location home w.1 ≠ location home (r.path.append p))
    (hwrites : (writeAll (asFiles home) (r.writes s texts ps)).run t = (.ok (), t')) :
    let named p := expandNamed lib (asFiles home) s r.check p.toText (r.path.append p) (r.destination p)
      (r.tracePath p)
    ((∀ p ∈ ps, Tells lib s (texts p) (r.runOf s texts p)) → Ends t (ps.mapM named)
      (ps.map fun p => ⟨p.toText, r.runOf s texts p, r.isPending s texts p⟩) t') ∧
    ((∃ p ∈ ps, ¬ Tells lib s (texts p) (r.runOf s texts p)) → Breaks t (ps.mapM named)) := by
  intro named
  induction ps generalizing t with
  | nil =>
    cases hwrites
    exact ⟨fun _ => .pure [], by simp⟩
  | cons p ps ih =>
    obtain ⟨t₁, hp, hps⟩ := writeAll_append hwrites
    have hread : ∀ q ∈ p :: ps, textOf home t₁ (r.path.append q) = .ok (texts q) := fun q hq =>
      textOf_writeAll hp (fun w hw => hapart w (List.mem_append_left _ hw) q hq) (htexts q hq)
    obtain ⟨hends, hbreaks⟩ := ih (fun q hq => hread q (by simp [hq]))
      (fun w hw q hq => hapart w (List.mem_append_right _ hw) q (by simp [hq])) hps
    have hfirst : Tells lib s (texts p) (r.runOf s texts p) →
        Ends t (named p) ⟨p.toText, r.runOf s texts p, r.isPending s texts p⟩ t₁ := fun htells =>
      expandNamed_ends hc (htexts p (by simp)) rfl htells hp (hread p (by simp))
    rw [List.mapM_cons]
    refine ⟨fun hall => ?_, fun hsome => ?_⟩
    · exact .bind (hfirst (hall p (by simp))) (.bind (hends fun q hq => hall q (by simp [hq])) (.pure _))
    · by_cases htells : Tells lib s (texts p) (r.runOf s texts p)
      · refine .next (hfirst htells) (.first (hbreaks ?_))
        obtain ⟨q, hq, hnot⟩ := hsome
        rcases List.mem_cons.mp hq with rfl | hq
        · exact absurd htells hnot
        · exact ⟨q, hq, hnot⟩
      · exact .first (.first (expandSource_breaks (htexts p (by simp)) htells))

/-- What a request finds, on a folder that is there. -/
theorem opening_run (hfolder : (t.walk home r.path).status = .folder) :
    (opening lib (asFiles home) r.settings r.path).run t =
      (some (false, ((Settings.load lib (asFiles home) r.settings r.path).run t).1), t) := by
  have hfile : ((asFiles home).isFile r.path).run t = (false, t) := by
    change (((t.walk home r.path).status == .file), t) = _
    rw [hfolder]
    rfl
  have hisFolder : ((asFiles home).isFolder r.path).run t = (true, t) := by
    change (((t.walk home r.path).status == .folder), t) = _
    rw [hfolder]
    rfl
  have hplace : (settingsFolder (asFiles home) r.path).run t = (r.path, t) := by
    unfold settingsFolder
    rw [StateT.run_bind, hisFolder]
    rfl
  unfold opening
  rw [StateT.run_bind, hfile]
  change (StateT.run (do
    let isFolder ← (asFiles home).isFolder r.path
    if !false && !isFolder then return none
    else
      let folder ← settingsFolder (asFiles home) r.path
      return some (false, ← Settings.load lib (asFiles home) r.settings folder)) t) = _
  rw [StateT.run_bind, hisFolder]
  change (StateT.run (do
    let folder ← settingsFolder (asFiles home) r.path
    return some (false, ← Settings.load lib (asFiles home) r.settings folder)) t) = _
  rw [StateT.run_bind, hplace]
  exact congrArg (Prod.mk _) (load_looks lib home r.settings r.path t)

/-- The folder has sources, or it can be told that it has none. -/
def ToldNone (lib : Library) (r : ExpandRequest) (s : Settings) (ps : List Path) : Prop :=
  ps = [] → (lib.console.render (lib.console.message
    (.words Level.warning.sign.toList :: noSources s r.path))).isSome = true

theorem expandFolder_ends (hc : lib.console.Lawful) (hout : r.out.isSome = true ∨ r.check = true)
    (htexts : ∀ p ∈ sourcesIn home t r s, textOf home t (r.path.append p) = .ok (texts p))
    (hapart : ∀ w ∈ r.writes s texts (sourcesIn home t r s), ∀ p ∈ sourcesIn home t r s,
      location home w.1 ≠ location home (r.path.append p))
    (hwrites : (writeAll (asFiles home) (r.writes s texts (sourcesIn home t r s))).run t = (.ok (), t')) :
    (ToldNone lib r s (sourcesIn home t r s) →
      (∀ p ∈ sourcesIn home t r s, Tells lib s (texts p) (r.runOf s texts p)) →
      Ends t (expandFolder lib (asFiles home) s r)
        (exitCode ((sourcesIn home t r s).map fun p =>
          ⟨p.toText, r.runOf s texts p, r.isPending s texts p⟩)) t') ∧
    (¬ ToldNone lib r s (sourcesIn home t r s) ∨
      (∃ p ∈ sourcesIn home t r s, ¬ Tells lib s (texts p) (r.runOf s texts p)) →
      Breaks t (expandFolder lib (asFiles home) s r)) := by
  unfold expandFolder
  rw [if_neg (by
    rcases hout with hout | hout
    · simp [Option.isNone_eq_false_iff.mpr hout]
    · simp [hout])]
  have hsources : (sourcesBelow (asFiles home) r.path s.fileExtensions).run t =
      (sourcesIn home t r s, t) := rfl
  generalize sourcesIn home t r s = ps at *
  obtain ⟨hends, hbreaks⟩ := sources_ends hc htexts hapart hwrites
  cases ps with
  | nil =>
    cases hwrites
    refine ⟨fun htold _ => ?_, fun hnot => ?_⟩
    · obtain ⟨shown, hshown⟩ := Option.isSome_iff_exists.mp (htold rfl)
      exact .bind (.lift hsources) (.bind (.bind (.rendered hshown) (.emit _)) (.pure _))
    · refine .next (.lift hsources) (.first (.first (.rendered ?_)))
      simpa [ToldNone] using hnot
  | cons p ps =>
    have hlog : Ends t (log lib.console .info
        [.words ("Processing ".toList ++ Text.ofNat (p :: ps).length ++ " files from ".toList),
          .shown r.path.toText, .words "...".toList]) () t :=
      .log hc ⟨(Text.Plain.append (by decide) (Text.plain_ofNat _)).append (by decide),
        ⟨by decide, trivial⟩, by decide, trivial⟩
    refine ⟨fun _ htells => ?_, fun hnot => ?_⟩
    · exact .bind (.lift hsources) (.bind hlog (.bind (hends htells) (conclude_ends hc _ _ _)))
    · refine .next (.lift hsources) (.next hlog (.first (hbreaks ?_)))
      simpa [ToldNone] using hnot

end Batch

section Locations

variable {p q dest : Path}

/-- Components without `..` lead further down. -/
theorem location_append (home : Text) (hroot : p.root = []) (hparts : "..".toList ∉ p.parts) :
    location home (dest.append p) = (location home dest).map (· ++ p.parts) := by
  have hrelative : p.isAbsolute = false := by simp [Path.isAbsolute, hroot]
  rw [Path.append, if_neg (by simp [hrelative]), location, location, List.foldl_append]
  generalize List.foldl enter _ dest.parts = base
  generalize p.parts = parts at hparts
  induction parts generalizing base with
  | nil => cases base <;> simp
  | cons part parts ih =>
    rw [List.mem_cons, not_or] at hparts
    rw [List.foldl_cons, ih _ hparts.2]
    cases base with
    | none => rfl
    | some l =>
      rw [enter, Option.bind_some, if_neg (Ne.symm hparts.1)]
      simp

/-- Paths down from a folder lead to places of their own. -/
theorem location_append_inj {l : List Text} (hp : p.root = []) (hpparts : "..".toList ∉ p.parts)
    (hq : q.root = []) (hqparts : "..".toList ∉ q.parts) (hl : location home (dest.append p) = some l)
    (hl' : location home (dest.append q) = some l) : p = q := by
  rw [location_append home hp hpparts] at hl
  rw [location_append home hq hqparts, ← hl] at hl'
  cases hdest : location home dest with
  | none => simp [hdest] at hl
  | some base =>
    rw [hdest, Option.map_some, Option.map_some, Option.some.injEq] at hl'
    cases p
    cases q
    exact congrArg₂ Path.mk (hp.trans hq.symm) (List.append_cancel_left hl').symm

theorem mem_insertSorted (ps : List Path) : q ∈ Path.insertSorted p ps ↔ q = p ∨ q ∈ ps := by
  induction ps with
  | nil => simp [Path.insertSorted]
  | cons x ps ih =>
    rw [Path.insertSorted]
    split
    · simp
    · simp only [List.mem_cons, ih]
      tauto

theorem mem_sort (ps : List Path) : q ∈ Path.sort ps ↔ q ∈ ps := by
  unfold Path.sort
  induction ps with
  | nil => simp
  | cons x ps ih => rw [List.foldr_cons, mem_insertSorted, ih, List.mem_cons]

/-- The files below a folder are seen from it by a part of where they are. -/
theorem mem_filesBelow {folder : Path} (h : p ∈ t.filesBelow home folder) :
    p.root = [] ∧ p.parts ≠ [] ∧ ∃ n ∈ t.nodes, p.parts <:+ n.1 := by
  unfold filesBelow at h
  split at h
  · obtain ⟨⟨l, content⟩, hl, hbelow⟩ := List.mem_filterMap.mp h
    obtain ⟨⟨l', n⟩, hn, hfile⟩ := List.mem_filterMap.mp hl
    cases n with
    | folder => cases hfile
    | file content' =>
      cases hfile
      obtain ⟨parts, hparts, rfl⟩ := Option.map_eq_some_iff.mp hbelow
      unfold below? at hparts
      split at hparts
      · rename_i hlonger
        cases hparts
        rw [Bool.and_eq_true, decide_eq_true_eq] at hlonger
        exact ⟨rfl, List.drop_eq_nil_iff.not.mpr (by omega), _, hn, List.drop_suffix _ _⟩
      · cases hparts
  · cases h

/-- The sources are the files below the folder whose suffix is one of those in the settings. -/
theorem mem_sourcesIn_iff {r : ExpandRequest} {s : Settings} : p ∈ sourcesIn home t r s ↔
    p ∈ t.filesBelow home r.path ∧ p.suffix ∈ s.fileExtensions := by
  have hrun : sourcesIn home t r s =
      Path.sort ((t.filesBelow home r.path).filter fun p => s.fileExtensions.contains p.suffix) := rfl
  rw [hrun, mem_sort, List.mem_filter, List.contains_iff_mem]

/-- The sources of a folder are paths down from it. -/
theorem sourcesIn_down {r : ExpandRequest} {s : Settings}
    (hnames : ∀ n ∈ t.nodes, "..".toList ∉ n.1) :
    ∀ p ∈ sourcesIn home t r s, p.root = [] ∧ p.parts ≠ [] ∧ "..".toList ∉ p.parts := by
  intro p hp
  obtain ⟨hroot, hne, n, hn, hsuffix⟩ := mem_filesBelow (mem_sourcesIn_iff.mp hp).1
  exact ⟨hroot, hne, fun hmem => hnames n hn (hsuffix.subset hmem)⟩

end Locations

/-- When all of a list has been written, the files are those of the list, each with its content, and
those that had been there elsewhere. -/
theorem writeAll_files {ws : List (Path × Content)}
    (h : (writeAll (asFiles home) ws).run t = (.ok (), t'))
    (hone : ∀ w ∈ ws, ∀ w' ∈ ws, ∀ l, location home w.1 = some l → location home w'.1 = some l →
      w.2 = w'.2) (l : List Text) (content : Content) :
    t'.node? l = some (.file content) ↔ (∃ w ∈ ws, location home w.1 = some l ∧ w.2 = content) ∨
      (t.node? l = some (.file content) ∧ ∀ w ∈ ws, location home w.1 ≠ some l) := by
  induction ws generalizing t with
  | nil =>
    cases h
    simp
  | cons w ws ih =>
    obtain ⟨t₁, hw, hrest⟩ := writeAll_cons h
    obtain ⟨-, hthere, helsewhere⟩ := write_written hw
    rw [ih hrest fun w hw w' hw' => hone w (by simp [hw]) w' (by simp [hw'])]
    by_cases hl : location home w.1 = some l
    · rw [hthere l hl]
      constructor
      · rintro (⟨w', hw', hl', rfl⟩ | ⟨heq, -⟩)
        · exact .inl ⟨w', by simp [hw'], hl', rfl⟩
        · cases heq
          exact .inl ⟨w, by simp, hl, rfl⟩
      · rintro (⟨w', hw', hl', rfl⟩ | ⟨-, hnone⟩)
        · by_cases hlater : ∃ v ∈ ws, location home v.1 = some l
          · obtain ⟨v, hv, hlv⟩ := hlater
            exact .inl ⟨v, hv, hlv, hone v (by simp [hv]) w' hw' l hlv hl'⟩
          · refine .inr ⟨?_, fun v hv hlv => hlater ⟨v, hv, hlv⟩⟩
            rw [hone w (by simp) w' hw' l hl hl']
        · exact absurd hl (hnone w (by simp))
    · rw [helsewhere l hl]
      simp [hl]

/-- A file that is there when all of a list has been written was there before or is in the list. -/
theorem writeAll_file {ws : List (Path × Content)}
    (h : (writeAll (asFiles home) ws).run t = (.ok (), t')) {l : List Text} {content : Content}
    (hl : t'.node? l = some (.file content)) :
    t.node? l = some (.file content) ∨ ∃ w ∈ ws, w.2 = content := by
  induction ws generalizing t with
  | nil =>
    cases h
    exact .inl hl
  | cons w ws ih =>
    obtain ⟨t₁, hw, hrest⟩ := writeAll_cons h
    obtain ⟨-, hthere, helsewhere⟩ := write_written hw
    rcases ih hrest with h₁ | ⟨w', hw', heq⟩
    · by_cases hlw : location home w.1 = some l
      · rw [hthere l hlw] at h₁
        cases h₁
        exact .inr ⟨w, by simp, rfl⟩
      · exact .inl ((helsewhere l hlw content).mp h₁)
    · exact .inr ⟨w', by simp [hw'], heq⟩

section Requests

variable {lib : Library} {r : ExpandRequest} {s : Settings} {texts : Path → Text}

/-- A request to expand the sources of a folder that is there. Its settings can be loaded, each source
reads as `texts` tells, all that is to be written can be written, and no source is written to, as is
the case if the destination lies outside of the folder. -/
structure Batch (lib : Library) (home : Text) (t : FileTree) (r : ExpandRequest) (s : Settings)
    (texts : Path → Text) : Prop where
  folder : (t.walk home r.path).status = .folder
  names : ∀ n ∈ t.nodes, "..".toList ∉ n.1
  settings : ((Settings.load lib (asFiles home) r.settings r.path).run t).1.1 = .ok s
  out : r.out.isSome = true ∨ r.check = true
  reads : ∀ p ∈ sourcesIn home t r s, textOf home t (r.path.append p) = .ok (texts p)
  apart : ∀ w ∈ r.writes s texts (sourcesIn home t r s), ∀ p ∈ sourcesIn home t r s,
    location home w.1 ≠ location home (r.path.append p)
  written : ((writeAll (asFiles home) (r.writes s texts (sourcesIn home t r s))).run t).1 = .ok ()

/-- All can be told of a batch: the warnings of its settings, that it has no sources, and what comes of the
runs on its sources. -/
structure Told (lib : Library) (home : Text) (t : FileTree) (r : ExpandRequest) (s : Settings)
    (texts : Path → Text) : Prop where
  warnings : ∀ w ∈ ((Settings.load lib (asFiles home) r.settings r.path).run t).1.2,
    (lib.console.notice w).isSome = true
  none : ToldNone lib r s (sourcesIn home t r s)
  runs : ∀ p ∈ sourcesIn home t r s, Tells lib s (texts p) (r.runOf s texts p)

theorem exitCode_le (outcomes : List Outcome) : exitCode outcomes = 0 ∨ exitCode outcomes = 1 := by
  unfold exitCode
  split
  · exact .inr rfl
  · exact .inl rfl

/-- The exit code tells of sources that fail and, if they are only checked, of those that would change. -/
theorem exitCode_eq_one_iff (ps : List Path) :
    exitCode (ps.map fun p => ⟨p.toText, r.runOf s texts p, r.isPending s texts p⟩) = 1 ↔
      ∃ p ∈ ps, (r.runOf s texts p).success = false ∨ r.check = true ∧
        (r.runOf s texts p).success = true ∧ (r.runOf s texts p).code ≠ texts p := by
  have hpending : ∀ p, r.isPending s texts p = true ↔ r.check = true ∧
      (r.runOf s texts p).success = true ∧ (r.runOf s texts p).code ≠ texts p := fun p => by
    simp [ExpandRequest.isPending, and_assoc, ne_comm]
  have hif : ∀ b : Bool, (if b = true then 1 else 0) = 1 ↔ b = true := by decide
  rw [exitCode, hif]
  simp [hpending, List.isEmpty_eq_false_iff, ← exists_or, ← and_or_left]

/-- What comes of the sources of a batch. -/
def outcomesIn (home : Text) (t : FileTree) (r : ExpandRequest) (s : Settings) (texts : Path → Text) :
    List Outcome :=
  (sourcesIn home t r s).map fun p => ⟨p.toText, r.runOf s texts p, r.isPending s texts p⟩

/-- The tree that a batch leaves. -/
def treeAfter (home : Text) (t : FileTree) (r : ExpandRequest) (s : Settings) (texts : Path → Text) :
    FileTree :=
  ((writeAll (asFiles home) (r.writes s texts (sourcesIn home t r s))).run t).2

namespace Batch

theorem written' (h : Batch lib home t r s texts) :
    (writeAll (asFiles home) (r.writes s texts (sourcesIn home t r s))).run t =
      (.ok (), treeAfter home t r s texts) := Prod.ext h.written rfl

theorem load (h : Batch lib home t r s texts) :
    ((Settings.load lib (asFiles home) r.settings r.path).run t).1 =
      (.ok s, ((Settings.load lib (asFiles home) r.settings r.path).run t).1.2) := Prod.ext h.settings rfl

/-- How a batch ends of which all can be told, and what it leaves. -/
theorem ends (hc : lib.console.Lawful) (h : Batch lib home t r s texts) (htold : Told lib home t r s texts) :
    Ends t (expand lib (asFiles home) r) (exitCode (outcomesIn home t r s texts))
      (treeAfter home t r s texts) := by
  refine .bind (.lift (opening_run h.folder)) ?_
  rw [h.load]
  exact .bind (.forM fun w hw => .note (htold.warnings w hw))
    ((expandFolder_ends hc h.out h.reads h.apart h.written').1 htold.none htold.runs)

/-- A batch is broken off at the first thing that cannot be told. -/
theorem breaks (hc : lib.console.Lawful) (h : Batch lib home t r s texts)
    (htold : ¬ Told lib home t r s texts) : Breaks t (expand lib (asFiles home) r) := by
  refine .next (.lift (opening_run h.folder)) ?_
  rw [h.load]
  by_cases hwarnings : ∀ w ∈ ((Settings.load lib (asFiles home) r.settings r.path).run t).1.2,
      (lib.console.notice w).isSome = true
  · refine .next (.forM fun w hw => .note (hwarnings w hw))
      ((expandFolder_ends hc h.out h.reads h.apart h.written').2 ?_)
    by_contra hall
    rw [not_or, not_not] at hall
    refine htold ⟨hwarnings, hall.1, fun p hp => ?_⟩
    by_contra hnot
    exact hall.2 ⟨p, hp, hnot⟩
  · refine .first (.notes ?_)
    simpa using hwarnings

/-- A batch that ends with a code. -/
theorem code_iff (hc : lib.console.Lawful) (h : Batch lib home t r s texts) (n : Nat) (t' : FileTree) :
    (∃ o, (expand lib (asFiles home) r).finish.run t = ((.code n, o), t')) ↔
      Told lib home t r s texts ∧ n = exitCode (outcomesIn home t r s texts) ∧
        t' = treeAfter home t r s texts := by
  by_cases htold : Told lib home t r s texts
  · obtain ⟨o, ho⟩ := (h.ends hc htold).finish
    rw [ho]
    constructor
    · rintro ⟨o', heq⟩
      cases heq
      exact ⟨htold, rfl, rfl⟩
    · rintro ⟨-, rfl, rfl⟩
      exact ⟨o, rfl⟩
  · obtain ⟨e, o, t₁, ho⟩ := (h.breaks hc htold).finish
    rw [ho]
    refine ⟨fun ⟨o', heq⟩ => ?_, fun hall => absurd hall.1 htold⟩
    cases heq

end Batch

/-- What is written if no traces are asked for and the sources are not only checked: the code of each
source whose run succeeds. -/
theorem mem_writes_iff (s : Settings) (texts : Path → Text) {dest : Path} (ps : List Path)
    (hout : r.out = some dest) (hcheck : r.check = false) (htrace : r.trace = none)
    (w : Path × Content) : w ∈ r.writes s texts ps ↔
      ∃ p ∈ ps, (r.runOf s texts p).success = true ∧
        w = (dest.append p, .bytes (Text.Utf8.encode (r.runOf s texts p).code)) := by
  simp only [ExpandRequest.writes, List.mem_flatMap]
  refine exists_congr fun p => and_congr_right fun _ => ?_
  cases hs : (r.runOf s texts p).success <;>
    simp [writesFor, ExpandRequest.destination, ExpandRequest.tracePath, hout, hcheck, htrace, hs]

/-- Nothing but traces is written if the sources are only checked. -/
theorem trace_of_mem_writes {ps : List Path} (hcheck : r.check = true) {w : Path × Content}
    (hw : w ∈ r.writes s texts ps) : r.trace.isSome = true ∧ ∃ events, w.2 = .trace events := by
  obtain ⟨p, -, hw⟩ := List.mem_flatMap.mp hw
  simp only [writesFor, hcheck, Bool.not_true, Bool.and_false, Bool.false_eq_true, if_false,
    List.append_nil, Option.mem_toList, Option.map_eq_some_iff] at hw
  obtain ⟨q, hq, rfl⟩ := hw
  refine ⟨?_, _, rfl⟩
  by_contra hnone
  simp [ExpandRequest.tracePath, hnone] at hq

/-- What is written for a source goes below the destination. -/
theorem destination_of_mem_writes {dest : Path} (hnames : ∀ n ∈ t.nodes, "..".toList ∉ n.1)
    (hout : r.out = some dest) {w : Path × Content}
    (hw : w ∈ r.writes s texts (sourcesIn home t r s)) :
    ∃ q : Path, q.root = [] ∧ "..".toList ∉ q.parts ∧ w.1 = dest.append q := by
  obtain ⟨p, hp, hw⟩ := List.mem_flatMap.mp hw
  obtain ⟨hroot, hne, hparts⟩ := sourcesIn_down hnames p hp
  rcases List.mem_append.mp hw with hw | hw
  · obtain ⟨q, hq, rfl⟩ : ∃ q, r.tracePath p = some q ∧ (q, .trace (r.runOf s texts p).events) = w := by
      simpa using hw
    unfold ExpandRequest.tracePath ExpandRequest.destination at hq
    rw [hout] at hq
    split at hq
    · cases hq
      refine ⟨p.withSuffix ".trace.json".toList, hroot, ?_, Path.withSuffix_append dest hroot hne _⟩
      rw [Path.withSuffix_eq, List.mem_append, not_or]
      refine ⟨fun hmem => hparts (List.mem_of_mem_dropLast hmem), fun hmem => ?_⟩
      have := congrArg List.length (List.mem_singleton.mp hmem)
      simp at this
    · cases hq
  · split at hw
    · have hpath : w = (dest.append p, .bytes (Text.Utf8.encode (r.runOf s texts p).code)) := by
        simpa [ExpandRequest.destination, hout] using hw
      exact ⟨p, hroot, hparts, by rw [hpath]⟩
    · cases hw

/-- If neither the folder nor the destination is below the other, no source is written to. -/
theorem writes_apart {dest : Path} (folder base : List Text)
    (hnames : ∀ n ∈ t.nodes, "..".toList ∉ n.1) (hfolder : location home r.path = some folder)
    (hout : r.out = some dest) (hbase : location home dest = some base) (hin : ¬ folder <+: base)
    (hover : ¬ base <+: folder) : ∀ w ∈ r.writes s texts (sourcesIn home t r s),
      ∀ p ∈ sourcesIn home t r s, location home w.1 ≠ location home (r.path.append p) := by
  intro w hw p hp heq
  obtain ⟨q, hqroot, hqparts, hwq⟩ := destination_of_mem_writes hnames hout hw
  obtain ⟨hroot, -, hparts⟩ := sourcesIn_down hnames p hp
  rw [hwq, location_append home hqroot hqparts, location_append home hroot hparts, hbase, hfolder,
    Option.map_some, Option.map_some, Option.some.injEq] at heq
  rcases List.prefix_or_prefix_of_prefix (List.prefix_append base q.parts)
    (heq ▸ List.prefix_append folder p.parts) with h | h
  · exact hover h
  · exact hin h

/-- Without `check` and traces, a batch leaves the files that had been there and, in their places below the
destination, the sources whose run succeeds. -/
theorem Batch.files_iff {dest : Path} (h : Batch lib home t r s texts) (hout : r.out = some dest)
    (hcheck : r.check = false) (htrace : r.trace = none) (l : List Text) (content : Content) :
    (treeAfter home t r s texts).node? l = some (.file content) ↔
      (∃ p ∈ sourcesIn home t r s, (r.runOf s texts p).success = true ∧
        location home (dest.append p) = some l ∧
        content = .bytes (Text.Utf8.encode (r.runOf s texts p).code)) ∨
      (t.node? l = some (.file content) ∧ ∀ p ∈ sourcesIn home t r s,
        (r.runOf s texts p).success = true → location home (dest.append p) ≠ some l) := by
  have hmem := fun w : Path × Content => mem_writes_iff s texts (sourcesIn home t r s) hout hcheck
    htrace w
  rw [writeAll_files h.written' ?_ l content]
  · refine or_congr ?_ (and_congr_right fun _ => ?_)
    · constructor
      · rintro ⟨w, hw, hl, rfl⟩
        obtain ⟨p, hp, hs, rfl⟩ := (hmem w).mp hw
        exact ⟨p, hp, hs, hl, rfl⟩
      · rintro ⟨p, hp, hs, hl, rfl⟩
        exact ⟨_, (hmem _).mpr ⟨p, hp, hs, rfl⟩, hl, rfl⟩
    · constructor
      · exact fun hall p hp hs => hall _ ((hmem _).mpr ⟨p, hp, hs, rfl⟩)
      · intro hall w hw
        obtain ⟨p, hp, hs, rfl⟩ := (hmem w).mp hw
        exact hall p hp hs
  · -- two sources never share a place
    intro w hw w' hw' l hl hl'
    obtain ⟨p, hp, -, rfl⟩ := (hmem w).mp hw
    obtain ⟨q, hq, -, rfl⟩ := (hmem w').mp hw'
    obtain ⟨hproot, -, hpparts⟩ := sourcesIn_down h.names p hp
    obtain ⟨hqroot, -, hqparts⟩ := sourcesIn_down h.names q hq
    rw [location_append_inj hproot hpparts hqroot hqparts hl hl']

/-- The expansion of a folder. It ends with a code just if all can be told of it. The code is 1 just if
the run on a source fails or, when the sources are only checked, its code differs from the source as it is
read. Without `check` and traces, the files are those that had been there and, in their places below the
destination, the sources whose run succeeds, each with the code of its run. With `check`, no file holds
anything new but a trace. -/
theorem expand_folder (hc : lib.console.Lawful) (h : Batch lib home t r s texts) :
    (Told lib home t r s texts ↔
      ∃ n o t', (expand lib (asFiles home) r).finish.run t = ((.code n, o), t')) ∧
    ∀ n o t', (expand lib (asFiles home) r).finish.run t = ((.code n, o), t') → (n = 0 ∨ n = 1) ∧
    (n = 1 ↔ ∃ p ∈ sourcesIn home t r s, (r.runOf s texts p).success = false ∨ r.check = true ∧
      (r.runOf s texts p).success = true ∧ (r.runOf s texts p).code ≠ texts p) ∧
    (∀ dest, r.out = some dest → r.check = false → r.trace = none → ∀ l content,
      (t'.node? l = some (.file content) ↔
        (∃ p ∈ sourcesIn home t r s, (r.runOf s texts p).success = true ∧
          location home (dest.append p) = some l ∧
          content = .bytes (Text.Utf8.encode (r.runOf s texts p).code)) ∨
        (t.node? l = some (.file content) ∧ ∀ p ∈ sourcesIn home t r s,
          (r.runOf s texts p).success = true → location home (dest.append p) ≠ some l))) ∧
    (r.check = true → ∀ l content, t'.node? l = some (.file content) →
      t.node? l = some (.file content) ∨ ∃ events, content = .trace events) ∧
    (r.check = true → r.trace = none → t' = t) := by
  refine ⟨⟨fun htold => ?_, fun ⟨n, o, t', hrun⟩ => ((h.code_iff hc n t').mp ⟨o, hrun⟩).1⟩,
    fun n o t' hrun => ?_⟩
  · obtain ⟨o, ho⟩ := (h.code_iff hc _ _).mpr ⟨htold, rfl, rfl⟩
    exact ⟨_, o, _, ho⟩
  · obtain ⟨-, rfl, rfl⟩ := (h.code_iff hc n t').mp ⟨o, hrun⟩
    refine ⟨exitCode_le _, exitCode_eq_one_iff _,
      fun dest hout hcheck htrace => h.files_iff hout hcheck htrace, fun hcheck l content hl => ?_,
      fun hcheck htrace => ?_⟩
    · rcases writeAll_file h.written' hl with hl | ⟨w, hw, rfl⟩
      · exact .inl hl
      · exact .inr (trace_of_mem_writes hcheck hw).2
    · have hnil : r.writes s texts (sourcesIn home t r s) = [] := by
        refine List.eq_nil_iff_forall_not_mem.mpr fun w hw => ?_
        have := (trace_of_mem_writes hcheck hw).1
        simp [htrace] at this
      rw [treeAfter, hnil]
      rfl

/-- A folder with two sources, of which the second cannot be read as tokens. -/
def twoSources : FileTree :=
  ⟨[(["src".toList], .folder),
    (["src".toList, "a.swift".toList], .file (.bytes (Text.Utf8.encode "let a = 1\n".toList))),
    (["src".toList, "b.swift".toList], .file (.bytes (Text.Utf8.encode ['"'])))]⟩

/-- A request to expand the folder. -/
def twoRequest : ExpandRequest := { path := ⟨[], ["src".toList]⟩, out := some ⟨[], ["out".toList]⟩ }

/-- What its sources read as. -/
def twoTexts (p : Path) : Text :=
  if p.parts = ["a.swift".toList] then "let a = 1\n".toList else ['"']

/-- The first source is written and the second is not; the code tells that one failed. -/
theorem expand_folder_two : ∃ n o t',
    (expand Library.usual (asFiles ['/']) twoRequest).finish.run twoSources = ((.code n, o), t') ∧ n = 1 ∧
    t'.node? ["out".toList, "a.swift".toList] =
      some (.file (.bytes (Text.Utf8.encode "let a = 1\n".toList))) ∧
    ∀ content, t'.node? ["out".toList, "b.swift".toList] ≠ some (.file content) := by
  have hnames : ∀ n ∈ twoSources.nodes, "..".toList ∉ n.1 := by decide
  have hsources : sourcesIn ['/'] twoSources twoRequest {} =
      [⟨[], ["a.swift".toList]⟩, ⟨[], ["b.swift".toList]⟩] := by
    decide +kernel
  have hruns : (twoRequest.runOf {} twoTexts ⟨[], ["a.swift".toList]⟩).success = true ∧
      (twoRequest.runOf {} twoTexts ⟨[], ["a.swift".toList]⟩).code = "let a = 1\n".toList ∧
      (twoRequest.runOf {} twoTexts ⟨[], ["b.swift".toList]⟩).success = false := by
    decide +kernel
  have hbatch : Batch Library.usual ['/'] twoSources twoRequest {} twoTexts := {
    folder := by rfl
    names := hnames
    settings := by rfl
    out := .inl rfl
    reads := by
      rw [hsources]
      decide +kernel
    apart := writes_apart ["src".toList] ["out".toList] hnames rfl rfl rfl (by decide) (by decide)
    written := by
      rw [hsources]
      decide +kernel }
  have htold : Told Library.usual ['/'] twoSources twoRequest {} twoTexts := {
    warnings := fun w hw => by cases hw
    none := fun hnil => by rw [hsources] at hnil; cases hnil
    runs := by
      rw [hsources]
      have hnone : ∀ p ∈ ([⟨[], ["a.swift".toList]⟩, ⟨[], ["b.swift".toList]⟩] : List Path),
          (twoRequest.runOf {} twoTexts p).warnings = [] := by
        decide +kernel
      refine fun p hp => ⟨fun w hw => ?_, rfl⟩
      rw [hnone p hp] at hw
      cases hw }
  obtain ⟨hiff, hall⟩ := expand_folder Markup.console_lawful hbatch
  obtain ⟨n, o, t', hrun⟩ := hiff.mp htold
  obtain ⟨-, hcode, hfiles, -⟩ := hall n o t' hrun
  rw [hsources] at hcode hfiles
  have hfiles := hfiles ⟨[], ["out".toList]⟩ rfl rfl rfl
  refine ⟨n, o, t', hrun, hcode.mpr ⟨_, by simp, .inl hruns.2.2⟩, ?_, fun content hb => ?_⟩
  · refine (hfiles _ _).mpr (.inl ⟨⟨[], ["a.swift".toList]⟩, by simp, hruns.1, rfl, ?_⟩)
    rw [hruns.2.1]
  · rcases (hfiles _ _).mp hb with ⟨p, hp, hs, hl, -⟩ | ⟨hold, -⟩
    · simp only [List.mem_cons, List.not_mem_nil, or_false] at hp
      rcases hp with rfl | rfl
      · exact absurd hl (by decide)
      · rw [hruns.2.2] at hs
        cases hs
    · cases hold

/-- A folder whose first source warns of a name that closes a style. -/
def warningSources : FileTree :=
  ⟨[(["src".toList], .folder),
    (["src".toList, "a.swift".toList], .file (.bytes (Text.Utf8.encode
      "@fluentSetterMacro struct `[/x]` { var a = nil }\n".toList))),
    (["src".toList, "b.swift".toList], .file (.bytes (Text.Utf8.encode "let a = 1\r\n".toList)))]⟩

/-- The first source breaks the expansion off without a code, so that the second, of which the run would
succeed, is never written. On its own the second is written with a line end that its run does not have. -/
theorem expand_folder_broken :
    ((expand Library.usual (asFiles ['/']) twoRequest).finish.run warningSources).1.1 = .unhandled (.markup
      ("`[/x]`.a: cannot infer a type from a 'Nil' initializer; add a type annotation to get a " ++
        "setter").toList) ∧
    ((expand Library.usual (asFiles ['/']) twoRequest).finish.run warningSources).2.node?
      ["out".toList, "b.swift".toList] = none ∧
    ((expand Library.usual (asFiles ['/'])
        { path := ⟨[], ["src".toList, "b.swift".toList]⟩, out := some ⟨[], ["b.swift".toList]⟩ }).finish.run
      warningSources).2.node? ["b.swift".toList] =
        some (.file (.bytes (Text.Utf8.encode "let a = 1\n".toList))) ∧
    (Expansion.run {} (Registry.ofSettings {}) "let a = 1\r\n".toList).success = true ∧
    (Expansion.run {} (Registry.ofSettings {}) "let a = 1\r\n".toList).code = "let a = 1\r\n".toList := by
  refine ⟨?_, ?_, ?_, ?_, ?_⟩ <;> decide +kernel

end Requests

end SwiftMacros.Command
