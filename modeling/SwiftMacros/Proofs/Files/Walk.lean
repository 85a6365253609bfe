import Mathlib
import SwiftMacros.Files.Tree

/-! Walking a file tree. A path leads to one location whatever is there, by its components alone.
Making folders and writing files changes what is at the locations of their paths, and puts folders where
nothing was; so what has been read elsewhere can be read again. -/

namespace SwiftMacros.FileTree

/-- The location one component further, none above the root. -/
def enter (location : Option (List Text)) (part : Text) : Option (List Text) :=
  location.bind fun l =>
    if part = "..".toList then (if l = [] then none else some l.dropLast) else some (l ++ [part])

/-- The location that a path leads to, if it stays in a tree with the root `home`. -/
def location (home : Text) (p : Path) : Option (List Text) :=
  p.parts.foldl enter (if p.root = [] ∨ p.root = home then some [] else none)

section Nodes

variable {t : FileTree} {l l' : List Text} {n : Node}

theorem node?_nil : t.node? [] = some .folder := if_pos rfl

theorem node?_of_ne (h : l ≠ []) : t.node? l = (t.nodes.find? fun n => n.1 == l).map Prod.snd :=
  if_neg h

theorem node?_put_self (h : l ≠ []) : (t.put l n).node? l = some n := by
  rw [node?_of_ne h, put, node?_of_ne h, Option.isSome_map]
  generalize t.nodes = xs
  split
  · rename_i hsome
    induction xs with
    | nil => cases hsome
    | cons x xs ih =>
      by_cases hx : x.1 = l
      · simp [hx]
      · simpa [hx] using ih (by simpa [hx] using hsome)
  · rename_i hnone
    rw [Bool.not_eq_true, Option.isSome_eq_false_iff, Option.isNone_iff_eq_none] at hnone
    simp [List.find?_append, hnone]

theorem node?_put_of_ne (h : l' ≠ l) : (t.put l n).node? l' = t.node? l' := by
  by_cases hnil : l' = []
  · rw [hnil, node?_nil, node?_nil]
  rw [node?_of_ne hnil, node?_of_ne hnil, put]
  split
  · congr 1
    induction t.nodes with
    | nil => rfl
    | cons x xs ih =>
      by_cases hx : x.1 = l
      · simp [hx, h.symm, ih]
      · simp only [List.map_cons, hx, if_false, List.find?_cons, ih]
  · simp [List.find?_append, h.symm]

end Nodes

section Walking

variable {home : Text} {t t' : FileTree} {p : Path} {l : List Text} {n : Node}

/-- What is found fits the location: it is what the tree has there. -/
def Place.Fits (t : FileTree) : Place → Option (List Text) → Prop
  | .found l n, location => location = some l ∧ t.node? l = some n
  | .vacant l, location => location = some l ∧ t.node? l = none
  | .above, location => location = none
  | .outside, location => location = none
  | .noFolder, _ => True
  | .behindFile, _ => True

theorem Place.Fits.step {x : Place} {location : Option (List Text)} (h : x.Fits t location)
    (part : Text) : (t.step x part).Fits t (enter location part) := by
  cases x with
  | found l n =>
    obtain ⟨rfl, hn⟩ := h
    cases n with
    | file content => exact trivial
    | folder =>
      simp only [FileTree.step, enter, Option.bind_some]
      by_cases hup : part = "..".toList
      · by_cases hl : l = []
        · simp [hup, hl, Place.Fits]
        · simp only [hup, hl, and_false, if_false, if_true]
          cases hnode : t.node? l.dropLast <;> exact ⟨rfl, hnode⟩
      · simp only [hup, false_and, if_false]
        cases hnode : t.node? (l ++ [part]) <;> exact ⟨rfl, hnode⟩
  | vacant l => exact trivial
  | noFolder => exact trivial
  | behindFile => exact trivial
  | above =>
    obtain rfl : location = none := h
    simp only [FileTree.step]
    split <;> rfl
  | outside =>
    obtain rfl : location = none := h
    rfl

theorem walk_fits (home : Text) (t : FileTree) (p : Path) :
    (t.walk home p).Fits t (location home p) := by
  unfold walk location
  have hstart : (if p.root = [] ∨ p.root = home then Place.found [] .folder else .above).Fits t
      (if p.root = [] ∨ p.root = home then some [] else none) := by
    split
    · exact ⟨rfl, node?_nil⟩
    · rfl
  revert hstart
  generalize (if p.root = [] ∨ p.root = home then Place.found [] .folder else .above) = x
  generalize (if p.root = [] ∨ p.root = home then some [] else none) = location
  intro h
  induction p.parts generalizing x location with
  | nil => exact h
  | cons part parts ih => exact ih _ _ (h.step part)

/-- A tree with more folders leads to what it has at a location wherever the old one led to something. -/
theorem walk_found (h : t.walk home p = .found l n)
    (hfolders : ∀ l, t.node? l = some .folder → t'.node? l = some .folder) {n' : Node}
    (hn : t'.node? l = some n') : t'.walk home p = .found l n' := by
  obtain ⟨root, parts⟩ := p
  induction parts using List.reverseRecOn generalizing l n n' with
  | nil =>
    simp only [walk, List.foldl_nil] at h ⊢
    split
    · rename_i hroot
      rw [if_pos hroot] at h
      cases h
      rw [node?_nil] at hn
      cases hn
      rfl
    · rename_i hroot
      rw [if_neg hroot] at h
      cases h
  | append_singleton parts part ih =>
    have hsplit : ∀ u : FileTree, u.walk home ⟨root, parts ++ [part]⟩ =
        u.step (u.walk home ⟨root, parts⟩) part := fun u => by
      simp only [walk, List.foldl_append, List.foldl_cons, List.foldl_nil]
    rw [hsplit] at h ⊢
    have hfits := walk_fits home t ⟨root, parts⟩
    cases hw : t.walk home ⟨root, parts⟩ with
    | found l₀ n₀ =>
      rw [hw] at h hfits
      cases n₀ with
      | file content => cases h
      | folder =>
        rw [ih (hfolders l₀ hfits.2) hw]
        simp only [step] at h ⊢
        split at h
        · cases h
        · rename_i hup
          rw [if_neg hup]
          split at h
          · cases h
            rw [hn]
          · cases h
    | above =>
      rw [hw] at h
      simp only [step] at h
      split at h <;> cases h
    | vacant l₀ => rw [hw] at h; cases h
    | noFolder => rw [hw] at h; cases h
    | behindFile => rw [hw] at h; cases h
    | outside => rw [hw] at h; cases h

theorem read_cases {bs : List UInt8} (h : t.read home p = .ok bs) :
    ∃ l content, t.walk home p = .found l (.file content) ∧ location home p = some l ∧
      t.node? l = some (.file content) ∧ bs = content.toBytes := by
  have hfits := walk_fits home t p
  unfold read at h
  split at h
  · rename_i l content hwalk
    cases h
    rw [hwalk] at hfits
    exact ⟨l, content, hwalk, hfits.1, hfits.2, rfl⟩
  all_goals cases h

end Walking

section Writing

variable {home : Text} {t t' t'' : FileTree} {p : Path} {content : Content}

/-- Folders have been put where nothing was, and nothing else has changed. -/
structure Grown (t t' : FileTree) : Prop where
  kept : ∀ l n, t.node? l = some n → t'.node? l = some n
  files : ∀ l content, t'.node? l = some (.file content) → t.node? l = some (.file content)

theorem Grown.refl (t : FileTree) : Grown t t := ⟨fun _ _ h => h, fun _ _ h => h⟩

theorem Grown.trans (h : Grown t t') (h' : Grown t' t'') : Grown t t'' :=
  ⟨fun l n hn => h'.kept l n (h.kept l n hn), fun l c hc => h.files l c (h'.files l c hc)⟩

/-- A file has been put where the path leads to, and folders where nothing was. -/
structure Written (home : Text) (p : Path) (content : Content) (t t' : FileTree) : Prop where
  folders : ∀ l, t.node? l = some .folder → t'.node? l = some .folder
  there : ∀ l, location home p = some l → t'.node? l = some (.file content)
  elsewhere : ∀ l, location home p ≠ some l →
    ∀ c, t'.node? l = some (.file c) ↔ t.node? l = some (.file c)

theorem Grown.written (h : Grown t t') (h' : Written home p content t' t'') :
    Written home p content t t'' :=
  ⟨fun l hl => h'.folders l (h.kept l _ hl), h'.there, fun l hl c =>
    (h'.elsewhere l hl c).trans ⟨h.files l c, h.kept l _⟩⟩

theorem put_grown {l : List Text} (h : t.node? l = none) : Grown t (t.put l .folder) := by
  have hl : l ≠ [] := by
    rintro rfl
    rw [node?_nil] at h
    cases h
  refine ⟨fun l' n hn => ?_, fun l' c hc => ?_⟩
  · rwa [node?_put_of_ne]
    rintro rfl
    rw [h] at hn
    cases hn
  · by_cases heq : l' = l
    · rw [heq, node?_put_self hl] at hc
      cases hc
    · rwa [node?_put_of_ne heq] at hc

theorem ensureFolder_run (home : Text) (t : FileTree) (p : Path) :
    ((asFiles home).ensureFolder p).run t = match (t.walk home p).status with
      | .folder => (.ok (), t)
      | .file => (.error ⟨.exists, p⟩, t)
      | .vacant => t.place home p .folder
      | .noFolder => (.error ⟨.notFound, p⟩, t)
      | .behindFile => (.error ⟨.notFolder, p⟩, t) := by
  unfold Files.ensureFolder
  rw [StateT.run_bind]
  change (match (t.walk home p).status with
    | .folder => _ | .file => _ | .vacant => _ | .noFolder => _ | .behindFile => _ : StateM _ _).run t = _
  cases (t.walk home p).status <;> rfl

theorem ensureFolder_grown (home : Text) (t : FileTree) (p : Path) :
    Grown t (((asFiles home).ensureFolder p).run t).2 := by
  rw [ensureFolder_run]
  have hfits := walk_fits home t p
  cases hw : t.walk home p with
  | found l n => cases n <;> exact .refl t
  | vacant l =>
    rw [hw] at hfits
    simp only [Place.status, place, hw]
    exact put_grown hfits.2
  | outside =>
    simp only [Place.status, place, hw]
    exact .refl t
  | above => exact .refl t
  | noFolder => exact .refl t
  | behindFile => exact .refl t

theorem ensureFolders_grown (home : Text) (n : Nat) (t : FileTree) (p : Path) :
    Grown t (((asFiles home).ensureFolders n p).run t).2 := by
  induction n generalizing p t with
  | zero => exact ensureFolder_grown home t p
  | succ n ih =>
    change Grown t ((if (t.walk home p).status = .noFolder then _ else _ : StateM _ _).run t).2
    split
    · have hparent := ih t p.parent
      rw [StateT.run_bind]
      generalize ((asFiles home).ensureFolders n p.parent).run t = made at hparent
      obtain ⟨made, t₁⟩ := made
      cases made with
      | ok u => exact hparent.trans (ensureFolder_grown home _ p)
      | error e => exact hparent
    · exact ensureFolder_grown home t p

theorem put_written {l : List Text} (hl : location home p = some l)
    (h : t.node? l ≠ some .folder) : Written home p content t (t.put l (.file content)) := by
  have hnil : l ≠ [] := by
    rintro rfl
    exact h node?_nil
  refine ⟨fun l' hl' => ?_, fun l' hl' => ?_, fun l' hl' c => ?_⟩
  · rwa [node?_put_of_ne]
    rintro rfl
    exact h hl'
  · cases hl.symm.trans hl'
    exact node?_put_self hnil
  · rw [node?_put_of_ne]
    rintro rfl
    exact hl' hl

theorem place_written (content : Content) (h : (t.walk home p).status = .file ∨ (t.walk home p).status = .vacant) :
    Written home p content t (t.place home p (.file content)).2 := by
  have hfits := walk_fits home t p
  cases hw : t.walk home p with
  | found l n =>
    rw [hw] at h hfits
    cases n with
    | folder => simp [Place.status] at h
    | file c =>
      simp only [place, hw]
      exact put_written hfits.1 (by simp [hfits.2])
  | vacant l =>
    rw [hw] at hfits
    simp only [place, hw]
    exact put_written hfits.1 (by simp [hfits.2])
  | outside =>
    rw [hw] at hfits
    simp only [place, hw]
    have hnone : location home p = none := hfits
    exact ⟨fun l hl => hl, fun l hl => by simp [hnone] at hl, fun l _ c => Iff.rfl⟩
  | _ => simp [hw, Place.status] at h

/-- What is written is where its path leads to, and no other file has changed. -/
theorem write_written {x : Unit} (h : ((asFiles home).write p content).run t = (.ok x, t')) :
    Written home p content t t' := by
  have hgrown := ensureFolders_grown home p.parts.length t p.parent
  unfold Files.write at h
  rw [StateT.run_bind] at h
  generalize ((asFiles home).ensureFolders p.parts.length p.parent).run t = made at h hgrown
  obtain ⟨made, t₁⟩ := made
  cases made with
  | error e => cases h
  | ok u =>
    have hlook : ((asFiles home).look p).run t₁ = ((t₁.walk home p).status, t₁) := rfl
    change ((asFiles home).look p >>= _).run t₁ = _ at h
    rw [StateT.run_bind, hlook] at h
    have hput : ((asFiles home).put p content).run t₁ = (.ok x, t') →
        (t₁.walk home p).status = .file ∨ (t₁.walk home p).status = .vacant →
        Written home p content t t' := fun hp hstatus => by
      have := hgrown.written (place_written content hstatus)
      rwa [show t₁.place home p (.file content) = _ from hp] at this
    cases hstatus : (t₁.walk home p).status <;> rw [hstatus] at h
    case file => exact hput h (.inl hstatus)
    case vacant => exact hput h (.inr hstatus)
    all_goals cases h

/-- A file can still be read when another has been written. -/
theorem Written.read (h : Written home p content t t') {q : Path} {bs : List UInt8}
    (hne : location home p ≠ location home q) (hq : t.read home q = .ok bs) :
    t'.read home q = .ok bs := by
  obtain ⟨l, c, hwalk, hl, hnode, rfl⟩ := read_cases hq
  have hnode' := (h.elsewhere l (fun heq => hne (heq.trans hl.symm)) c).mpr hnode
  rw [FileTree.read, walk_found hwalk h.folders hnode']

end Writing

end SwiftMacros.FileTree
