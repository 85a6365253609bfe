import Mathlib
import SwiftMacros.Command.Expand
import SwiftMacros.Proofs.Console
import SwiftMacros.Proofs.Files.Walk

/-! What a command does to a file tree, apart from what it shows. A session ends with an answer and a
tree, or is broken off, whatever has been shown before; so sessions that follow one another can be told
one by one. -/

namespace SwiftMacros.Command

section Sessions

variable {σ α β : Type}

/-- Sessions follow one another as long as none is broken off. -/
theorem run_bind (a : Session (StateM σ) α) (f : α → Session (StateM σ) β) (o : Output) (st : σ) :
    ((a >>= f).run.run o).run st = match (a.run.run o).run st with
      | ((.ok x, o'), st') => ((f x).run.run o').run st'
      | ((.error e, o'), st') => ((.error e, o'), st') := by
  rw [ExceptT.run_bind, StateT.run_bind, StateT.run_bind]
  change StateT.run (StateT.run _ ((a.run.run o).run st).1.2) ((a.run.run o).run st).2 = _
  generalize (a.run.run o).run st = made
  obtain ⟨⟨answer, o'⟩, st'⟩ := made
  cases answer <;> rfl

theorem run_lift (a : StateM σ α) (o : Output) (st : σ) :
    ((liftM a : Session (StateM σ) α).run.run o).run st = ((.ok (a.run st).1, o), (a.run st).2) := rfl

/-- The sign of a message is plain. -/
theorem Level.plain (level : Level) : Text.Plain level.sign.toList := by cases level <;> decide

end Sessions

open FileTree

variable {α β : Type} {home : Text} {t t' t'' : FileTree}

/-- On the tree `t`, the session answers with `x` and leaves the tree `t'`. -/
def Ends (t : FileTree) (a : Session (StateM FileTree) α) (x : α) (t' : FileTree) : Prop :=
  ∀ o, ∃ o', (a.run.run o).run t = ((.ok x, o'), t')

/-- On the tree `t`, the session is broken off. -/
def Breaks (t : FileTree) (a : Session (StateM FileTree) α) : Prop :=
  ∀ o, ∃ e o' t', (a.run.run o).run t = ((.error e, o'), t')

namespace Ends

variable {a : Session (StateM FileTree) α} {f : α → Session (StateM FileTree) β} {x : α} {y : β}
  {c : Console}

theorem pure (x : α) : Ends t (Pure.pure x) x t := fun o => ⟨o, rfl⟩

theorem bind (h : Ends t a x t') (h' : Ends t' (f x) y t'') : Ends t (a >>= f) y t'' := by
  intro o
  obtain ⟨o', ho⟩ := h o
  obtain ⟨o'', ho'⟩ := h' o'
  exact ⟨o'', by rw [run_bind, ho]; exact ho'⟩

theorem lift {a : StateM FileTree α} (h : a.run t = (x, t')) :
    Ends t (liftM a : Session (StateM FileTree) α) x t' := fun o => ⟨o, by rw [run_lift, h]⟩

theorem emit (s : Shown) : Ends t (emit s) () t := fun _ => ⟨_, rfl⟩

theorem rendered {markup : Text} {shown : Option Text} {text : Text} (h : shown = some text) :
    Ends t (rendered markup shown) text t := by
  subst h
  exact pure text

theorem note {text : Text} (h : (c.notice text).isSome = true) : Ends t (note c text) () t := by
  obtain ⟨shown, hshown⟩ := Option.isSome_iff_exists.mp h
  exact bind (rendered hshown) (emit _)

theorem log (hc : c.Lawful) {level : Level} {parts : List Console.Part} (h : Console.Fit parts) :
    Ends t (log c level parts) () t := by
  obtain ⟨shown, hshown⟩ := Option.isSome_iff_exists.mp (hc.shows (.words _ :: parts) ⟨level.plain, h⟩)
  exact bind (rendered hshown) (emit _)

theorem mapM {γ : Type} {f : γ → Session (StateM FileTree) β} {g : γ → β} {cs : List γ}
    (h : ∀ c ∈ cs, Ends t (f c) (g c) t) : Ends t (cs.mapM f) (cs.map g) t := by
  induction cs with
  | nil => exact pure []
  | cons c cs ih =>
    rw [List.mapM_cons]
    exact bind (h c List.mem_cons_self) (bind (ih fun d hd => h d (List.mem_cons_of_mem c hd)) (pure _))

theorem tabulate (hc : c.Lawful) (title : Text) (columns : List Text) (rows : List (List Text)) :
    Ends t (tabulate c title columns rows) () t := by
  have hcell : ∀ cell, ∃ shown, c.render (c.message [.shown cell]) = some shown := fun cell =>
    Option.isSome_iff_exists.mp (hc.shows [.shown cell] ⟨trivial, trivial⟩)
  choose shown hshown using hcell
  exact bind (mapM fun row _ => mapM fun cell _ => rendered (hshown cell)) (emit _)

theorem forM {γ : Type} {f : γ → Session (StateM FileTree) Unit} {cs : List γ}
    (h : ∀ c ∈ cs, Ends t (f c) () t) : Ends t (cs.forM f) () t := by
  induction cs with
  | nil => exact pure ()
  | cons c cs ih => exact bind (h c List.mem_cons_self) (ih fun d hd => h d (List.mem_cons_of_mem c hd))

end Ends

theorem Ends.finish {a : Session (StateM FileTree) Nat} {n : Nat} (h : Ends t a n t') :
    ∃ o, a.finish.run t = ((.code n, o), t') := by
  obtain ⟨o, ho⟩ := h {}
  refine ⟨o, ?_⟩
  rw [Session.finish, StateT.run_bind, ho]
  rfl

theorem Breaks.finish {a : Session (StateM FileTree) Nat} (h : Breaks t a) :
    ∃ e o t', a.finish.run t = ((.unhandled e, o), t') := by
  obtain ⟨e, o, t', ho⟩ := h {}
  refine ⟨e, o, t', ?_⟩
  rw [Session.finish, StateT.run_bind, ho]
  rfl

namespace Breaks

variable {a : Session (StateM FileTree) α} {f : α → Session (StateM FileTree) β} {x : α} {c : Console}

theorem first (h : Breaks t a) : Breaks t (a >>= f) := by
  intro o
  obtain ⟨e, o', t', ho⟩ := h o
  exact ⟨e, o', t', by rw [run_bind, ho]⟩

theorem next (h : Ends t a x t') (h' : Breaks t' (f x)) : Breaks t (a >>= f) := by
  intro o
  obtain ⟨o', ho⟩ := h o
  obtain ⟨e, o'', t'', ho'⟩ := h' o'
  exact ⟨e, o'', t'', by rw [run_bind, ho]; exact ho'⟩

theorem throw (e : Unhandled) : Breaks t (throw e : Session (StateM FileTree) α) := fun o => ⟨e, o, t, rfl⟩

theorem rendered {markup : Text} {shown : Option Text} (h : shown = none) :
    Breaks t (rendered markup shown) := by
  subst h
  exact throw _

theorem note {text : Text} (h : c.notice text = none) : Breaks t (note c text) := first (rendered h)

/-- Notices are given one by one, up to the first that cannot be shown. -/
theorem notes {ws : List Text} (h : ∃ w ∈ ws, c.notice w = none) : Breaks t (ws.forM (Command.note c)) := by
  induction ws with
  | nil => simp at h
  | cons w ws ih =>
    cases hw : c.notice w with
    | none => exact first (note hw)
    | some shown =>
      refine next (.note (by rw [hw]; rfl)) (ih ?_)
      obtain ⟨v, hv, hnone⟩ := h
      rcases List.mem_cons.mp hv with rfl | hv
      · rw [hw] at hnone
        cases hnone
      · exact ⟨v, hv, hnone⟩

end Breaks

section Sources

variable {source p : Path} {text : Text} {content : Content}

/-- The text that a source is read as, or why it cannot be read. -/
def textOf (home : Text) (t : FileTree) (source : Path) : Except Text Text :=
  match t.read home source with
  | .error e => .error e.message
  | .ok bs =>
    match Text.Utf8.decode bs with
    | .ok t => .ok (Text.universalLineEnds t)
    | .error e => .error e.message

theorem readSource_run (home : Text) (t : FileTree) (source : Path) :
    (readSource (asFiles home) source).run t = (textOf home t source, t) := by
  unfold readSource textOf
  rw [StateT.run_bind]
  change (match t.read home source with
    | .error e => _ | .ok bs => _ : StateM FileTree (Except Text Text)).run t = _
  cases t.read home source with
  | error e => rfl
  | ok bs =>
    dsimp only
    cases Text.Utf8.decode bs <;> rfl

/-- A source is read as before when something else has been written. -/
theorem textOf_written (h : Written home p content t t')
    (hne : location home p ≠ location home source) (htext : textOf home t source = .ok text) :
    textOf home t' source = .ok text := by
  unfold textOf at htext ⊢
  cases hread : t.read home source with
  | error e =>
    rw [hread] at htext
    cases htext
  | ok bs =>
    rw [hread] at htext
    rwa [h.read hne hread]

end Sources

section Writes

variable {ws : List (Path × Content)}

/-- Writes one file after the other, up to the first that cannot be written. -/
def writeAll {m : Type → Type} [Monad m] (fs : Files m) :
    List (Path × Content) → m (Except FileError Unit)
  | [] => return .ok ()
  | (p, content) :: ws => do
    match ← fs.write p content with
    | .ok () => writeAll fs ws
    | .error e => return .error e

theorem writeAll_cons {p : Path} {content : Content}
    (h : (writeAll (asFiles home) ((p, content) :: ws)).run t = (.ok (), t')) :
    ∃ t₁, ((asFiles home).write p content).run t = (.ok (), t₁) ∧
      (writeAll (asFiles home) ws).run t₁ = (.ok (), t') := by
  rw [writeAll, StateT.run_bind] at h
  generalize ((asFiles home).write p content).run t = made at h
  obtain ⟨made, t₁⟩ := made
  cases made with
  | error e => cases h
  | ok u => exact ⟨t₁, rfl, h⟩

theorem writeAll_append {vs : List (Path × Content)}
    (h : (writeAll (asFiles home) (vs ++ ws)).run t = (.ok (), t')) :
    ∃ t₁, (writeAll (asFiles home) vs).run t = (.ok (), t₁) ∧
      (writeAll (asFiles home) ws).run t₁ = (.ok (), t') := by
  induction vs generalizing t with
  | nil => exact ⟨t, rfl, h⟩
  | cons v vs ih =>
    obtain ⟨t₁, hv, hrest⟩ := writeAll_cons h
    obtain ⟨t₂, hvs, hws⟩ := ih hrest
    refine ⟨t₂, ?_, hws⟩
    rw [writeAll, StateT.run_bind, hv]
    exact hvs

/-- A source is read as before when other files have been written. -/
theorem textOf_writeAll {source : Path} {text : Text}
    (h : (writeAll (asFiles home) ws).run t = (.ok (), t'))
    (hne : ∀ w ∈ ws, location home w.1 ≠ location home source)
    (htext : textOf home t source = .ok text) : textOf home t' source = .ok text := by
  induction ws generalizing t with
  | nil =>
    cases h
    exact htext
  | cons w ws ih =>
    obtain ⟨t₁, hw, hrest⟩ := writeAll_cons h
    exact ih hrest (fun w hw => hne w (by simp [hw]))
      (textOf_written (write_written hw) (hne w (by simp)) htext)

end Writes

section Runs

variable {lib : Library} {s : Settings} {check : Bool} {source : Path} {out trace : Option Path} {text : Text}

/-- What is written for a source: the trace of its run if there is a place for it, and the code if the
run succeeds and the source is not only checked. -/
def writesFor (check : Bool) (out trace : Option Path) (r : Expansion.Result) :
    List (Path × Content) :=
  (trace.map fun p => (p, .trace r.events)).toList ++
    if r.success && !check then (out.map fun p => (p, .bytes (Text.Utf8.encode r.code))).toList else []

theorem writeTrace_ends (hc : lib.console.Lawful) {p : Path} {r : Expansion.Result}
    {x : Except FileError Unit} (h : ((asFiles home).write p (.trace r.events)).run t = (x, t')) :
    Ends t (writeTrace lib (asFiles home) p r) () t' := by
  refine .bind (.lift h) ?_
  cases x with
  | ok u => exact .log hc ⟨by decide, trivial⟩
  | error e => exact .log hc ⟨by decide, trivial, trivial⟩

theorem deliver_ends (hc : lib.console.Lawful) {r : Expansion.Result}
    (h : (writeAll (asFiles home) (out.map fun p => (p, .bytes (Text.Utf8.encode r.code))).toList).run t
      = (.ok (), t')) : Ends t (deliver lib (asFiles home) source out r) r t' := by
  cases out with
  | none =>
    cases h
    exact .bind (fun _ => ⟨_, rfl⟩) (.pure r)
  | some p =>
    obtain ⟨t₁, hw, hrest⟩ := writeAll_cons h
    cases hrest
    exact .bind (.lift hw) (.bind (.log hc ⟨by decide, by decide, trivial⟩) (.pure r))

/-- What can be told of a run: all its warnings can be shown, and its layout is not too wide. -/
structure Tells (lib : Library) (s : Settings) (text : Text) (r : Expansion.Result) : Prop where
  warnings : ∀ w ∈ r.warnings, (lib.console.notice w).isSome = true
  width : Expansion.overflows s (Registry.ofSettings s) text = false

/-- A source that can be read, and for which all can be written, ends with the result of its run if all
can be told of it. -/
theorem expandSource_ends (hc : lib.console.Lawful) {r : Expansion.Result}
    (htext : textOf home t source = .ok text)
    (hr : r = Expansion.run s (Registry.ofSettings s) text (some source.toText)) (htells : Tells lib s text r)
    (hw : (writeAll (asFiles home) (writesFor check out trace r)).run t = (.ok (), t')) :
    Ends t (expandSource lib (asFiles home) s check source out trace) r t' := by
  obtain ⟨t₁, htrace, hcode⟩ := writeAll_append hw
  unfold expandSource
  refine .bind (.lift (readSource_run home t source)) ?_
  rw [htext]
  dsimp only
  rw [← hr, htells.width, if_neg Bool.false_ne_true]
  have hrest : Ends t₁ (finishRun lib (asFiles home) check source out r) r t' := by
    unfold finishRun
    cases hs : r.success with
    | false =>
      rw [hs] at hcode
      cases hcode
      exact .bind (.forM fun _ _ => .log hc ⟨trivial, trivial⟩) (.pure r)
    | true =>
      cases hc' : check with
      | true =>
        rw [hs, hc'] at hcode
        cases hcode
        exact .pure r
      | false =>
        rw [hs, hc'] at hcode
        exact deliver_ends hc hcode
  refine .bind (.forM fun w hw => .note (htells.warnings w hw)) ?_
  cases trace with
  | none =>
    cases htrace
    exact hrest
  | some p =>
    obtain ⟨t₂, hp, hnil⟩ := writeAll_cons htrace
    cases hnil
    exact .bind (writeTrace_ends hc hp) hrest

/-- A source that can be read is not done if something about its run cannot be told. -/
theorem expandSource_breaks (htext : textOf home t source = .ok text)
    (htells : ¬ Tells lib s text (Expansion.run s (Registry.ofSettings s) text (some source.toText))) :
    Breaks t (expandSource lib (asFiles home) s check source out trace) := by
  unfold expandSource
  refine .next (.lift (readSource_run home t source)) ?_
  rw [htext]
  dsimp only
  split
  next => exact .throw _
  next hwidth =>
    refine .first (.notes ?_)
    by_contra hall
    refine htells ⟨fun w hw => Option.isSome_iff_ne_none.mpr fun hnone => hall ⟨w, hw, hnone⟩, ?_⟩
    simpa using hwidth

/-- What is told of a source that can be read before and behind its run. -/
theorem expandNamed_ends (hc : lib.console.Lawful) {name : Text} {r : Expansion.Result}
    (htext : textOf home t source = .ok text)
    (hr : r = Expansion.run s (Registry.ofSettings s) text (some source.toText)) (htells : Tells lib s text r)
    (hw : (writeAll (asFiles home) (writesFor check out trace r)).run t = (.ok (), t'))
    (htext' : textOf home t' source = .ok text) :
    Ends t (expandNamed lib (asFiles home) s check name source out trace)
      ⟨name, r, check && r.success && (text != r.code)⟩ t' := by
  refine .bind (expandSource_ends hc htext hr htells hw) (.bind (x := check && r.success && (text != r.code))
    ?_ (.pure _))
  unfold wouldChange
  cases check && r.success with
  | false => exact .pure _
  | true =>
    refine .bind (.lift (readSource_run home t' source)) ?_
    rw [htext']
    exact .pure _

end Runs

end SwiftMacros.Command
