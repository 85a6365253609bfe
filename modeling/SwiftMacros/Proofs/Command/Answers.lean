import Mathlib
import SwiftMacros.Command.Run
import SwiftMacros.Proofs.Command.Check
import SwiftMacros.Proofs.Command.Messages
import SwiftMacros.Proofs.Expansion.Siteless
import SwiftMacros.Proofs.Settings.Names

/-! How the commands answer to bad input, whatever the files are. What a session does depends on the
files alone, and what it shows is added to what has been shown. So a source that cannot be read or
tokenized in its turn is told of in the end, both by a message and by the code. Only what the commands
do not answer to breaks them off. -/

namespace SwiftMacros.Command

variable {σ α β : Type}

def Shown.isError : Shown → Bool
  | .message .error _ => true
  | _ => false

namespace Output

def append (a b : Output) : Output := ⟨a.stdout ++ b.stdout, a.shown ++ b.shown⟩

instance : Append Output := ⟨append⟩

theorem append_assoc (a b c : Output) : a ++ b ++ c = a ++ (b ++ c) :=
  congrArg₂ Output.mk (List.append_assoc _ _ _) (List.append_assoc _ _ _)

theorem append_empty (a : Output) : a ++ ({} : Output) = a :=
  congrArg₂ Output.mk (List.append_nil _) (List.append_nil _)

/-- Whether a message of an error is among what is shown. -/
def hasError (o : Output) : Bool := o.shown.any Shown.isError

theorem hasError_append (a b : Output) : (a ++ b).hasError = (a.hasError || b.hasError) :=
  List.any_append

end Output

section Sessions

/-- What a session that starts with nothing shown comes to and shows, and the files it leaves. -/
def ran (a : Session (StateM σ) α) (st : σ) : (Except Unhandled α × Output) × σ := (a.run.run {}).run st

/-- The session does the same whatever has been shown, and adds to it what it shows itself. -/
def Adds (a : Session (StateM σ) α) : Prop :=
  ∀ o st, (a.run.run o).run st = (((ran a st).1.1, o ++ (ran a st).1.2), (ran a st).2)

variable {a : Session (StateM σ) α} {f : α → Session (StateM σ) β} {st : σ} {c : Console}

/-- Sessions that follow one another show the output of the first before that of the second. -/
theorem ran_bind (hf : ∀ x, Adds (f x)) : ran (a >>= f) st = match ran a st with
    | ((.ok x, o), st') => (((ran (f x) st').1.1, o ++ (ran (f x) st').1.2), (ran (f x) st').2)
    | ((.error e, o), st') => ((.error e, o), st') := by
  rw [ran, run_bind, ← ran]
  generalize ran a st = made
  obtain ⟨⟨answer, o⟩, st'⟩ := made
  cases answer with
  | error e => rfl
  | ok x => exact hf x o st'

theorem answer_bind (a : StateM σ α) (f : α → StateM σ β) (st : σ) :
    ((a >>= f).run st).1 = ((f (a.run st).1).run (a.run st).2).1 := rfl

/-- Asking the files shows nothing. -/
theorem run_lift_bind (a : StateM σ α) (f : α → Session (StateM σ) β) (o : Output) (st : σ) :
    ((liftM a >>= f).run.run o).run st = ((f (a.run st).1).run.run o).run (a.run st).2 := by
  rw [run_bind, run_lift]

namespace Adds

theorem pure (x : α) : Adds (Pure.pure x : Session (StateM σ) α) := fun o st => by
  change ((Except.ok x, o), st) = ((Except.ok x, o ++ {}), st)
  rw [Output.append_empty]

theorem throw (e : Unhandled) : Adds (throw e : Session (StateM σ) α) := fun o st => by
  change ((Except.error e, o), st) = ((Except.error e, o ++ {}), st)
  rw [Output.append_empty]

theorem bind (ha : Adds a) (hf : ∀ x, Adds (f x)) : Adds (a >>= f) := by
  intro o st
  rw [run_bind, ha, ran_bind hf]
  generalize ran a st = made
  obtain ⟨⟨answer, o'⟩, st'⟩ := made
  cases answer with
  | error e => rfl
  | ok x =>
    dsimp only
    rw [hf, Output.append_assoc]

theorem lift (a : StateM σ α) : Adds (liftM a : Session (StateM σ) α) := fun o st => by
  rw [run_lift, ran, run_lift, Output.append_empty]

theorem emit (s : Shown) : Adds (emit s : Session (StateM σ) Unit) := fun o st => by
  change ((Except.ok (), { o with shown := o.shown ++ [s] }), st) = ((Except.ok (), o ++ ⟨[], [s]⟩), st)
  rw [show o ++ ⟨[], [s]⟩ = ⟨o.stdout ++ [], o.shown ++ [s]⟩ from rfl, List.append_nil]

theorem write (text : Text) : Adds (write text : Session (StateM σ) Unit) := fun o st => by
  change ((Except.ok (), { o with stdout := o.stdout ++ text }), st) = ((Except.ok (), o ++ ⟨text, []⟩), st)
  rw [show o ++ ⟨text, []⟩ = ⟨o.stdout ++ text, o.shown ++ []⟩ from rfl, List.append_nil]

end Adds

/-- The session comes to an answer, an output and files of which `P` holds, or breaks off as `esc`
allows. -/
def Comes (esc : Unhandled → Prop) (P : α → Output → σ → Prop) (a : Session (StateM σ) α) (st : σ) :
    Prop :=
  match ran a st with
  | ((.ok x, o), st') => P x o st'
  | ((.error e, _), _) => esc e

/-- The session adds to what has been shown, and is broken off by nothing else than `esc` allows. -/
structure Orderly (esc : Unhandled → Prop) (a : Session (StateM σ) α) : Prop where
  adds : Adds a
  safe : ∀ st, Comes esc (fun _ _ _ => True) a st

namespace Comes

variable {esc esc' : Unhandled → Prop} {P P' : α → Output → σ → Prop} {Q : β → Output → σ → Prop}

theorem mono (h : Comes esc P a st) (hesc : ∀ e, esc e → esc' e) (hP : ∀ x o st', P x o st' → P' x o st') :
    Comes esc' P' a st := by
  unfold Comes at h ⊢
  split at h <;> simp_all

theorem imp (h : Comes esc P a st) (hP : ∀ x o st', P x o st' → P' x o st') : Comes esc P' a st :=
  h.mono (fun _ he => he) hP

/-- What a session that is not broken off comes to. -/
theorem self (h : Orderly esc a) (st : σ) : Comes esc (fun x o st' => ran a st = ((Except.ok x, o), st')) a st := by
  have hsafe := h.safe st
  unfold Comes at hsafe ⊢
  split
  next heq => exact heq
  next heq => rwa [heq] at hsafe

theorem bind (h : Comes esc P a st) (hf : ∀ x, Adds (f x))
    (hnext : ∀ x o st', P x o st' → Comes esc (fun y o' => Q y (o ++ o')) (f x) st') :
    Comes esc Q (a >>= f) st := by
  unfold Comes at h ⊢
  rw [ran_bind hf]
  generalize ran a st = made at h
  obtain ⟨⟨answer, o⟩, st'⟩ := made
  cases answer with
  | error e => exact h
  | ok x =>
    have hx := hnext x o st' h
    unfold Comes at hx
    dsimp only at hx ⊢
    generalize ran (f x) st' = made at hx
    obtain ⟨⟨answer, o'⟩, st''⟩ := made
    cases answer <;> exact hx

theorem pure {x : α} (h : P x {} st) : Comes esc P (Pure.pure x : Session (StateM σ) α) st := h

theorem throw {e : Unhandled} (h : esc e) : Comes esc P (throw e : Session (StateM σ) α) st := h

theorem lift {a : StateM σ α} (h : Comes esc Q (f (a.run st).1) (a.run st).2) :
    Comes esc Q (liftM a >>= f) st := by
  rw [Comes, ran, run_lift_bind]
  exact h

theorem log (hc : c.Lawful) {level : Level} {parts : List Console.Part} (h : Console.Fit parts) :
    Comes esc (fun _ o st' => (level = .error → o.hasError = true) ∧ st' = st) (log c level parts) st := by
  obtain ⟨shown, hshown⟩ := Option.isSome_iff_exists.mp (hc.shows (.words _ :: parts) ⟨level.plain, h⟩)
  have hrun : ran (Command.log c level parts) st = ((.ok (), ⟨[], [.message level shown]⟩), st) := by
    rw [Command.log, hshown]
    rfl
  rw [Comes, hrun]
  exact ⟨fun hlevel => by rw [hlevel]; rfl, rfl⟩

end Comes

namespace Orderly

variable {esc : Unhandled → Prop}

theorem pure (x : α) : Orderly esc (Pure.pure x : Session (StateM σ) α) := ⟨.pure x, fun _ => trivial⟩

theorem throw {e : Unhandled} (h : esc e) : Orderly esc (throw e : Session (StateM σ) α) :=
  ⟨.throw e, fun _ => h⟩

theorem bind (ha : Orderly esc a) (hf : ∀ x, Orderly esc (f x)) : Orderly esc (a >>= f) :=
  ⟨ha.adds.bind fun x => (hf x).adds,
    fun st => (ha.safe st).bind (fun x => (hf x).adds) fun x _ st' _ => (hf x).safe st'⟩

theorem lift (a : StateM σ α) : Orderly esc (liftM a : Session (StateM σ) α) :=
  ⟨.lift a, fun st => by rw [Comes, ran, run_lift]; trivial⟩

/-- What follows is only asked for the answers that the files give. -/
theorem lift_bind {a : StateM σ α} (h : ∀ st, Orderly esc (f (a.run st).1)) :
    Orderly esc (liftM a >>= f) where
  adds o st := by
    rw [ran, run_lift_bind, run_lift_bind]
    exact (h st).adds o _
  safe st := .lift ((h st).safe _)

theorem emit (s : Shown) : Orderly esc (emit s : Session (StateM σ) Unit) := ⟨.emit s, fun _ => trivial⟩

theorem write (text : Text) : Orderly esc (write text : Session (StateM σ) Unit) :=
  ⟨.write text, fun _ => trivial⟩

theorem rendered {markup : Text} {shown : Option Text} (h : shown = none → esc (.markup markup)) :
    Orderly esc (rendered markup shown : Session (StateM σ) Text) := by
  cases shown with
  | none => exact throw (h rfl)
  | some t => exact pure t

theorem note {text : Text} (h : c.notice text = none → esc (.markup text)) :
    Orderly esc (note c text : Session (StateM σ) Unit) := bind (rendered h) fun _ => emit _

/-- Messages whose parts keep apart break nothing off. -/
theorem log (hc : c.Lawful) {level : Level} {parts : List Console.Part} (h : Console.Fit parts) :
    Orderly esc (log c level parts : Session (StateM σ) Unit) := by
  obtain ⟨shown, hshown⟩ := Option.isSome_iff_exists.mp (hc.shows (.words _ :: parts) ⟨level.plain, h⟩)
  exact bind (rendered fun hnone => absurd (hshown.symm.trans hnone) (by simp)) fun _ => emit _

theorem forM {f : α → Session (StateM σ) Unit} (h : ∀ x, Orderly esc (f x)) (xs : List α) :
    Orderly esc (xs.forM f) := by
  induction xs with
  | nil => exact pure ()
  | cons x xs ih => exact bind (h x) fun _ => ih

theorem mapM (h : ∀ x, Orderly esc (f x)) (xs : List α) : Orderly esc (xs.mapM f) := by
  induction xs with
  | nil => exact pure []
  | cons x xs ih =>
    rw [List.mapM_cons]
    exact bind (h x) fun _ => bind ih fun _ => pure _

theorem tabulate (hc : c.Lawful) (title : Text) (columns : List Text) (rows : List (List Text)) :
    Orderly esc (tabulate c title columns rows : Session (StateM σ) Unit) := by
  refine bind (mapM (fun row => mapM (fun cell => rendered fun hnone => ?_) row) rows) fun _ => emit _
  obtain ⟨shown, hshown⟩ := Option.isSome_iff_exists.mp (hc.shows [.shown cell] ⟨trivial, trivial⟩)
  exact absurd (hshown.symm.trans hnone) (by simp)

end Orderly

/-- The session answers with something that has failed, and shows an error. -/
def Fails (esc : Unhandled → Prop) (failed : α → Bool) (a : Session (StateM σ) α) (st : σ) : Prop :=
  Comes esc (fun x o _ => failed x = true ∧ o.hasError = true) a st

namespace Fails

variable {esc : Unhandled → Prop} {failed : α → Bool} {failed' : β → Bool}

/-- What fails in the end fails, whatever has gone before. -/
theorem after (ha : Orderly esc a) (hf : ∀ x, Adds (f x)) (h : ∀ x st, Fails esc failed' (f x) st) :
    Fails esc failed' (a >>= f) st :=
  (ha.safe st).bind hf fun x o st' _ => (h x st').imp fun y o' _ ⟨hfailed, herror⟩ =>
    ⟨hfailed, by rw [Output.hasError_append, herror, Bool.or_true]⟩

/-- A failure is passed on if what follows makes a failure of it. -/
theorem before (h : Fails esc failed a st) (hf : ∀ x, Adds (f x))
    (hpasses : ∀ x st, failed x = true → Comes esc (fun y _ _ => failed' y = true) (f x) st) :
    Fails esc failed' (a >>= f) st :=
  Comes.bind h hf fun x o st' ⟨hfailed, herror⟩ => (hpasses x st' hfailed).imp fun y o' _ hy =>
    ⟨hy, by rw [Output.hasError_append, herror, Bool.true_or]⟩

theorem log (hc : c.Lawful) {parts : List Console.Part} (h : Console.Fit parts) :
    Fails esc (fun _ => true) (log c .error parts) st :=
  (Comes.log hc h).imp fun _ _ _ hlog => ⟨rfl, hlog.1 rfl⟩

end Fails

/-- A list of things to be done in turn, each with the files that it finds, up to the first that is broken
off. -/
def turns (f : α → Session (StateM σ) β) : List α → σ → List (α × σ)
  | [], _ => []
  | x :: xs, st => (x, st) :: match ran (f x) st with
    | ((.ok _, _), st') => turns f xs st'
    | ((.error _, _), _) => []

/-- If something fails in its turn, the whole list is done with a failure among the answers. -/
theorem mapM_fails {esc : Unhandled → Prop} {failed : β → Bool} (hf : ∀ x, Orderly esc (f x)) {xs : List α}
    (h : ∃ y ∈ turns f xs st, Fails esc failed (f y.1) y.2) :
    Fails esc (fun ys => ys.any failed) (xs.mapM f) st := by
  induction xs generalizing st with
  | nil => simp [turns] at h
  | cons x xs ih =>
    have hrest : ∀ y, Adds (do
        let ys ← xs.mapM f
        pure (y :: ys)) := fun y => (Orderly.mapM hf xs).adds.bind fun ys => .pure _
    rw [List.mapM_cons]
    obtain ⟨y, hy, hfails⟩ := h
    rcases List.mem_cons.mp hy with rfl | hy
    · refine hfails.before hrest fun z st' hz => ?_
      refine ((Orderly.mapM hf xs).safe st').bind (fun ys => .pure _) fun ys _ _ _ => ?_
      exact .pure (by rw [List.any_cons, hz, Bool.true_or])
    · refine (Comes.self (hf x) st).bind hrest fun z o st' hz => ?_
      rw [hz] at hy
      have hlater : Fails esc (fun ys => ys.any failed) (do
          let ys ← xs.mapM f
          pure (z :: ys)) st' :=
        (ih ⟨y, hy, hfails⟩).before (fun ys => .pure _) fun ys _ hys =>
          .pure (by rw [List.any_cons, hys, Bool.or_true])
      exact hlater.imp fun ys o' _ ⟨hfailed, herror⟩ =>
        ⟨hfailed, by rw [Output.hasError_append, herror, Bool.or_true]⟩

end Sessions

section Sources

variable {lib : Library} {fs : Files (StateM σ)} {s : Settings} {st : σ} {esc : Unhandled → Prop}

/-- A notice that cannot be shown. -/
def Unshown (lib : Library) (e : Unhandled) : Prop :=
  ∃ text, lib.console.notice text = none ∧ e = .markup text

/-- What can break off an expansion whose settings are loaded: a notice, the message that there are no
sources, a unit of indentation that is too wide and, where sources are checked, one that cannot be read
again. -/
inductive Broken (lib : Library) (s : Settings) (r : ExpandRequest) : Unhandled → Prop
  | notice {e : Unhandled} : Unshown lib e → Broken lib s r e
  | none : lib.console.render (lib.console.message
      (.words Level.warning.sign.toList :: noSources s r.path)) = none →
    Broken lib s r (.markup (lib.console.message (.words Level.warning.sign.toList :: noSources s r.path)))
  | width : s.isTooWide = true → Broken lib s r (.indent s.indentWidth)
  | source (message : Text) : r.check = true → Broken lib s r (.source message)

/-- The source cannot be read, or its text cannot be read as tokens. -/
def Unfit (fs : Files (StateM σ)) (source : Path) (st : σ) : Prop :=
  match ((readSource fs source).run st).1 with
  | .error _ => True
  | .ok code => ∃ e, Token.tokenize code = .error e

/-- Why a source cannot be read is told in a calm text. -/
theorem calm_of_readSource {source : Path} {message : Text}
    (h : ((readSource fs source).run st).1 = .error message) : Text.Calm message := by
  rw [readSource, answer_bind] at h
  cases hread : ((fs.read source).run st).1 with
  | error e =>
    rw [hread] at h
    cases h
    exact e.calm_message
  | ok bs =>
    rw [hread] at h
    dsimp only at h
    cases hdecode : Text.Utf8.decode bs with
    | ok t =>
      rw [hdecode] at h
      cases h
    | error e =>
      rw [hdecode] at h
      cases h
      exact Text.calm_of_forall e.bare_message

/-- A text that is read from a file has unified line ends. -/
theorem unifyLineEnds_of_readSource {source : Path} {code : Text}
    (h : ((readSource fs source).run st).1 = .ok code) : Text.unifyLineEnds code = code := by
  rw [readSource, answer_bind] at h
  cases hread : ((fs.read source).run st).1 with
  | error e =>
    rw [hread] at h
    cases h
  | ok bs =>
    rw [hread] at h
    dsimp only at h
    cases hdecode : Text.Utf8.decode bs with
    | ok t =>
      rw [hdecode] at h
      cases h
      exact Text.unifyLineEnds_of_not_hasCrLf
        (Text.hasCrLf_of_not_mem (Text.not_mem_universalLineEnds t))
    | error e =>
      rw [hdecode] at h
      cases h

theorem writeTrace_orderly (hc : lib.console.Lawful) (p : Path) (r : Expansion.Result) :
    Orderly esc (writeTrace lib fs p r) := by
  refine .bind (.lift _) fun made => ?_
  cases made with
  | error e => exact .log hc ⟨by decide, trivial, trivial⟩
  | ok u => exact .log hc ⟨by decide, trivial⟩

theorem deliver_orderly (hc : lib.console.Lawful) (source : Path) (out : Option Path)
    (r : Expansion.Result) : Orderly esc (deliver lib fs source out r) := by
  cases out with
  | none => exact .bind (.write _) fun _ => .pure r
  | some p =>
    refine .bind (.lift _) fun made => ?_
    cases made with
    | error e =>
      exact .bind (.log hc ⟨by decide, ⟨by decide, e.calm_message, trivial⟩, by decide, trivial, trivial⟩)
        fun _ => .pure _
    | ok u => exact .bind (.log hc ⟨by decide, by decide, trivial⟩) fun _ => .pure r

theorem finishRun_orderly (hc : lib.console.Lawful) (check : Bool) (source : Path) (out : Option Path)
    (r : Expansion.Result) : Orderly esc (finishRun lib fs check source out r) := by
  unfold finishRun
  split
  · have hlog : ∀ e, Orderly esc (log lib.console .error [.shown e] : Session (StateM σ) Unit) := fun e =>
      .log hc ⟨trivial, trivial⟩
    exact .bind (.forM hlog _) fun _ => .pure r
  · split
    · exact .pure r
    · exact deliver_orderly hc source out r

/-- The message that a source cannot be read. -/
theorem fit_failed {words : Text} (hwords : Text.Plain words) {message : Text} (h : Text.Calm message)
    (source : Path) : Console.Fit
      [.words words, .shown source.toText, .words ": ".toList, .shown message] :=
  ⟨hwords, ⟨by decide, h, trivial⟩, by decide, trivial, trivial⟩

theorem expandSource_orderly (hc : lib.console.Lawful) {r : ExpandRequest} (source : Path)
    (out trace : Option Path) :
    Orderly (Broken lib s r) (expandSource lib fs s r.check source out trace) := by
  refine .lift_bind fun st => ?_
  cases hread : ((readSource fs source).run st).1 with
  | error message =>
    exact .bind (.log hc (fit_failed (by decide) (calm_of_readSource hread) source)) fun _ => .pure _
  | ok code =>
    dsimp only
    split
    next hwide => exact .throw (.width (Bool.and_eq_true _ _ ▸ hwide).1)
    next =>
      refine .bind (.forM (fun w => .note fun hnone => .notice ⟨w, hnone, rfl⟩) _) fun _ => ?_
      cases trace with
      | none => exact finishRun_orderly hc r.check source out _
      | some p => exact .bind (writeTrace_orderly hc p _) fun _ => finishRun_orderly hc r.check source out _

theorem wouldChange_orderly {r : ExpandRequest} (source : Path) (result : Expansion.Result) :
    Orderly (Broken lib s r) (wouldChange fs r.check source result) := by
  unfold wouldChange
  split
  next hcheck =>
    refine .bind (.lift _) fun found => ?_
    cases found with
    | ok code => exact .pure _
    | error message => exact .throw (.source message (Bool.and_eq_true _ _ ▸ hcheck).1)
  next => exact .pure _

theorem expandNamed_orderly (hc : lib.console.Lawful) {r : ExpandRequest} (name : Text) (source : Path)
    (out trace : Option Path) :
    Orderly (Broken lib s r) (expandNamed lib fs s r.check name source out trace) :=
  .bind (expandSource_orderly hc source out trace) fun _ => .bind (wouldChange_orderly source _) fun _ => .pure _

/-- A run that is no success tells why. -/
theorem run_errors_ne_nil {r : Registry} {code : Text} {path : Option Text}
    (h : (Expansion.run s r code path).success = false) : (Expansion.run s r code path).errors ≠ [] := by
  unfold Expansion.run at h ⊢
  dsimp only at h ⊢
  split at h
  next p _ => simpa [Expansion.Result.errors] using h
  next d p _ => simp [Expansion.Result.errors]

/-- A result that is no success is told of. -/
theorem finishRun_fails (hc : lib.console.Lawful) {check : Bool} {source : Path} {out : Option Path}
    {r : Expansion.Result} (hr : r.success = false) (herrors : r.errors ≠ []) (st : σ) :
    Fails esc (fun r => !r.success) (finishRun lib fs check source out r) st := by
  obtain ⟨e, es, hes⟩ := List.exists_cons_of_ne_nil herrors
  have hlog : ∀ e, Orderly esc (log lib.console .error [.shown e] : Session (StateM σ) Unit) := fun e =>
    .log hc ⟨trivial, trivial⟩
  have hlogged : Fails esc (fun _ => true)
      ((e :: es).forM fun e => log lib.console .error [.shown e]) st :=
    (Fails.log hc (show Console.Fit [.shown e] from ⟨trivial, trivial⟩)).before (fun _ => (Orderly.forM hlog es).adds) fun _ st' _ =>
      ((Orderly.forM hlog es).safe st').imp fun _ _ _ _ => rfl
  rw [finishRun, hr, if_pos Bool.not_false, hes]
  exact hlogged.before (fun _ => .pure r) fun _ _ _ => .pure (by rw [hr, Bool.not_false])

/-- A source that is not fit to be expanded comes to a result that is no success. -/
theorem expandSource_unfit (hc : lib.console.Lawful) {r : ExpandRequest} {source : Path}
    {out trace : Option Path} (h : Unfit fs source st) :
    Fails (Broken lib s r) (fun r => !r.success) (expandSource lib fs s r.check source out trace) st := by
  unfold expandSource
  refine Comes.lift ?_
  unfold Unfit at h
  cases hread : ((readSource fs source).run st).1 with
  | error message =>
    exact (Fails.log hc (fit_failed (by decide) (calm_of_readSource hread) source)).before
      (fun _ => .pure _) fun _ _ _ => .pure rfl
  | ok code =>
    rw [hread] at h
    obtain ⟨e, he⟩ := h
    rw [← unifyLineEnds_of_readSource hread] at he
    obtain ⟨hr, -⟩ := Expansion.run_of_tokenize_error s (some source.toText) (r := Registry.ofSettings s) he
    have herrors := run_errors_ne_nil hr
    dsimp only
    split
    next hwide => exact .throw (.width (Bool.and_eq_true _ _ ▸ hwide).1)
    next =>
      have hfinish : ∀ result, Orderly (Broken lib s r) (finishRun lib fs r.check source out result) :=
        finishRun_orderly hc r.check source out
      have htrace : ∀ p result, Orderly (Broken lib s r) (writeTrace lib fs p result) :=
        writeTrace_orderly hc
      have hnotes : Orderly (Broken lib s r) (((Expansion.run s (Registry.ofSettings s) code
          (some source.toText)).warnings).forM (note lib.console) : Session (StateM σ) Unit) :=
        .forM (fun w => .note fun hnone => .notice ⟨w, hnone, rfl⟩) _
      cases trace with
      | none => exact Fails.after hnotes (fun _ => (hfinish _).adds) fun _ => finishRun_fails hc hr herrors
      | some p =>
        refine Fails.after hnotes (fun _ => ((htrace p _).bind fun _ => hfinish _).adds) fun _ st' => ?_
        exact Fails.after (htrace p _) (fun _ => (hfinish _).adds) fun _ => finishRun_fails hc hr herrors

theorem expandNamed_unfit (hc : lib.console.Lawful) {r : ExpandRequest} {name : Text} {source : Path}
    {out trace : Option Path} (h : Unfit fs source st) :
    Fails (Broken lib s r) (fun o => !o.result.success)
      (expandNamed lib fs s r.check name source out trace) st := by
  have hpending : ∀ result, Orderly (Broken lib s r) (wouldChange fs r.check source result) :=
    wouldChange_orderly source
  refine (expandSource_unfit hc h).before (fun result => ((hpending result).bind fun _ => .pure _).adds)
    fun result st' hr => ?_
  rw [Bool.not_eq_true'] at hr
  rw [wouldChange, hr, Bool.and_false, if_neg Bool.false_ne_true]
  exact .pure (by rw [hr, Bool.not_false])

theorem summarize_orderly (hc : lib.console.Lawful) (outcomes : List Outcome) :
    Orderly esc (summarize lib outcomes : Session (StateM σ) Unit) := by
  unfold summarize
  dsimp only
  split
  · exact .log hc ⟨plain_passed _ _, trivial⟩
  · exact .bind (.tabulate hc _ _ _) fun _ => .emit _

/-- The session only shows something before it answers with `x`. -/
structure Returns (esc : Unhandled → Prop) (a : Session (StateM σ) α) (x : α) : Prop where
  adds : Adds a
  comes : ∀ st, Comes esc (fun y _ _ => y = x) a st

theorem Returns.orderly {a : Session (StateM σ) α} {x : α} (h : Returns esc a x) : Orderly esc a :=
  ⟨h.adds, fun st => (h.comes st).imp fun _ _ _ _ => trivial⟩

theorem Returns.pure (x : α) : Returns esc (Pure.pure x : Session (StateM σ) α) x :=
  ⟨.pure x, fun _ => rfl⟩

theorem Returns.bind {a : Session (StateM σ) α} {f : α → Session (StateM σ) β} {y : β}
    (ha : Orderly esc a) (hf : ∀ x, Returns esc (f x) y) : Returns esc (a >>= f) y :=
  ⟨ha.adds.bind fun x => (hf x).adds,
    fun st => (ha.safe st).bind (fun x => (hf x).adds) fun x _ st' _ => (hf x).comes st'⟩

theorem conclude_returns (hc : lib.console.Lawful) (check isFolder : Bool) (outcomes : List Outcome) :
    Returns esc (conclude lib check isFolder outcomes : Session (StateM σ) Nat) (exitCode outcomes) := by
  unfold conclude
  extract_lets finish pending rest
  have hfinish : Returns esc (finish ()) (exitCode outcomes) := .pure _
  have hrest : Returns esc (rest ()) (exitCode outcomes) := by
    simp only [rest]
    split
    · have hlog : ∀ o : Outcome, Orderly esc (log lib.console .warning
          [.words "Would expand: ".toList, .path o.name] : Session (StateM σ) Unit) := fun o =>
        .log hc ⟨by decide, trivial⟩
      refine .bind (.forM hlog _) fun _ => ?_
      split
      · exact .bind (.log hc ⟨by decide, trivial⟩) fun _ => hfinish
      · exact hfinish
    · exact hfinish
  split
  · exact .bind (summarize_orderly hc outcomes) fun _ => hrest
  · exact hrest

/-- What is found in a source, or why it is not fit to be inspected. -/
theorem inspect_run (source : Path) : ((inspect fs s source).run st).1 =
    match ((readSource fs source).run st).1 with
    | .error message => .error message
    | .ok code => (Expansion.collectFields (Registry.ofSettings s) code).mapError SyntaxError.message := by
  unfold inspect
  change ((match ((readSource fs source).run st).1 with | .error e => _ | .ok bs => _ :
    StateM σ (Except Text Expansion.FieldReports)).run ((readSource fs source).run st).2).1 = _
  cases ((readSource fs source).run st).1 <;> rfl

theorem calm_of_inspect {source : Path} {message : Text}
    (h : ((inspect fs s source).run st).1 = .error message) : Text.Calm message := by
  rw [inspect_run] at h
  cases hread : ((readSource fs source).run st).1 with
  | error e =>
    rw [hread] at h
    cases h
    exact calm_of_readSource hread
  | ok code =>
    rw [hread] at h
    cases htokens : Token.tokenize code with
    | ok ts => simp [Expansion.collectFields, Cursor.ofText, htokens, Except.map, Except.mapError] at h
    | error e =>
      simp only [Expansion.collectFields, Cursor.ofText, htokens] at h
      cases h
      exact Text.calm_of_forall (Token.bare_message htokens)

theorem fieldRows_orderly (hc : lib.console.Lawful) (lead : List Text) (source : Path) :
    Orderly (Unshown lib) (fieldRows lib fs s lead source) := by
  refine .lift_bind fun st => ?_
  cases hfound : ((inspect fs s source).run st).1 with
  | error message =>
    exact .bind (.log hc (fit_failed (by decide) (calm_of_inspect hfound) source)) fun _ => .pure none
  | ok reports => exact .bind (.forM (fun w => .note fun hnone => ⟨w, hnone, rfl⟩) _) fun _ => .pure _

/-- A source that is not fit to be inspected has no rows, not even none. -/
theorem fieldRows_unfit (hc : lib.console.Lawful) {lead : List Text} {source : Path}
    (h : Unfit fs source st) :
    Fails (Unshown lib) Option.isNone (fieldRows lib fs s lead source) st := by
  refine Comes.lift ?_
  obtain ⟨message, hmessage⟩ : ∃ message, ((inspect fs s source).run st).1 = .error message := by
    rw [inspect_run]
    unfold Unfit at h
    cases hread : ((readSource fs source).run st).1 with
    | error message => exact ⟨message, rfl⟩
    | ok code =>
      rw [hread] at h
      obtain ⟨e, he⟩ := h
      exact ⟨e.message, by simp only [Expansion.collectFields, Cursor.ofText, he]; rfl⟩
  rw [hmessage]
  exact (Fails.log hc (fit_failed (by decide) (calm_of_inspect hmessage) source)).before
    (fun _ => .pure none) fun _ _ _ => .pure rfl

end Sources

section Answers

variable {lib : Library} {esc esc' : Unhandled → Prop} {bad bad' : Prop} {st : σ}

/-- Unless it is broken off as `esc` allows, the command ends with the code 0 or 1 and, on bad input, with
1 and a message of an error. -/
def Answered (esc : Unhandled → Prop) (a : Session (StateM σ) Nat) (st : σ) (bad : Prop) : Prop :=
  Comes esc (fun n o _ => (n = 0 ∨ n = 1) ∧ (bad → n = 1 ∧ o.hasError = true)) a st

/-- The command is broken off, as `esc` allows. -/
def Escapes (esc : Unhandled → Prop) (a : Session (StateM σ) Nat) (st : σ) : Prop :=
  Comes esc (fun _ _ _ => False) a st

namespace Answered

variable {f : α → Session (StateM σ) Nat}

theorem imp {a : Session (StateM σ) Nat} (h : Answered esc a st bad) (himp : bad' → bad) :
    Answered esc a st bad' :=
  Comes.imp h fun _ _ _ ⟨hn, hbad⟩ => ⟨hn, fun h => hbad (himp h)⟩

theorem after {a : Session (StateM σ) α} {P : α → Output → σ → Prop} (ha : Comes esc P a st)
    (hf : ∀ x, Adds (f x)) (h : ∀ x o st', P x o st' → Answered esc (f x) st' bad) :
    Answered esc (a >>= f) st bad :=
  ha.bind hf fun x o st' hx => Comes.imp (h x o st' hx) fun n o' _ ⟨hn, hbad⟩ =>
    ⟨hn, fun h => ⟨(hbad h).1, by rw [Output.hasError_append, (hbad h).2, Bool.or_true]⟩⟩

/-- An error that is told of, with the code 1. -/
theorem refused (hc : lib.console.Lawful) {parts : List Console.Part} (h : Console.Fit parts) :
    Answered esc (do
      log lib.console .error parts
      return 1) st bad :=
  (Comes.log hc h).bind (fun _ => .pure _) fun _ o _ hlog => .pure
    ⟨.inr rfl, fun _ => ⟨rfl, by rw [Output.append_empty]; exact hlog.1 rfl⟩⟩

/-- A command whose code tells whether something has failed. -/
theorem ofFails {a : Session (StateM σ) α} {failed : α → Bool} (ha : Orderly esc a)
    (hfails : bad → Fails esc failed a st)
    (hf : ∀ x, ∃ n, Returns esc (f x) n ∧ (n = 0 ∨ n = 1) ∧ (failed x = true → n = 1)) :
    Answered esc (a >>= f) st bad := by
  have hadds : ∀ x, Adds (f x) := fun x => (hf x).choose_spec.1.adds
  by_cases hbad : bad
  · refine Comes.bind (hfails hbad) hadds fun x o st' ⟨hfailed, herror⟩ => ?_
    obtain ⟨n, hreturns, -, hone⟩ := hf x
    refine (hreturns.comes st').imp fun y o' _ hy => ?_
    rw [hy, hone hfailed]
    exact ⟨.inr rfl, fun _ => ⟨rfl, by rw [Output.hasError_append, herror, Bool.true_or]⟩⟩
  · refine Comes.bind (ha.safe st) hadds fun x o st' _ => ?_
    obtain ⟨n, hreturns, hn, -⟩ := hf x
    refine (hreturns.comes st').imp fun y o' _ hy => ?_
    rw [hy]
    exact ⟨hn, fun h => absurd h hbad⟩

end Answered

section Folders

variable (lib) (fs : Files (StateM σ)) (s : Settings) (st : σ)

/-- The sources of `expand`, each with the files as it finds them in its turn. -/
def ExpandRequest.turnsOf (r : ExpandRequest) (isFile : Bool) : List (Path × σ) :=
  if isFile then [(r.path, st)]
  else
    let found := (sourcesBelow fs r.path s.fileExtensions).run st
    (turns (fun p => expandNamed lib fs s r.check p.toText (r.path.append p) (r.destination p)
      (r.tracePath p)) found.1 found.2).map fun y => (r.path.append y.1, y.2)

/-- The sources of `fields`, each with the files as it finds them in its turn. -/
def fieldTurns (path : Path) (isFile : Bool) : List (Path × σ) :=
  if isFile then [(path, st)]
  else
    let found := (sourcesBelow fs path s.fileExtensions).run st
    (turns (fun x : List Text × Path => fieldRows lib fs s x.1 x.2)
      (found.1.map fun p => ([p.toText], path.append p)) found.2).map fun y => (y.1.2, y.2)

end Folders

variable {fs : Files (StateM σ)} {s : Settings}

theorem conclude_answers (hc : lib.console.Lawful) (check isFolder : Bool) (outcomes : List Outcome) :
    ∃ n, Returns esc (conclude lib check isFolder outcomes : Session (StateM σ) Nat) n ∧
      (n = 0 ∨ n = 1) ∧ (outcomes.any (fun o => !o.result.success) = true → n = 1) := by
  refine ⟨_, conclude_returns hc check isFolder outcomes, exitCode_le outcomes, fun h => ?_⟩
  rw [exitCode, h, Bool.true_or, if_pos rfl]

theorem fit_path {words : Text} (hwords : Text.Plain words) (t : Text) :
    Console.Fit [.words words, .shown t] := ⟨hwords, trivial, trivial⟩

theorem fit_processing (n : Nat) (t : Text) : Console.Fit
    [.words ("Processing ".toList ++ Text.ofNat n ++ " files from ".toList), .shown t,
      .words "...".toList] :=
  ⟨((by decide : Text.Plain _).append (Text.plain_ofNat n)).append (by decide),
    ⟨by decide, trivial⟩, by decide, trivial⟩

/-- The message that there are no sources is shown, or breaks the expansion off. -/
theorem noSources_orderly {r : ExpandRequest} : Orderly (Broken lib s r)
    (log lib.console .warning (noSources s r.path) : Session (StateM σ) Unit) :=
  .bind (.rendered .none) fun _ => .emit _

theorem expandFolder_orderly (hc : lib.console.Lawful) (r : ExpandRequest) :
    Orderly (Broken lib s r) (expandFolder lib fs s r) := by
  unfold expandFolder
  split
  · exact .bind (.log hc ⟨by decide, trivial⟩) fun _ => .pure _
  · refine .bind (.lift _) fun sources => ?_
    split
    · exact .bind noSources_orderly fun _ => .pure _
    · exact .bind (.log hc (fit_processing _ _)) fun _ =>
        .bind (.mapM (fun p => expandNamed_orderly hc _ _ _ _) sources) fun os =>
          (conclude_returns hc r.check true os).orderly

theorem expandFolder_answers (hc : lib.console.Lawful) (r : ExpandRequest) :
    Answered (Broken lib s r) (expandFolder lib fs s r) st
      (∃ y ∈ r.turnsOf lib fs s st false, Unfit fs y.1 y.2) := by
  unfold expandFolder
  split
  · exact .refused hc ⟨by decide, trivial⟩
  · refine Comes.lift ?_
    rw [ExpandRequest.turnsOf, if_neg Bool.false_ne_true]
    generalize (sourcesBelow fs r.path s.fileExtensions).run st = found
    obtain ⟨sources, st'⟩ := found
    dsimp only
    have hnamed : ∀ p : Path, Orderly (Broken lib s r) (expandNamed lib fs s r.check p.toText
        (r.path.append p) (r.destination p) (r.tracePath p)) := fun p => expandNamed_orderly hc _ _ _ _
    have hconclude : ∀ os, Orderly (Broken lib s r)
        (conclude lib r.check true os : Session (StateM σ) Nat) := fun os =>
      (conclude_returns hc r.check true os).orderly
    split
    next hempty =>
      rw [List.isEmpty_iff.mp hempty]
      exact Answered.after (noSources_orderly.safe st') (fun _ => .pure _) fun _ _ _ _ =>
        .pure ⟨.inl rfl, by simp [turns]⟩
    next =>
      refine Answered.after (Comes.log hc (fit_processing _ _)) (fun _ =>
        (Orderly.mapM hnamed sources).adds.bind fun os => (hconclude os).adds)
        fun _ _ st'' hlog => ?_
      rw [hlog.2]
      refine .ofFails (.mapM hnamed sources) (fun hbad => mapM_fails hnamed ?_)
        (conclude_answers hc r.check true)
      obtain ⟨y, hy, hunfit⟩ := hbad
      obtain ⟨x, hx, rfl⟩ := List.mem_map.mp hy
      exact ⟨x, hx, expandNamed_unfit hc hunfit⟩

theorem plain_of_isIdentifier {t : Text} (h : Text.isIdentifier t = true) : Text.Plain t := by
  obtain ⟨c, u, rfl, -, hparts⟩ := Text.exists_cons_of_isIdentifier h
  intro d hd
  have hpart := hparts d hd
  refine ⟨Bool.not_eq_true _ ▸ fun hbracket => ?_, ?_⟩
  · rw [Text.isBracket, Bool.or_eq_true, beq_iff_eq, beq_iff_eq] at hbracket
    rcases hbracket with rfl | rfl <;> exact absurd hpart (by decide +kernel)
  · rintro rfl
    exact absurd hpart (by decide +kernel)

/-- Settings that are loaded have been read from some entries. -/
theorem ofEntries_of_load {given : Entries} {folder : Path}
    (h : ((Settings.load lib fs given folder).run st).1.1 = .ok s) :
    ∃ es, Settings.ofEntries lib.coercions es = .ok s := by
  have hsettle : ∀ es, (Settings.ofEntries lib.coercions es).mapError Settings.LoadError.invalid = .ok s →
      ∃ es, Settings.ofEntries lib.coercions es = .ok s := fun es hes => by
    cases hread : Settings.ofEntries lib.coercions es with
    | ok s' =>
      rw [hread] at hes
      cases hes
      exact ⟨es, hread⟩
    | error e =>
      rw [hread] at hes
      cases hes
  unfold Settings.load at h
  extract_lets settle at h
  rw [answer_bind, answer_bind] at h
  split at h
  next => exact hsettle _ h
  next file _ =>
    rw [answer_bind] at h
    dsimp only at h
    split at h
    next => exact hsettle _ h
    next => exact hsettle _ h
    next => cases h

/-- The name of the setter macro can stand in a message. -/
theorem plain_of_opening {given : Entries} {path : Path} {isFile : Bool} {ws : List Text}
    (h : ((opening lib fs given path).run st).1 = some (isFile, .ok s, ws)) : Text.Plain s.fluentSetter := by
  unfold opening at h
  rw [answer_bind, answer_bind] at h
  split at h
  next => cases h
  next =>
    rw [answer_bind, answer_bind] at h
    have hloaded := (Prod.mk.inj (Option.some.inj h)).2
    obtain ⟨es, hes⟩ := ofEntries_of_load (congrArg Prod.fst hloaded)
    exact plain_of_isIdentifier (Settings.isIdentifier_of_ofEntries hes).1

theorem showFields_orderly (hc : lib.console.Lawful) (hname : Text.Plain s.fluentSetter) (path : Path)
    (columns : List Text) (rows : List (List Text)) :
    Orderly esc (showFields lib s path columns rows : Session (StateM σ) Unit) := by
  unfold showFields
  split
  · exact .log hc (fit_path (((by decide : Text.Plain _).append hname).append (by decide)) _)
  · exact .tabulate hc _ _ _

theorem listFields_answers (hc : lib.console.Lawful) (fs : Files (StateM σ)) (st : σ)
    (hname : Text.Plain s.fluentSetter) (path : Path) (columns : List Text)
    (sources : List (List Text × Path)) :
    Adds (listFields lib fs s path columns sources) ∧
      Answered (Unshown lib) (listFields lib fs s path columns sources) st
        (∃ y ∈ turns (fun x : List Text × Path => fieldRows lib fs s x.1 x.2) sources st,
          Unfit fs y.1.2 y.2) := by
  have hrows : ∀ x : List Text × Path, Orderly (Unshown lib) (fieldRows lib fs s x.1 x.2) := fun x =>
    fieldRows_orderly hc x.1 x.2
  have hshow : ∀ found : List (Option (List (List Text))), Returns (Unshown lib) (do
      showFields lib s path columns (found.flatMap (·.getD []))
      return if found.any Option.isNone then 1 else 0 : Session (StateM σ) Nat)
      (if found.any Option.isNone then 1 else 0) := fun found =>
    .bind (showFields_orderly hc hname path columns _) fun _ => .pure _
  refine ⟨(Orderly.mapM hrows sources).adds.bind fun found => (hshow found).adds, ?_⟩
  refine .ofFails (.mapM hrows sources) (fun hbad => mapM_fails hrows ?_)
    fun found => ⟨_, hshow found, ?_, fun h => if_pos h⟩
  · obtain ⟨y, hy, hunfit⟩ := hbad
    exact ⟨y, hy, fieldRows_unfit hc hunfit⟩
  · split
    · exact .inr rfl
    · exact .inl rfl

/-- Notices are shown or break the command off; the files stay as they are. -/
theorem notes_comes (ws : List Text) : Comes (Unshown lib) (fun _ _ st' => st' = st)
    (ws.forM (note lib.console) : Session (StateM σ) Unit) st := by
  have hnote : ∀ w, Orderly (Unshown lib) (note lib.console w : Session (StateM σ) Unit) := fun w =>
    .note fun hnone => ⟨w, hnone, rfl⟩
  induction ws with
  | nil => rfl
  | cons w ws ih =>
    refine Comes.bind (P := fun _ _ st' => st' = st) ?_ (fun _ => (Orderly.forM hnote ws).adds)
      fun _ _ st' h => h ▸ ih
    unfold note
    cases hw : lib.console.notice w with
    | none => exact Comes.throw ⟨w, hw, rfl⟩
    | some shown => rfl

/-- What is noted before a command goes on can only break it off. -/
theorem Answered.noted {a : Session (StateM σ) Nat} (hesc : ∀ e, Unshown lib e → esc e) (ws : List Text)
    (ha : Adds a) (h : Answered esc a st bad) : Answered esc (do
      ws.forM (note lib.console)
      a) st bad :=
  .after ((notes_comes ws).mono hesc fun _ _ _ h => h) (fun _ => ha) fun _ _ _ hst => hst ▸ h

theorem Escapes.noted {e : Unhandled} (ws : List Text) : Escapes (fun e' => Unshown lib e' ∨ e' = e) (do
    ws.forM (note lib.console)
    throw e : Session (StateM σ) Nat) st :=
  ((notes_comes ws).mono (fun _ => .inl) fun _ _ _ h => h).bind (fun _ => .throw e) fun _ _ _ _ =>
    .throw (.inr rfl)

end Answers

section Main

variable {lib : Library} (hc : lib.console.Lawful) (fs : Files (StateM σ)) (st : σ)
include hc

theorem expand_answers (r : ExpandRequest) :
    match (opening lib fs r.settings r.path).run st with
    | (none, _) => Answered (fun _ => False) (expand lib fs r) st True
    | (some (_, .error (.invalid _), _), _) => Answered (Unshown lib) (expand lib fs r) st True
    | (some (_, .error .malformed, _), _) =>
      Escapes (fun e => Unshown lib e ∨ e = .settings .malformed) (expand lib fs r) st
    | (some (isFile, .ok s, _), st') => Answered (Broken lib s r) (expand lib fs r) st
        (∃ y ∈ r.turnsOf lib fs s st' isFile, Unfit fs y.1 y.2) := by
  unfold expand
  generalize hfound : (opening lib fs r.settings r.path).run st = found
  obtain ⟨found, st'⟩ := found
  cases found with
  | none =>
    refine Comes.lift ?_
    rw [hfound]
    exact Answered.refused hc (fit_path (by decide) _)
  | some found =>
    obtain ⟨isFile, settings, warnings⟩ := found
    match settings with
    | .error (.invalid es) =>
      refine Comes.lift ?_
      rw [hfound]
      have hlog : Console.Fit [.words "Invalid configuration".toList] := ⟨by decide, trivial⟩
      have horderly : Orderly (Unshown lib) (do
          log lib.console .error [.words "Invalid configuration".toList]
          return 1 : Session (StateM σ) Nat) := .bind (.log hc hlog) fun _ => .pure 1
      exact Answered.noted (fun _ he => he) warnings horderly.adds (.refused hc hlog)
    | .error .malformed =>
      refine Comes.lift ?_
      rw [hfound]
      exact Escapes.noted warnings
    | .ok s =>
      refine Comes.lift ?_
      rw [hfound]
      cases isFile with
      | true =>
        have hnamed : Orderly (Broken lib s r) (expandNamed lib fs s r.check r.path.name r.path r.out r.trace) :=
          expandNamed_orderly hc _ _ _ _
        have hconclude : ∀ o : Outcome, Orderly (Broken lib s r)
            (conclude lib r.check false [o] : Session (StateM σ) Nat) := fun o =>
          (conclude_returns hc r.check false [o]).orderly
        refine Answered.noted (fun _ => .notice) warnings (hnamed.adds.bind fun o => (hconclude o).adds)
          (.ofFails hnamed (fun hbad => expandNamed_unfit hc ?_)
            fun o => by simpa using conclude_answers hc r.check false [o])
        simpa [ExpandRequest.turnsOf] using hbad
      | false =>
        exact Answered.noted (fun _ => .notice) warnings (expandFolder_orderly hc r).adds (expandFolder_answers hc r)

/-- How `fields` ends. It answers to none of the errors of loading its settings. -/
theorem fields_answers (path : Path) :
    match (opening lib fs [] path).run st with
    | (none, _) => Answered (fun _ => False) (fields lib fs path) st True
    | (some (_, .error e, _), _) =>
      Escapes (fun e' => Unshown lib e' ∨ e' = .settings e) (fields lib fs path) st
    | (some (isFile, .ok s, _), st') => Answered (Unshown lib) (fields lib fs path) st
        (∃ y ∈ fieldTurns lib fs s st' path isFile, Unfit fs y.1 y.2) := by
  unfold fields
  generalize hfound : (opening lib fs [] path).run st = found
  obtain ⟨found, st'⟩ := found
  cases found with
  | none =>
    refine Comes.lift ?_
    rw [hfound]
    exact Answered.refused hc (fit_path (by decide) _)
  | some found =>
    obtain ⟨isFile, settings, warnings⟩ := found
    cases settings with
    | error e =>
      refine Comes.lift ?_
      rw [hfound]
      exact Escapes.noted warnings
    | ok s =>
      have hname : Text.Plain s.fluentSetter := plain_of_opening (congrArg Prod.fst hfound)
      refine Comes.lift ?_
      rw [hfound]
      cases isFile with
      | true =>
        obtain ⟨hadds, hanswers⟩ := listFields_answers hc fs st' hname path
          (["Declaration", "Kind", "Field", "Setter Signature"].map String.toList) [([], path)]
        refine Answered.noted (fun _ he => he) warnings hadds (hanswers.imp ?_)
        rintro ⟨y, hy, hunfit⟩
        rw [fieldTurns, if_pos rfl, List.mem_singleton] at hy
        subst hy
        exact ⟨(([], path), st'), List.mem_cons_self, hunfit⟩
      | false =>
        have hlists := fun st sources => listFields_answers hc fs st hname path
          ("File".toList :: ["Declaration", "Kind", "Field", "Setter Signature"].map String.toList) sources
        refine Answered.noted (fun _ he => he) warnings (.bind (.lift _) fun sources => (hlists st' _).1) (Comes.lift ?_)
        refine ((hlists _ _).2).imp ?_
        rintro ⟨y, hy, hunfit⟩
        obtain ⟨x, hx, rfl⟩ := List.mem_map.mp hy
        exact ⟨x, hx, hunfit⟩

/-- How the commands end on any files, with all settings and sources. They answer with the code 0 or 1,
and with 1 and a message of an error if nothing is there, if the settings are not accepted, or if some
source cannot be read or tokenized in its turn. They are broken off in two ways. Settings that cannot be
loaded do it: `fields` answers to none of them, and `expand` not to a file without a table to read. And
what is shown can do it, where a text is taken for markup that it is not, or a unit of indentation is too
wide to be laid out. -/
theorem commands_answer (r : ExpandRequest) (path : Path) :
    (match (opening lib fs r.settings r.path).run st with
      | (none, _) => Answered (fun _ => False) (expand lib fs r) st True
      | (some (_, .error (.invalid _), _), _) => Answered (Unshown lib) (expand lib fs r) st True
      | (some (_, .error .malformed, _), _) =>
        Escapes (fun e => Unshown lib e ∨ e = .settings .malformed) (expand lib fs r) st
      | (some (isFile, .ok s, _), st') => Answered (Broken lib s r) (expand lib fs r) st
          (∃ y ∈ r.turnsOf lib fs s st' isFile, Unfit fs y.1 y.2)) ∧
    (match (opening lib fs [] path).run st with
      | (none, _) => Answered (fun _ => False) (fields lib fs path) st True
      | (some (_, .error e, _), _) =>
        Escapes (fun e' => Unshown lib e' ∨ e' = .settings e) (fields lib fs path) st
      | (some (isFile, .ok s, _), st') => Answered (Unshown lib) (fields lib fs path) st
          (∃ y ∈ fieldTurns lib fs s st' path isFile, Unfit fs y.1 y.2)) :=
  ⟨expand_answers hc fs st r, fields_answers hc fs st path⟩

end Main

section Rejected

/-- A source beside settings that are not accepted. -/
def rejectedSettings : FileTree :=
  ⟨[(["pyproject.toml".toList],
      .file (.bytes (Text.Utf8.encode "[tool.ssg_macro]\nindent_width = 0\n".toList))),
    (["a.swift".toList], .file (.bytes (Text.Utf8.encode "let a = 1\n".toList)))]⟩

def rejectedRequest : ExpandRequest := { path := ⟨[], ["a.swift".toList]⟩ }

/-- Why the settings that a command finds cannot be loaded. -/
def refusal? : Option (Bool × Except Settings.LoadError Settings × List Text) → Option Settings.LoadError
  | some (_, .error e, _) => some e
  | _ => none

theorem eq_of_refusal? {found : Option (Bool × Except Settings.LoadError Settings × List Text)}
    {e : Settings.LoadError} (h : refusal? found = some e) : ∃ isFile ws, found = some (isFile, .error e, ws) := by
  unfold refusal? at h
  split at h
  next isFile e' ws =>
    cases h
    exact ⟨isFile, ws, rfl⟩
  next => cases h

theorem commands_answer_rejected : Library.usual.console.Lawful ∧
    Answered (Unshown Library.usual) (expand Library.usual (FileTree.asFiles ['/']) rejectedRequest)
      rejectedSettings True := by
  have hlawful : Library.usual.console.Lawful := Markup.console_lawful
  have hanswers := (commands_answer hlawful (FileTree.asFiles ['/']) rejectedSettings rejectedRequest
    rejectedRequest.path).1
  have hrefusal : refusal? ((opening Library.usual (FileTree.asFiles ['/']) rejectedRequest.settings
      rejectedRequest.path).run rejectedSettings).1 =
        some (.invalid [⟨"indent_width".toList, none, .tooSmall⟩]) := by
    decide +kernel
  obtain ⟨isFile, ws, hfound⟩ := eq_of_refusal? hrefusal
  rw [show (opening Library.usual (FileTree.asFiles ['/']) rejectedRequest.settings
    rejectedRequest.path).run rejectedSettings = (some (isFile, .error (.invalid _), ws), _) from
      Prod.ext hfound rfl] at hanswers
  exact ⟨hlawful, hanswers⟩

/-- Where `expand` tells of an invalid configuration, `fields` ends without a code. -/
theorem fields_unhandled :
    ((fields Library.usual (FileTree.asFiles ['/']) ⟨[], ["a.swift".toList]⟩).finish.run
        rejectedSettings).1.1 = .unhandled (.settings (.invalid [⟨"indent_width".toList, none, .tooSmall⟩])) ∧
      ((expand Library.usual (FileTree.asFiles ['/']) rejectedRequest).finish.run rejectedSettings).1.1 =
        .code 1 := by
  decide +kernel

end Rejected

end SwiftMacros.Command
