import Mathlib
import SwiftMacros.Proofs.Parser.Crosses
import SwiftMacros.Proofs.Grammar.Paths
import SwiftMacros.Proofs.Cursor.Grains
import SwiftMacros.Proofs.Token.Respaced
import SwiftMacros.Setter.Method

/-! A declaration is read, and the white space in front of the accessors of a binding is other white space. No type
and no initializer holds that white space, so the members tell the same. -/

namespace SwiftMacros

open SwiftMacros.Parser

namespace Grammar

variable {S : Respacing} {g : Grammar} {c c' : Cursor}

section Bindings

variable (hg : ∀ S, g.Mirrored S) (hbase : S.base ≠ []) (h : c.Mirror S c')
include hg hbase h

theorem bindingRule_crosses {d : Cursor} (hp : g.atBinding accessorsHere 0 c = .ok (some S.place) d) :
    Crosses S Binding.Like g.bindingRule g.bindingRule c c' := by
  rw [bindingRule_eq]
  refine .current_bind (.early (bindingHead_mirrors (hg S) h) fun b b' c₁ c₁' hhead _ h₁ => ?_)
  rw [atBinding, current_bind_eq_ok, bind_of_ok hhead, accessorsHere, current_bind_eq_ok, ite_eq_ok] at hp
  -- the accessors begin where the white space ends
  have hplace : c₁.peek.start = S.place := by
    rcases hp with ⟨-, hp⟩ | ⟨-, hp⟩
    · exact Option.some.inj (pure_eq_ok.mp hp).1
    · cases (pure_eq_ok.mp hp).1
  exact .here h₁ hbase hplace fun h₂ => (bindingTail_mirrors h₂).mono fun _ _ hlike hb => hlike (hb hbase)

theorem bindings_cross {n : Nat} {d : Cursor} (hp : g.atBinding accessorsHere n c = .ok (some S.place) d) :
    Crosses S (List.Forall₂ Binding.Like) (separated g.bindingRule) (separated g.bindingRule) c c' := by
  refine .separated (s := fun _ => ()) (P := fun n c => ∃ d, g.atBinding accessorsHere n c = .ok (some S.place) d)
    (fun h₁ => bindingRule_mirrors (hg _) h₁) (fun h₁ hd => ?_) (fun hd hb => ?_) hbase h ⟨d, hp⟩
  · exact hd.elim fun _ hd => bindingRule_crosses hg hbase h₁ hd
  · obtain ⟨d, hd⟩ := hd
    rw [atBinding, bind_of_ok hb, current_bind_eq_ok, ite_eq_ok] at hd
    rcases hd with ⟨hcomma, hd⟩ | ⟨-, hd⟩
    · exact ⟨hcomma, d, hd⟩
    · cases hd

end Bindings

section Members

variable (hg : ∀ S, g.Mirrored S) (hbase : S.base ≠ []) (h : c.Mirror S c')
include hg hbase h

theorem memberRule_crosses {n : Nat} {d : Cursor} (hp : g.atMember accessorsHere n 0 c = .ok (some S.place) d) :
    Crosses S Member.Like g.memberRule g.memberRule c c' := by
  rw [atMember, current_bind_eq_ok, ite_eq_ok] at hp
  rcases hp with ⟨-, hp⟩ | ⟨-, hp⟩
  · cases hp
  obtain ⟨as, c₁, has, hp⟩ := bind_eq_ok.mp hp
  obtain ⟨ms, c₂, hms, hp⟩ := bind_eq_ok.mp hp
  rw [current_bind_eq_ok, ite_eq_ok] at hp
  rcases hp with ⟨hvar, hp⟩ | ⟨-, hp⟩
  · refine .current_bind (.early (attributesRule_mirrors (hg S) h) fun as as' d₁ d₁' has' _ h₁ => .early
      (modifiersRule_mirrors (hg S) h₁) fun ms ms' d₂ d₂' hms' _ h₂ => ?_)
    cases has.symm.trans has'
    cases hms.symm.trans hms'
    refine .current_bind (.ite ((h₂.peek 0).isIdentifierIn _) (fun _ => .skip_bind h₂ fun h₃ => .late (u := fun _ => ())
      (bindings_cross hg hbase h₃ hp) fun bs bs' d₃ d₃' hbs h₄ => .sliceFrom_next fun _ _ => .pure h₄ rfl fun hms _ =>
        .binding ⟨(h₂.peek 0).spelled.symm, hms hbase, hbs⟩) fun hother => absurd hvar (by simp [hother]))
  · cases hp

theorem blockItem_crosses {n : Nat} {d : Cursor} (hp : g.atMember accessorsHere n 0 c = .ok (some S.place) d) :
    Crosses S (Option.Rel (List.Forall₂ Member.Like)) g.blockItem g.blockItem c c' := by
  have hmember := memberRule_crosses hg hbase h hp
  rw [atMember, current_bind_eq_ok, ite_eq_ok] at hp
  rcases hp with ⟨-, hp⟩ | ⟨hmark, -⟩
  · cases hp
  rw [Bool.or_eq_true, not_or] at hmark
  refine .get_bind (.ite ((h.peek 0).isSymbol _) (fun hb => absurd hb hmark.1) fun _ => .ite h.isEof
    (fun _ => ?_) fun _ => .ite ((h.peek 0).isSymbol _) (fun hb => absurd hb hmark.2) fun _ =>
      .late (u := fun _ => ()) hmember fun m m' c₁ c₁' hm h₁ => .get_bind ?_)
  · intro a c₁ ha
    cases ha
  · rw [h.position, h₁.position]
    split
    · exact .skip_bind h₁ fun h₂ => .pure h₂ rfl (.some (.cons hm .nil))
    · exact .pure h₁ rfl (.some (.cons hm .nil))

theorem members_cross {m n : Nat} {d : Cursor} (hp : g.atMember accessorsHere n m c = .ok (some S.place) d) :
    Crosses S (List.Forall₂ (List.Forall₂ Member.Like)) (collect g.blockItem) (collect g.blockItem) c c' := by
  refine .collect (s := fun _ => ()) (P := fun m c => ∃ d, g.atMember accessorsHere n m c = .ok (some S.place) d)
    (fun h₁ => blockItem_mirrors (hg _) h₁) (fun hd ho => ?_) (fun h₁ hd => ?_) hbase h ⟨d, hp⟩
  · obtain ⟨d, hd⟩ := hd
    rw [atMember, bind_of_ok ho, ite_eq_ok] at hd
    rcases hd with ⟨-, hd⟩ | ⟨hsome, hd⟩
    · cases hd
    · exact ⟨by simpa [Option.isSome_iff_ne_none] using hsome, d, hd⟩
  · exact hd.elim fun _ hd => blockItem_crosses hg hbase h₁ hd

end Members

section Declarations

variable (hg : ∀ S, g.Mirrored S) (h : c.Mirror S c')
include hg h

theorem memberBlockRule_crosses {m n : Nat} {d : Cursor}
    (hp : (expect "\x7b".toList >>= fun _ => g.atMember accessorsHere n m) c = .ok (some S.place) d) :
    Crosses S (fun b b' => List.Forall₂ Member.Like b.members b'.members) g.memberBlockRule g.memberBlockRule c c' := by
  obtain ⟨hopen, hp⟩ := expect_bind_eq_ok.mp hp
  have hne : (c.advance 1).behind ≠ [] := by
    cases ha : c.ahead with
    | nil =>
      have hpeek : c.peek = c.eof := by simp [Cursor.peek, ha]
      simp [hpeek, Token.reads, h.sound.eof_text] at hopen
    | cons t ts => simp [Cursor.advance, ha]
  refine .expect_bind h fun h₁ => ?_
  have hmembers : Crosses S _ _ _ _ _ := members_cross (S := S.before (c.advance 1).behind) hg hne h₁.early hp
  exact .late (u := fun _ => ()) hmembers fun ms ms' c₂ c₂' hms h₂ => .expect_bind h₂ fun h₃ => .sliceFrom_next
    fun _ _ => .pure h₃ rfl (List.rel_flatten hms)

theorem declarationRule_crosses {m n : Nat} {d : Cursor} (hp : g.atGroup accessorsHere m n c = .ok (some S.place) d) :
    Crosses S (fun d d' => ∀ t, d = .group t → ∃ t', d' = .group t' ∧ t.Like t') g.declarationRule
      g.declarationRule c c' := by
  obtain ⟨as, c₁, has, hp⟩ := bind_eq_ok.mp hp
  obtain ⟨ms, c₂, hms, hp⟩ := bind_eq_ok.mp hp
  rw [current_bind_eq_ok, ite_eq_ok] at hp
  rcases hp with ⟨hword, hp⟩ | ⟨-, hp⟩
  · refine .current_bind (.early (attributesRule_mirrors (hg S) h) fun as as' d₁ d₁' has' _ h₁ => .early
      (modifiersRule_mirrors (hg S) h₁) fun ms ms' d₂ d₂' hms' _ h₂ => ?_)
    cases has.symm.trans has'
    cases hms.symm.trans hms'
    rw [consume_bind_eq_ok, consume_bind_eq_ok] at hp
    obtain ⟨u, c₃, hheader, hp⟩ := bind_eq_ok.mp hp
    refine .current_bind (.ite ((h₂.peek 0).isIdentifierIn _) (fun _ => ?_) fun hother => absurd hword (by simp [hother]))
    refine .late (u := fun _ => ()) (E := Group.Like) ?_ fun t t' c₄ c₄' ht h₃ => .pure h₃ rfl ?_
    · refine .consume_bind h₂ fun h₃ => .current_bind (.ite (by rw [(h₃.peek 0).kind]) (fun _ => ?_) fun _ => ?_)
      · intro a c₄ ha
        cases ha
      · refine .consume_bind h₃ fun h₄ => ?_
        rw [(h₃.peek 0).spelled]
        refine .early (groupHeader_mirrors h₄) fun _ _ c₄ c₄' hheader' _ h₅ => ?_
        cases hheader.symm.trans hheader'
        exact .late (u := fun _ => ()) (memberBlockRule_crosses hg h₅ hp) fun b b' c₅ c₅' hb h₆ => .sliceFrom_next
          fun _ _ => .pure h₆ rfl fun _ => ⟨(h₂.peek 0).spelled.symm, rfl, hb⟩
    · rintro _ _ t ⟨⟩
      exact ⟨_, rfl, ht⟩
  · cases hp

end Declarations

end Grammar

end SwiftMacros

/-! Accessors behind any white space. Whatever white space that is, the members of the declaration tell the same, and
the same setters are made, as long as no line ends in it: a brace in a line of its own is not read as accessors. -/

namespace SwiftMacros

open SwiftMacros.Parser

namespace Property

/-- What a property tells, but for places in the source: of its initializer, the text and the signature. -/
def told (p : Property) : Property × Option (Text × Text) :=
  ({ p with initializer := none }, p.initializer.map fun e => (e.toText, e.signature))

theorem signature?_told (p : Property) :
    (p.told.1.type.map TypeTree.signature).or (p.told.2.map Prod.snd) = p.signature? := by
  rw [told, signature?, Option.map_map]
  rfl

/-- The properties that are eligible are told by what all of them tell. -/
theorem told_filter {ps ps' : List Property} (h : ps.map told = ps'.map told) :
    (ps.filter isEligible).map told = (ps'.filter isEligible).map told := by
  have hfilter : ∀ qs : List Property, (qs.filter isEligible).map told =
      (qs.map told).filter fun t => t.1.isEligible := by
    intro qs
    rw [List.filter_map]
    rfl
  rw [hfilter, hfilter, h]

/-- The setters are told by what the properties tell. -/
theorem ofProperties_told {ps ps' : List Property} (h : ps.map told = ps'.map told) :
    Setter.ofProperties ps = Setter.ofProperties ps' := by
  have hsetters : ∀ qs : List Property, Setter.ofProperties qs = (qs.map told).filterMap fun t =>
      ((t.1.type.map TypeTree.signature).or (t.2.map Prod.snd)).map fun s => (⟨t.1.name, s⟩ : Setter) := by
    intro qs
    rw [Setter.ofProperties, List.filterMap_map]
    congr 1
    funext p
    rw [Function.comp_apply, signature?_told]
    rfl
  rw [hsetters, hsetters, h]

theorem told_ofBinding? {v v' : Variable} {b b' : Binding} (h : b.Like b') (hs : v.specifier = v'.specifier)
    (hm : v.modifiers.map Modifier.name = v'.modifiers.map Modifier.name) :
    (ofBinding? v b).map told = (ofBinding? v' b').map told := by
  have hmodifier : ∀ names, v.hasModifier names = v'.hasModifier names := by
    intro names
    have hany : ∀ w : Variable, w.hasModifier names =
        (w.modifiers.map Modifier.name).any fun x => names.any fun n => x == n.toList := fun w => by
      rw [Variable.hasModifier, List.any_map]
      rfl
    rw [hany, hany, hm]
  have hvalue : (b.initializer.map fun e => (e.toText, e.signature)) =
      b'.initializer.map fun e => (e.toText, e.signature) := by
    have hinitializer := h.initializer
    generalize b.initializer = o, b'.initializer = o' at hinitializer
    cases hinitializer with
    | none => rfl
    | some he => rw [Option.map_some, Option.map_some, he.toText, he.signature]
  simp only [ofBinding?, Option.map_map, Function.comp_def, told, hmodifier, hs, h.name, h.type, h.accessors, hvalue]

end Property

theorem Member.Like.properties {m m' : Member} (h : m.Like m') :
    m.properties.map Property.told = m'.properties.map Property.told := by
  cases h with
  | other => rfl
  | @binding v v' h =>
    have hbindings : ∀ {bs bs' : List Binding}, List.Forall₂ Binding.Like bs bs' →
        (bs.filterMap (Property.ofBinding? v)).map Property.told =
          (bs'.filterMap (Property.ofBinding? v')).map Property.told := by
      intro bs bs' hbs
      rw [List.map_filterMap, List.map_filterMap]
      induction hbs with
      | nil => rfl
      | cons hb _ ih => rw [List.filterMap_cons, List.filterMap_cons, Property.told_ofBinding? hb h.specifier h.modifiers, ih]
    exact hbindings h.bindings

namespace Group

variable {d d' : Group} {kind : Composite}

theorem Like.composite (h : d.Like d') (hk : d.composite = .ok kind) : d'.composite = .ok kind := by
  rw [Group.composite] at hk ⊢
  rw [← h.keyword]
  cases hkeyword : Composite.ofKeyword? d.keyword with
  | none =>
    rw [hkeyword] at hk
    cases hk
  | some k =>
    rw [hkeyword] at hk
    exact hk

theorem Like.propertiesTold (h : d.Like d') (hk : d.composite = .ok kind) : ∃ ps ps', d.properties = .ok ps ∧
    d'.properties = .ok ps' ∧ ps.map Property.told = ps'.map Property.told := by
  refine ⟨d.block.members.flatMap Member.properties, d'.block.members.flatMap Member.properties, ?_, ?_, ?_⟩
  · rw [properties, hk]
    rfl
  · rw [properties, h.composite hk]
    rfl
  · rw [List.map_flatMap, List.map_flatMap]
    have hmembers := h.members
    generalize d.block.members = ms, d'.block.members = ms' at hmembers
    induction hmembers with
    | nil => rfl
    | cons hm _ ih => rw [List.flatMap_cons, List.flatMap_cons, hm.properties, ih]

theorem Like.setters (h : d.Like d') (hk : d.composite = .ok kind) : d.setters = d'.setters := by
  obtain ⟨ps, ps', hps, hps', htold⟩ := h.propertiesTold hk
  have hall := Property.ofProperties_told (Property.told_filter htold)
  simp only [Group.setters, eligibleProperties, hps, hps', hk, h.composite hk, h.name, Except.map]
  exact congrArg (fun all : List Setter => (.ok ⟨kind, all.filter fun s => !Signature.isSentinel s.signature,
    (all.filter fun s => Signature.isSentinel s.signature).map (Setter.warning d'.name)⟩ :
      Except MacroError SetterList)) hall

end Group

/-- A token that is no operator stays in one piece. -/
theorem Token.Splits.mem_of_kind {ts us : List Token} (h : Splits ts us) {u : Token} (hu : u ∈ us)
    (hk : u.kind ≠ .operator) : u ∈ ts := by
  induction h with
  | refl => exact hu
  | tail _ hs ih =>
    obtain ⟨xs, t, n, ys, rfl, rfl, ht, -⟩ := hs
    refine ih ?_
    simp only [List.mem_append, List.mem_cons] at hu ⊢
    rcases hu with hu | rfl | rfl | hu
    · exact .inl hu
    · exact absurd ht hk
    · exact absurd ht hk
    · exact .inr (.inr hu)

/-- What tokens tell of the gaps between them is true of the parts of operators, too. -/
theorem Token.Spaced.splits {s : Text} {a : Nat} {ts us : List Token} (h : Spaced s a ts) (hs : Splits ts us) :
    Spaced s a us := by
  induction hs with
  | refl => exact h
  | tail _ hs ih =>
    obtain ⟨xs, t, n, ys, rfl, rfl, -⟩ := hs
    rw [spaced_append] at ih ⊢
    obtain ⟨hfront, hspace, hnewline, hback⟩ := ih
    refine ⟨hfront, hspace, hnewline, ?_, ?_, hback⟩
    · simp [secondPart, firstPart]
    · simp [secondPart, firstPart, Text.slice]

/-- A cursor that has come from the start of a text tells whether a line ends between what has been read and the next
token. -/
theorem Cursor.Onward.newlineBefore {s : Text} {c d : Cursor} (h : c.Onward d) (hc : Cursor.ofText s = .ok c)
    (hne : d.ahead ≠ []) : d.peek.newlineBefore = true ↔ '\n' ∈ Text.slice s d.edge d.peek.start := by
  obtain ⟨ts, hbehind, hsplits⟩ := h.taken
  obtain ⟨-, -, hstart⟩ := Cursor.sound_ofText hc
  have hspaced := Cursor.spaced_ofText hc
  rw [Cursor.inner, hstart, List.reverse_nil, List.nil_append] at hspaced
  have hnext := (Token.spaced_append.mp (hspaced.splits hsplits)).2
  have hedge : Token.stopFrom 0 ts = d.edge := by
    have := Cursor.stopFrom_taken hbehind
    rwa [show c.edge = 0 by simp [Cursor.edge, hstart]] at this
  rw [hedge] at hnext
  obtain ⟨t, us, hahead⟩ := List.exists_cons_of_ne_nil hne
  rw [hahead] at hnext
  simpa [Cursor.peek, hahead] using hnext.2.1

namespace Parser

/-- The answer of a parser at the start of a text that can be read. -/
theorem runOn_eq_ok {α : Type} {p : Parser α} {s : Text} {a : α} :
    runOn p s = .ok a ↔ ∃ c d, Cursor.ofText s = .ok c ∧ p c = .ok a d := by
  rw [runOn]
  cases Cursor.ofText s with
  | error e => simp
  | ok c =>
    cases hp : p c <;> simp [hp]

theorem group_eq_ok {t : Group} {c d : Cursor} : group c = .ok t d ↔
    (Grammar.upTo (c.room + 1)).declarationRule c = .ok (.group t) d := by
  rw [group, bind_eq_ok]
  constructor
  · rintro ⟨a, c₁, ha, h⟩
    cases a with
    | group t' =>
      obtain ⟨rfl, rfl⟩ := pure_eq_ok.mp h
      exact ha
    | member m => cases h
  · exact fun h => ⟨.group t, d, h, rfl⟩

/-- Accessors begin with a token of the source. -/
theorem mem_ahead_of_accessors {g : Grammar} {m n k : Nat} {c d : Cursor} (hg : g.Forward) (hs : c.Sound)
    (h : g.atGroup Grammar.accessorsHere m n c = .ok (some k) d) : ∃ t ∈ c.ahead, t.start = k ∧ t.kind ≠ .operator := by
  obtain ⟨hbrace, hk⟩ := Grammar.atGroup_accessors_peek h
  have hkind := Token.kind_of_isSymbol hbrace
  have hl := Forward.onward (Grammar.atGroup_forward hg Grammar.accessorsHere_forward) h
  obtain ⟨ts, -, hsplits⟩ := hl.taken
  have hmem : d.peek ∈ ts ++ d.ahead := by
    cases ha : d.ahead with
    | nil =>
      have hpeek : d.peek = c.eof := by rw [Cursor.peek, ha, ← hl.eof]; rfl
      rw [hpeek, hs.eof_kind] at hkind
      cases hkind
    | cons u us => simp [Cursor.peek, ha]
  exact ⟨d.peek, hsplits.mem_of_kind hmem (by simp [hkind]), hk, by simp [hkind]⟩

/-- Where the accessors begin of the binding that comes behind `n` others, in the member that comes behind `m` others
in the declaration. -/
def accessors (m n : Nat) : Parser (Option Nat) := withGrammar fun g => g.atGroup Grammar.accessorsHere m n

/-- Where a brace stands behind the annotation and the initializer of that binding, in whatever line. -/
def brace (m n : Nat) : Parser (Option Nat) := withGrammar fun g => g.atGroup Grammar.braceHere m n

/-- Where that binding ends as far as its annotation and its initializer. -/
def bindingEnd (m n : Nat) : Parser (Option Nat) := withGrammar fun g => g.atGroup Grammar.edgeHere m n

/-- A brace behind a binding begins its accessors if no line ends between them. -/
theorem accessors_of_brace {s : Text} {m n k e : Nat} (hbrace : runOn (brace m n) s = .ok (some k))
    (hend : runOn (bindingEnd m n) s = .ok (some e)) (hline : '\n' ∉ Text.slice s e k) :
    runOn (accessors m n) s = .ok (some k) := by
  obtain ⟨c, d, hc, hpath⟩ := runOn_eq_ok.mp hbrace
  obtain ⟨c', d', hc', hpath'⟩ := runOn_eq_ok.mp hend
  cases hc.symm.trans hc'
  rw [brace, withGrammar, get_bind_eq_ok] at hpath
  rw [bindingEnd, withGrammar, get_bind_eq_ok] at hpath'
  have hl := Forward.onward (Grammar.atGroup_forward (Grammar.upTo_forward _) Grammar.braceHere_forward) hpath
  obtain ⟨c₁, hlook, hall⟩ := Grammar.atGroup_reaches hpath
  obtain ⟨rfl, hsymbol, rfl⟩ := Grammar.braceHere_eq_ok.mp hlook
  rw [hall] at hpath'
  rw [Grammar.edgeHere, get_bind_eq_ok, pure_eq_ok] at hpath'
  obtain rfl := Option.some.inj hpath'.1
  have hkind := Token.kind_of_isSymbol hsymbol
  have hne : d.ahead ≠ [] := by
    intro hnil
    have hpeek : d.peek = c.eof := by rw [Cursor.peek, hnil, ← hl.eof]; rfl
    rw [hpeek, (Cursor.sound_ofText hc).1.eof_kind] at hkind
    cases hkind
  have hnewline : d.peek.newlineBefore = false := by
    rw [← Bool.not_eq_true, hl.newlineBefore hc hne]
    exact hline
  refine runOn_eq_ok.mpr ⟨c, d, hc, ?_⟩
  rw [accessors, withGrammar, get_bind_eq_ok, hall]
  exact Grammar.accessorsHere_eq_ok.mpr ⟨rfl, hsymbol, hnewline, rfl⟩

/-- There is a way to the accessors of every binding. -/
theorem exists_accessors {s x : Text} {t : Group} {v : Variable} {b : Binding} (ht : runOn group s = .ok t)
    (hv : .binding v ∈ t.block.members) (hb : b ∈ v.bindings) (hx : b.accessors = some x) :
    ∃ m n k, runOn (accessors m n) s = .ok (some k) ∧ x <+: s.drop k := by
  obtain ⟨c, c₁, hc, hgroup⟩ := runOn_eq_ok.mp ht
  obtain ⟨m, n, k, d, hk, hx⟩ := Grammar.declarationRule_locates (Grammar.upTo_forward _) (group_eq_ok.mp hgroup) hv hb hx
  exact ⟨m, n, k, runOn_eq_ok.mpr ⟨c, d, hc, hk⟩, (Cursor.sound_ofText hc).2.1 ▸ hx⟩

/-- Other white space in front of accessors: the declaration is read, the accessors are found where the white space
ends, and the properties tell what they did. -/
theorem group_respaced {p w w' q : Text} {m n : Nat} {t : Group} {kind : Composite} (hw : w ≠ []) (hw' : w' ≠ [])
    (hblank : ∀ x ∈ w ++ w', Token.isSpaceChar x = true) (ht : runOn group (p ++ w ++ q) = .ok t)
    (hkind : t.composite = .ok kind)
    (hplace : runOn (accessors m n) (p ++ w ++ q) = .ok (some (p ++ w).length)) :
    ∃ t', runOn group (p ++ w' ++ q) = .ok t' ∧ t'.composite = .ok kind ∧
      t'.properties.map (List.map Property.told) = t.properties.map (List.map Property.told) ∧
      t'.eligibleProperties.map (List.map Property.told) = t.eligibleProperties.map (List.map Property.told) ∧
      t'.setters = t.setters ∧
      runOn (accessors m n) (p ++ w' ++ q) = .ok (some (p ++ w').length) := by
  obtain ⟨c, c₁, hc, hgroup⟩ := runOn_eq_ok.mp ht
  obtain ⟨d, c₂, hd, hpath⟩ := runOn_eq_ok.mp hplace
  cases hc.symm.trans hd
  rw [group_eq_ok] at hgroup
  rw [accessors, withGrammar, get_bind_eq_ok, List.length_append] at hpath
  let S : Respacing := {
    front := p
    space := w
    space' := w'
    back := q
    space_ne := hw
    space'_ne := hw'
    blank := fun x hx => hblank x (List.mem_append_left _ hx)
    blank' := fun x hx => hblank x (List.mem_append_right _ hx)
    late := False
    base := [] }
  obtain ⟨u, hu, hstart, hk⟩ := mem_ahead_of_accessors (Grammar.upTo_forward _) (Cursor.sound_ofText hc).1 hpath
  obtain ⟨c', hc', hmirror⟩ := Cursor.mirror_ofText (S := S) hc hu hstart hk
  have hgrammar := fun S => Grammar.upTo_mirrored S (c.room + 1)
  -- the declaration
  obtain ⟨-, -, a, c₁', ha, hgroups, -⟩ := Grammar.declarationRule_crosses hgrammar hmirror hpath _ _ hgroup
  obtain ⟨t', rfl, hlike⟩ := hgroups t rfl
  have ht' : runOn group (p ++ w' ++ q) = .ok t' := runOn_eq_ok.mpr ⟨c', c₁', hc', group_eq_ok.mpr (hmirror.room ▸ ha)⟩
  obtain ⟨ps, ps', hps, hps', htold⟩ := hlike.propertiesTold hkind
  refine ⟨t', ht', hlike.composite hkind, ?_, ?_, (hlike.setters hkind).symm, ?_⟩
  · rw [hps, hps']
    exact congrArg Except.ok htold.symm
  · rw [Group.eligibleProperties, Group.eligibleProperties, hps, hps']
    exact congrArg Except.ok (Property.told_filter htold).symm
  -- the way to the accessors
  · obtain ⟨o, c₂', ho, hsome, hmirror₂, -⟩ := (Grammar.atGroup_mirrors (hgrammar _) hmirror).ok _ _ hpath
    obtain ⟨k, rfl, -⟩ := Option.map_eq_some_iff.mp hsome
    have hend := (Grammar.atGroup_accessors_peek hpath).2
    have hend' := (Grammar.atGroup_accessors_peek ho).2
    obtain ⟨hle, hstands⟩ := (hmirror₂.peek 0).stands
    have hpos := List.length_pos_iff.mpr hw
    simp only [Respacing.Left, Respacing.Right, Respacing.before, S, hend, hend'] at hle hstands
    have hk' : k = (p ++ w').length := by
      rw [List.length_append]
      omega
    refine runOn_eq_ok.mpr ⟨c', c₂', hc', ?_⟩
    rw [accessors, withGrammar, get_bind_eq_ok, hmirror.room, ← hk']
    exact ho

/-- Properties with accessors, however these are laid out. There is a way to all accessors. If the annotation and the
initializer of a binding end in front of white space, and a brace stands behind it, then any other white space leaves
the eligible properties, all other properties and the setters as they are, and the brace begins the accessors before
and after, unless a line ends between the binding and the brace. -/
theorem accessors_respaced {s : Text} {t : Group} {kind : Composite} (ht : runOn group s = .ok t)
    (hkind : t.composite = .ok kind) :
    (∀ v b x, .binding v ∈ t.block.members → b ∈ v.bindings → b.accessors = some x →
      ∃ m n k, runOn (accessors m n) s = .ok (some k) ∧ x <+: s.drop k) ∧
    ∀ m n e p w w' q, s = p ++ w ++ q → runOn (bindingEnd m n) s = .ok (some e) → e ≤ p.length →
      runOn (brace m n) s = .ok (some (p ++ w).length) → w ≠ [] → w' ≠ [] →
      (∀ x ∈ w ++ w', Token.isSpaceChar x = true ∨ x = '\n') →
      '\n' ∉ Text.slice s e (p ++ w).length → '\n' ∉ w' →
      runOn (accessors m n) s = .ok (some (p ++ w).length) ∧ ∃ t', runOn group (p ++ w' ++ q) = .ok t' ∧
        t'.composite = .ok kind ∧
        t'.eligibleProperties.map (List.map Property.told) = t.eligibleProperties.map (List.map Property.told) ∧
        t'.properties.map (List.map Property.told) = t.properties.map (List.map Property.told) ∧
        t'.setters = t.setters ∧ runOn (accessors m n) (p ++ w' ++ q) = .ok (some (p ++ w').length) := by
  refine ⟨fun v b x hv hb hx => exists_accessors ht hv hb hx, ?_⟩
  rintro m n e p w w' q rfl hend he hbrace hw hw' hwhite hline hline'
  have hplace := accessors_of_brace hbrace hend hline
  have hblank : ∀ x ∈ w ++ w', Token.isSpaceChar x = true := by
    rintro x hx
    refine (hwhite x hx).resolve_right ?_
    rintro rfl
    rcases List.mem_append.mp hx with hx | hx
    · refine hline ?_
      rw [Text.slice, List.append_assoc, List.drop_append_of_le_length he, ← List.append_assoc,
        List.take_append_of_le_length (by simp only [List.length_append, List.length_drop]; omega)]
      rw [List.take_of_length_le (by simp only [List.length_append, List.length_drop]; omega)]
      exact List.mem_append_right _ hx
    · exact hline' hx
  obtain ⟨t', ht', hkind', hall, heligible, hrest⟩ := group_respaced hw hw' hblank ht hkind hplace
  exact ⟨hplace, t', ht', hkind', heligible, hall, hrest⟩

theorem accessors_respaced_computed :
    ∃ t t', runOn group "struct A \x7b var x: Int \x7b 1 \x7d; var y = 2 \x7d".toList = .ok t ∧
      runOn group "struct A \x7b var x: Int\t  \x7b 1 \x7d; var y = 2 \x7d".toList = .ok t' ∧
      t'.setters = t.setters ∧
      t'.eligibleProperties.toOption.map (List.map Property.name) = some [['y']] := by
  have hread : ((runOn group "struct A \x7b var x: Int \x7b 1 \x7d; var y = 2 \x7d".toList).toOption.map fun t =>
      (t.composite.toOption, t.eligibleProperties.toOption.map (List.map Property.name))) =
      some (some .value, some [['y']]) := by
    decide +kernel
  cases ht : runOn group "struct A \x7b var x: Int \x7b 1 \x7d; var y = 2 \x7d".toList with
  | error e =>
    rw [ht] at hread
    cases hread
  | ok t =>
    rw [ht] at hread
    obtain ⟨hkind, hnames⟩ := Prod.mk.inj (Option.some.inj hread)
    have hkind : t.composite = .ok .value := by
      cases h : t.composite with
      | error e => rw [h] at hkind; cases hkind
      | ok kind => rw [h] at hkind; cases hkind; rfl
    obtain ⟨-, t', ht', -, heligible, -, hsetters, -⟩ := (accessors_respaced ht hkind).2 0 0 21
      "struct A \x7b var x: Int".toList [' '] ['\t', ' ', ' '] "\x7b 1 \x7d; var y = 2 \x7d".toList (by decide +kernel)
        (by decide +kernel) (by decide) (by decide +kernel) (by decide) (by decide) (by simp [Token.isSpaceChar])
          (by decide +kernel) (by decide)
    refine ⟨t, t', rfl, ht', hsetters, ?_⟩
    cases hps : t.eligibleProperties with
    | error e =>
      rw [hps] at hnames
      cases hnames
    | ok ps =>
      rw [hps] at hnames heligible
      cases hps' : t'.eligibleProperties with
      | error e =>
        rw [hps'] at heligible
        cases heligible
      | ok ps' =>
        rw [hps'] at heligible
        have hnamed := congrArg (List.map fun told => told.1.name) (Except.ok.inj heligible)
        rw [List.map_map, List.map_map] at hnamed
        exact (congrArg some hnamed).trans hnames

/-- Accessors in a line of their own are not taken for the accessors of the binding, and neither are those behind an
operator that is none of an expression. -/
theorem accessors_missed :
    (["struct A \x7b var x: Int \x7b 1 \x7d \x7d", "struct A \x7b var x: Int\n\x7b 1 \x7d \x7d",
      "struct A \x7b var x = a++ \x7b didSet \x7b \x7d \x7d \x7d"].map fun s =>
        (runOn group s.toList).toOption.bind fun t => t.eligibleProperties.toOption.map (List.map Property.name)) =
    [some [], some [['x']], some [['x']]] := by
  decide +kernel

end Parser

end SwiftMacros
