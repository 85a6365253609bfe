import Mathlib
import SwiftMacros.Proofs.Grammar.Declaration
import SwiftMacros.Proofs.Grammar.Statements
import SwiftMacros.Proofs.Token.Moved
import SwiftMacros.WeakSelf

/-! Making a closure capture `self` weakly loses no code and reorders none. The lexemes of the new
closure are those of the old one, with the capture and the guard added and the semicolons between
statements left out; carriage returns are none but those of the source. -/

namespace SwiftMacros

open Token (Word Reads mark dropSemicolons)

/-- The parts of the signature are tokenized as these lexemes. -/
structure Signature.Tokenized (s : Signature) (w : Signature.Words) : Prop where
  attributes : s.attributes.Forall₂ (fun t ls => Token.words t = .ok ls) w.attributes
  items : ((s.capture.map CaptureClause.items).getD []).Forall₂
    (fun i ls => Token.words i.toText = .ok ls) w.items
  parameters : Token.words ((s.parameters.map ParameterClause.toText).getD []) = .ok w.parameters
  effects : Token.words s.effects = .ok w.effects
  result : Token.words ((s.result.map ReturnClause.toText).getD []) = .ok w.result

/-- The lexemes of a signature that captures `self` weakly behind its other captures. -/
def Signature.Words.weakened (w : Signature.Words) : Signature.Words :=
  { w with captures := some (w.items ++ [[(.identifier, "weak".toList), (.identifier, "self".toList)]],
      false) }

/-- The lexemes of the guard. -/
def WeakSelf.guardWords : List Word :=
  [(.identifier, "guard".toList), (.identifier, "let".toList), (.identifier, "self".toList),
    (.identifier, "else".toList), mark '\x7b', (.identifier, "return".toList), mark '\x7d']

namespace Signature

variable {s : Signature} {w : Signature.Words}

theorem HasWords.tokenized (h : s.HasWords w) : s.Tokenized w where
  attributes := h.attributes.imp fun _ _ => Token.words_of_reads
  items := h.items.imp fun _ _ => Token.words_of_reads
  parameters := Token.words_of_reads h.parameters
  effects := Token.words_of_reads h.effects
  result := Token.words_of_reads h.result

open Words (commas inBrackets)

theorem reads_commas {ts : List Text} {lss : List (List Word)}
    (h : ts.Forall₂ (fun t ls => Reads t ls []) lss) :
    Reads (Text.join ", ".toList ts) (commas lss) [] := by
  induction h with
  | nil => exact .done []
  | @cons t ls ts lss ht hts ih =>
    cases hts with
    | nil => simpa [Text.join, commas] using ht
    | @cons u ms us mss hu hus =>
      rw [Text.join, commas, List.intercalate_cons_cons, List.append_assoc]
      have hcomma := Token.reads_symbol (c := ',') (by decide) (' ' :: Text.join ", ".toList (u :: us))
      have hrest := (Reads.of_gaps (w := [' ']) (by simp [Token.isGap, Token.isSpaceChar]) _).trans ih
      have := ht.then (hcomma.trans hrest) (Token.stops_cons (by decide)) (by simp)
      simpa [Token.mark, commas] using this

theorem itemTexts_eq (items : List Capture) :
    CaptureClause.itemTexts items = items.map Capture.toText := by
  induction items with
  | nil => rfl
  | cons c cs ih => rw [CaptureClause.itemTexts, ih, List.map_cons]

/-- A capture clause that is laid out from its items. -/
theorem reads_captureClause {items : List Capture} {lss : List (List Word)}
    (h : items.Forall₂ (fun i ls => Reads i.toText ls []) lss) :
    Reads (CaptureClause.toText ⟨items, []⟩) (inBrackets lss false) [] := by
  rw [CaptureClause.toText, itemTexts_eq]
  have hitems := reads_commas (List.forall₂_map_left_iff.mpr h)
  have hclose := Token.reads_symbol (c := ']') (by decide) []
  have := (Token.reads_symbol (c := '[') (by decide) _).trans
    (hitems.then hclose (Token.stops_cons (by decide)) (by simp))
  simpa [inBrackets, Token.mark] using this

theorem toText_eq (capture : Option CaptureClause) (parameters : Option ParameterClause)
    (effects : Text) (result : Option ReturnClause) (attributes : List Text) :
    Signature.toText ⟨capture, parameters, effects, result, attributes, []⟩ =
      Text.join [' '] (attributes ++ (capture.map CaptureClause.toText).toList ++
        (parameters.map ParameterClause.toText).toList ++
        (if effects.isEmpty then [] else [effects]) ++ (result.map ReturnClause.toText).toList ++
        ["in".toList]) := by
  cases capture <;> rfl

/-- A signature that is laid out from its parts, of which the capture clause is so too. -/
theorem HasWords.reads {attributes : List Text} {capture : Option CaptureClause}
    {parameters : Option ParameterClause} {effects : Text} {result : Option ReturnClause}
    (h : Signature.HasWords ⟨capture, parameters, effects, result, attributes, []⟩ w)
    (htext : ∀ c ∈ capture, c.text = [])
    (hcaptures : w.captures.isSome = capture.isSome) (hcomma : ∀ c ∈ w.captures, c.2 = false) :
    Reads (Signature.toText ⟨capture, parameters, effects, result, attributes, []⟩) w.all [] := by
  obtain ⟨hattributes, hitems, hparameters, heffects, hresult⟩ := h
  obtain ⟨as, captures, ps, es, rs⟩ := w
  have hoption : ∀ {o : Option Text} {ls : List Word}, Reads (o.getD []) ls [] →
      ∃ lss, o.toList.Forall₂ (fun t ls => Reads t ls []) lss ∧ lss.flatten = ls := by
    intro o ls ho
    cases o with
    | none => exact ⟨[], .nil, ho.eq_nil.symm⟩
    | some t => exact ⟨[ls], .cons ho .nil, List.flatten_singleton⟩
  obtain ⟨pss, hps, rfl⟩ := hoption hparameters
  obtain ⟨rss, hrs, rfl⟩ := hoption hresult
  have hes : ∃ ess, (if effects.isEmpty then [] else [effects]).Forall₂ (fun t ls => Reads t ls []) ess ∧
      ess.flatten = es := by
    cases effects with
    | nil => exact ⟨[], .nil, heffects.eq_nil.symm⟩
    | cons c t => exact ⟨[es], .cons heffects .nil, List.flatten_singleton⟩
  obtain ⟨ess, hes, rfl⟩ := hes
  have hcs : ∃ css, (capture.map CaptureClause.toText).toList.Forall₂ (fun t ls => Reads t ls []) css ∧
      css.flatten = (captures.map fun q => inBrackets q.1 q.2).getD [] := by
    cases capture with
    | none =>
      obtain rfl : captures = none := by simpa using hcaptures
      exact ⟨[], .nil, rfl⟩
    | some c =>
      obtain ⟨⟨is, comma⟩, rfl⟩ := Option.isSome_iff_exists.mp hcaptures
      obtain rfl : comma = false := hcomma _ rfl
      obtain ⟨items, text⟩ := c
      obtain rfl : text = [] := htext _ rfl
      exact ⟨[inBrackets is false], .cons (reads_captureClause hitems) .nil, List.flatten_singleton⟩
  obtain ⟨css, hcs, hcss⟩ := hcs
  have hin : ["in".toList].Forall₂ (fun t ls => Reads t ls []) [[(.identifier, "in".toList)]] :=
    .cons (Token.reads_of_words (by decide) (by decide)) .nil
  have := Grammar.reads_join (List.rel_append (List.rel_append (List.rel_append (List.rel_append
    (List.rel_append hattributes hcs) hps) hes) hrs) hin)
  have hall : (as ++ css ++ pss ++ ess ++ rss ++ [[(Token.Kind.identifier, "in".toList)]]).flatten =
      Words.all ⟨as, captures, pss.flatten, ess.flatten, rss.flatten⟩ := by
    simp [Words.all, hcss]
  rw [hall] at this
  rw [toText_eq]
  exact this

end Signature

section Layout

variable {unit : Text} {ss : List Statement} {lss : List (List Word)}

/-- A lexeme of a block that has been laid out. -/
def Token.Word.Laid (unit : Text) (w w' : Word) : Prop := w.1 = w'.1 ∧ ∃ m, Token.Moved m unit w.2 w'.2

theorem Token.Word.Laid.relined (hunit : ∀ c ∈ unit, Text.isIndent c = true) {w w' : Word}
    (h : Token.Word.Laid unit w w') : w.Relined w' :=
  ⟨h.1, h.2.choose_spec.relined hunit⟩

/-- A block that is laid out is read as before, with the lexemes moved that span lines. -/
theorem Statement.Reads.layout (hunit : ∀ c ∈ unit, Text.isIndent c = true) {s : Statement}
    {ls : List Word} (h : s.Reads ls) (r : Text) : ∃ ls', ls.Forall₂ (Token.Word.Laid unit) ls' ∧
      Token.Reads (s.layout unit ++ '\n' :: r) ls' r := by
  obtain ⟨ls', hls', hread⟩ := (h r).moved_lines (Token.Moved.mover hunit) (s.layout_moved unit)
  exact ⟨ls', hls'.imp fun _ _ h => ⟨h.1, _, h.2⟩, hread⟩

/-- Blocks of statements up to the closing brace. -/
theorem reads_blocks (hunit : ∀ c ∈ unit, Text.isIndent c = true) (h : ss.Forall₂ Statement.Reads lss)
    (r : Text) : ∃ ls', lss.flatten.Forall₂ (Token.Word.Laid unit) ls' ∧
      Token.Reads (Text.joinLines (ss.map (Statement.layout unit) ++ ["\x7d".toList]) ++ r)
        (ls' ++ [mark '\x7d']) r := by
  induction h with
  | nil => exact ⟨[], .nil, Token.reads_symbol (c := '\x7d') (by decide) r⟩
  | @cons s ls ss lss hs _ ih =>
    obtain ⟨ms, hms, hrest⟩ := ih
    obtain ⟨l, ts, hl⟩ : ∃ l ts, ss.map (Statement.layout unit) ++ ["\x7d".toList] = l :: ts :=
      List.exists_cons_of_ne_nil (by simp)
    rw [hl] at hrest
    obtain ⟨ls', hls', hfirst⟩ := hs.layout hunit (Text.joinLines (l :: ts) ++ r)
    refine ⟨ls' ++ ms, List.rel_append hls' hms, ?_⟩
    rw [List.map_cons, List.cons_append, hl, Text.joinLines_cons, List.append_assoc, List.append_assoc]
    exact hfirst.trans hrest

theorem WeakSelf.guardStatement_reads (hunit : ∀ c ∈ unit, Text.isIndent c = true) :
    (WeakSelf.guardStatement unit).Reads WeakSelf.guardWords := by
  intro r
  have hhead : Reads "guard let self else \x7b".toList [(.identifier, "guard".toList),
      (.identifier, "let".toList), (.identifier, "self".toList), (.identifier, "else".toList),
      mark '\x7b'] [] :=
    Token.reads_of_words (by decide) (by decide)
  have hreturn : Reads "return".toList [(.identifier, "return".toList)] [] :=
    Token.reads_of_words (by decide) (by decide)
  have hclose : Reads "\x7d".toList [mark '\x7d'] [] :=
    Token.reads_of_words (by decide) (by decide)
  have hunit := Reads.of_gaps (fun c hc => Token.isGap_of_isIndent (hunit c hc))
    ("return".toList ++ '\n' :: ("\x7d".toList ++ '\n' :: r))
  have := (hhead.before_gap (c := '\n') rfl _).trans (hunit.trans
    ((hreturn.before_gap (c := '\n') rfl _).trans (hclose.before_gap (c := '\n') rfl r)))
  simpa [WeakSelf.guardStatement, Text.joinLines, Text.join, WeakSelf.guardWords] using this

end Layout

/-- The lexemes that a body keeps are among its own. -/
theorem Token.mem_of_mem_dropSemicolons {ws : List Word} {depth : Int} {w : Word}
    (h : w ∈ dropSemicolons depth ws) : w ∈ ws := by
  induction ws generalizing depth with
  | nil => exact h
  | cons v ws ih =>
    rw [dropSemicolons] at h
    split at h
    · exact List.mem_cons_of_mem v (ih h)
    · rcases List.mem_cons.mp h with rfl | h
      · exact List.mem_cons_self
      · exact List.mem_cons_of_mem v (ih h)

/-- The statements of a body and its closing brace. -/
theorem Closure.ReadsBody.reads {c c' : Cursor} {k : Closure} (h : k.ReadsBody c c') (hs : c.Sound)
    (hcut : Cut c.source c.edge) (hbehind : c.behind ≠ []) :
    ∃ body lss, Reads (c.source.drop c.edge) (body ++ [mark '\x7d']) (c.source.drop c'.edge) ∧
      k.statements.Forall₂ Statement.Reads lss ∧ lss.flatten = dropSemicolons 0 body := by
  obtain ⟨n, hss, hclose, rfl⟩ := h
  obtain ⟨t, ts, ht⟩ := List.exists_cons_of_ne_nil hbehind
  obtain ⟨u, us, hu⟩ : ∃ u us, c.ahead = u :: us := by
    cases ha : c.ahead with
    | nil => simp [ha, Grammar.statementsFrom] at hss
    | cons u us => exact ⟨u, us, rfl⟩
  have hread := hs.reads_peek ht hu
  have hplaced := hs.placed_ahead (t := u) (by simp [hu])
  have hcut' := hcut.of_reads (hplaced.lt.le.trans hplaced.le) hread
  have hstart := hs.bodyStart hcut ht hu
  have hchain : c.ahead.IsChain (Token.Joint c.source) := by
    have := hs.arranged.joint
    rw [Cursor.inner] at this
    exact (List.isChain_append.mp this).2.1
  obtain ⟨z, body, lss, hz, hbrace, hbody, hlss, hflat⟩ := statementsFrom_reads (p := u.start)
    (fun v hv => hs.placed_ahead hv) hchain hss hstart.cut hstart.le.2 hstart.reads (by
      rw [hu]
      rintro _ ⟨⟩
      exact ⟨hcut', .inl rfl⟩)
  refine ⟨body, lss, ?_, hlss, by simpa using hflat⟩
  have hpeek : (c.advance n).peek = z := by
    rw [Cursor.peek_advance, Cursor.peek]
    simp [hz]
  have hk := Token.kind_of_isSymbol hbrace
  have hs' := (hs.advance n).sound
  have hz' := hs'.placed_peek (by simp [hpeek, hk])
  have hclosing := hz'.reads (by simp [hpeek, hk])
  rw [hs'.edge_advance (by simp [hpeek, hk])]
  rw [hpeek, Token.word_of_isSymbol hbrace] at hclosing
  rw [hpeek]
  simpa [mark, Cursor.advance] using (hread.trans hbody).trans hclosing

/-- A closure that has been read: its lexemes are those of its signature and those of its body. -/
theorem ReadsClosure.reads {c c' : Cursor} {k : Closure} (h : ReadsClosure c k c') (hs : c.Sound)
    (hsource : c'.source = c.source) : ∃ (w : Signature.Words) (body : List Word) (lss : List (List Word)),
      (∀ s ∈ k.signature, s.HasWords w) ∧ (k.signature = none → w = {}) ∧
      Cut c'.source c'.edge ∧
      Reads k.text (mark '\x7b' :: (if k.signature.isSome then w.all else []) ++ body ++ [mark '\x7d']) [] ∧
      k.statements.Forall₂ Statement.Reads lss ∧ lss.flatten = dropSemicolons 0 body := by
  obtain ⟨hopening, hlt, htext, -, -, c₁, hl₁, hhead, hbody⟩ := h
  have hk := hs.kind_of_reads (m := '\x7b') rfl hopening
  have heof : c.peek.kind ≠ .eof := by simp [hk]
  have hsource₁ := ((hs.advance 1).trans hl₁).source
  have hplaced := hs.placed_peek heof
  have hopens := hplaced.reads (by simp [hk])
  have hword : c.peek.word = mark '\x7b' := by
    simp only [Token.reads, Bool.and_eq_true, beq_iff_eq] at hopening
    exact Prod.ext hk hopening.1.1
  rw [hword, ← hs.edge_advance heof, ← hsource₁] at hopens
  have hbehind : c₁.behind ≠ [] := by
    obtain ⟨taken, ht⟩ := hl₁.behind
    rw [← ht, hs.behind_advance heof]
    simp
  -- the signature, or nothing, stands between the opening brace and the body
  obtain ⟨w, hw, hnone, hcut, hsignature⟩ : ∃ w : Signature.Words, (∀ s ∈ k.signature, s.HasWords w) ∧
      (k.signature = none → w = {}) ∧ Cut c₁.source c₁.edge ∧
      Reads (c₁.source.drop (c.advance 1).edge) (if k.signature.isSome then w.all else [])
        (c₁.source.drop c₁.edge) := by
    rw [Closure.ReadsHead] at hhead
    split at hhead
    next hsig =>
      have hedge : c₁.edge = (c.advance 1).edge := by rw [Cursor.edge, Cursor.edge, hhead]
      refine ⟨{}, by simp [hsig], fun _ => rfl, ?_, ?_⟩
      · rw [hedge, hsource₁, hs.edge_advance heof]
        exact hplaced.cut_stop (by simp [hk])
      · rw [hedge, hsig]
        exact .done _
    next s hsig =>
      obtain ⟨w, hw, hcut, hread⟩ := hhead
      exact ⟨w, by simpa [hsig] using hw, by simp [hsig], hcut, by simpa [hsig] using hread⟩
  obtain ⟨body, lss, hread, hlss, hflat⟩ := hbody.reads hl₁.sound hcut hbehind
  have hedge : c'.edge ≤ c₁.source.length := by
    obtain ⟨n, -, -, rfl⟩ := hbody
    exact ((hl₁.sound.advance n).sound.advance 1).sound.edge_le_length
  refine ⟨w, body, lss, hw, hnone, ?_, ?_, hlss, hflat⟩
  · rw [hsource.trans hsource₁.symm]
    exact hcut.of_reads hedge hread
  have hall := (hopens.trans hsignature).trans hread
  rw [htext, Cursor.upTo, hsource.trans hsource₁.symm]
  simpa using reads_slice hlt.le hall

section Returns

open Grammar (statementsFrom statementBetween)

variable {s unit : Text}

theorem Text.not_mem_indentAt (h : '\r' ∉ s) (n : Nat) : '\r' ∉ Text.indentAt s n := by
  unfold Text.indentAt
  dsimp only
  split
  · exact Text.not_mem_slice h _ _
  · exact fun hmem => by cases List.eq_of_mem_replicate hmem

theorem statementBetween_flat (h : '\r' ∉ s) (a b : Nat) :
    ∀ x ∈ statementBetween s a b, '\r' ∉ x.indent ++ x.text := by
  have htext := Text.not_mem_trimEnd (Text.not_mem_slice h a b)
  unfold statementBetween
  split
  · simp
  · simpa using ⟨Text.not_mem_indentAt h a, htext⟩

/-- The statements of a body are parts of the source. -/
theorem statementsFrom_flat (h : '\r' ∉ s) {eof : Token} {b : Grammar.Body} {ts : List Token}
    {ss : List Statement} {n : Nat} (hss : statementsFrom s eof b ts = some (ss, n)) :
    ∀ x ∈ ss, '\r' ∉ x.indent ++ x.text := by
  induction ts generalizing b ss n with
  | nil => cases hss
  | cons t ts ih =>
    have hdone := statementBetween_flat h b.start t.start
    have hmore : ∀ (b' : Grammar.Body) (front : List Statement),
        (∀ x ∈ front, '\r' ∉ x.indent ++ x.text) →
        (statementsFrom s eof b' ts).map (fun q => (front ++ q.1, q.2 + 1)) = some (ss, n) →
        ∀ x ∈ ss, '\r' ∉ x.indent ++ x.text := by
      intro b' front hfront hmap
      obtain ⟨⟨rest, m⟩, hrest, heq⟩ := Option.map_eq_some_iff.mp hmap
      obtain ⟨rfl, -⟩ := Prod.mk.inj heq
      exact fun x hx => (List.mem_append.mp hx).elim (hfront x) (ih hrest x)
    unfold statementsFrom at hss
    dsimp only at hss
    split at hss
    · obtain ⟨rfl, -⟩ := Prod.mk.inj (Option.some.inj hss)
      exact hdone
    · split at hss
      · exact hmore _ _ hdone hss
      · split at hss
        · exact hmore _ _ hdone hss
        · exact hmore _ [] (by simp) hss

/-- A signature that captures `self` as well has no carriage return of its own. -/
theorem WeakSelf.addCapture_flat {o : Option Signature} (h : ∀ s ∈ o, s.Flat) :
    '\r' ∉ (addCapture o).toText := by
  cases o with
  | none => decide
  | some x =>
    obtain ⟨hattributes, hitems, hparameters, heffects, hresult⟩ := h x rfl
    obtain ⟨clause, parameters, effects, result, attributes, text⟩ := x
    have hcapture : ∀ items : List Capture, (∀ i ∈ items, '\r' ∉ i.toText) →
        '\r' ∉ CaptureClause.toText ⟨items ++ [capture], []⟩ := by
      intro items hitems
      have hjoin : '\r' ∉ Text.join ", ".toList (CaptureClause.itemTexts (items ++ [capture])) := by
        rw [Signature.itemTexts_eq]
        refine Text.not_mem_join (by decide) fun t ht => ?_
        obtain ⟨i, hi, rfl⟩ := List.mem_map.mp ht
        rcases List.mem_append.mp hi with hi | hi
        · exact hitems i hi
        · rw [List.mem_singleton.mp hi]
          decide
      rw [CaptureClause.toText]
      simpa using hjoin
    unfold addCapture
    dsimp only
    rw [Signature.toText_eq]
    refine Text.not_mem_join (by decide) fun t ht => ?_
    simp only [List.mem_append, Option.map_some, Option.toList_some, List.mem_singleton] at ht
    rcases ht with ((((ht | rfl) | ht) | ht) | ht) | rfl
    · exact hattributes t ht
    · cases clause with
      | none => exact hcapture [] (by simp)
      | some k => exact hcapture k.items hitems
    · obtain ⟨q, hq, rfl⟩ := by simpa using ht
      exact hparameters q hq
    · split at ht
      · cases ht
      · rw [List.mem_singleton.mp ht]
        exact heffects
    · obtain ⟨q, hq, rfl⟩ := by simpa using ht
      exact hresult q hq
    · decide

/-- A closure that has been read, with the capture and the guard, has no carriage return that is not
in the source. -/
theorem WeakSelf.weakenClosure_flat {c c' : Cursor} {k : Closure} (h : ReadsClosure c k c')
    (hs : c.Sound) (hunit : ∀ d ∈ unit, Text.isIndent d = true) (hc : '\r' ∉ c.source) :
    '\r' ∉ (weakenClosure unit k).toText := by
  obtain ⟨c₁, hl₁, -, n, hss, -, -⟩ := h.body
  have hstatements := statementsFrom_flat (((hs.advance 1).trans hl₁).source ▸ hc) hss
  have hhead := addCapture_flat (h.flat hc)
  have hguard : '\r' ∉ (guardStatement unit).indent ++ (guardStatement unit).text := by
    have : '\r' ∉ unit := fun hmem => by cases hunit _ hmem
    simpa [guardStatement, Text.joinLines, Text.join] using this
  show '\r' ∉ Text.joinLines (("\x7b ".toList ++ (addCapture k.signature).toText) ::
    (guardStatement unit :: k.statements).map (Statement.layout unit) ++ ["\x7d".toList])
  refine Text.not_mem_join (by decide) fun t ht => ?_
  simp only [List.cons_append, List.mem_cons, List.mem_append, List.mem_map, List.not_mem_nil,
    or_false] at ht
  rcases ht with rfl | ⟨x, hx, rfl⟩ | rfl
  · simpa using hhead
  · refine (x.layout_reindented hunit).not_mem rfl ?_
    rcases hx with rfl | hx
    · exact hguard
    · exact hstatements x hx
  · decide

end Returns

namespace WeakSelf

variable {unit : Text}

/-- The signature that also captures `self`. -/
theorem addCapture_reads {o : Option Signature} {w : Signature.Words}
    (hw : ∀ s ∈ o, s.HasWords w) (hnone : o = none → w = {}) :
    Reads (addCapture o).toText w.weakened.all [] := by
  have hself : Reads capture.toText [(.identifier, "weak".toList), (.identifier, "self".toList)] [] :=
    Token.reads_of_words (by decide) (by decide)
  cases o with
  | none =>
    obtain rfl := hnone rfl
    exact Signature.HasWords.reads (w := Signature.Words.weakened {})
      ⟨.nil, .cons hself .nil, .done [], .done [], .done []⟩ (by simp) rfl (by simp [Signature.Words.weakened])
  | some s =>
    obtain ⟨hattributes, hitems, hparameters, heffects, hresult⟩ := hw s rfl
    obtain ⟨capture', parameters, effects, result, attributes, text⟩ := s
    refine Signature.HasWords.reads (w := w.weakened)
      ⟨hattributes, ?_, hparameters, heffects, hresult⟩ (by simp) rfl (by simp [Signature.Words.weakened])
    have hall := List.rel_append hitems (.cons hself .nil : [capture].Forall₂ (fun i ls => Reads i.toText ls [])
      [[(.identifier, "weak".toList), (.identifier, "self".toList)]])
    cases capture' with
    | none => exact hall
    | some k => exact hall

/-- The closure with its capture and its guard is read as the lexemes of the parts, whatever stands
behind it. Lexemes of the body that span lines are moved. -/
theorem weakenClosure_relined {k : Closure} {w : Signature.Words} {lss : List (List Word)}
    (hunit : ∀ c ∈ unit, Text.isIndent c = true) (hw : ∀ s ∈ k.signature, s.HasWords w)
    (hnone : k.signature = none → w = {}) (hss : k.statements.Forall₂ Statement.Reads lss) (r : Text) :
    ∃ ls', lss.flatten.Forall₂ Token.Word.Relined ls' ∧ Reads ((weakenClosure unit k).toText ++ r)
      (mark '\x7b' :: w.weakened.all ++ guardWords ++ ls' ++ [mark '\x7d']) r := by
  obtain ⟨l, ms, hl⟩ : ∃ l ms, k.statements.map (Statement.layout unit) ++ ["\x7d".toList] = l :: ms :=
    List.exists_cons_of_ne_nil (by simp)
  obtain ⟨ls', hls', hblocks⟩ := reads_blocks hunit hss r
  rw [hl] at hblocks
  have htext : (weakenClosure unit k).toText = '\x7b' :: ' ' :: (addCapture k.signature).toText ++
      '\n' :: ((guardStatement unit).layout unit ++ '\n' :: Text.joinLines (l :: ms)) := by
    rw [← Text.joinLines_cons, ← Text.joinLines_cons, ← hl]
    rfl
  -- the guard stands on lines of its own
  obtain ⟨gs, hgs, hguard⟩ := (guardStatement_reads hunit).layout hunit (Text.joinLines (l :: ms) ++ r)
  rw [Token.Word.eq_of_relined (hgs.imp fun _ _ => Token.Word.Laid.relined hunit) (by decide)] at hguard
  have hopen := Token.reads_symbol (c := '\x7b') (by decide) (' ' :: ((addCapture k.signature).toText ++
    '\n' :: ((guardStatement unit).layout unit ++ '\n' :: (Text.joinLines (l :: ms) ++ r))))
  have hgap := Reads.of_gaps (w := [' ']) (by simp [Token.isGap, Token.isSpaceChar])
    ((addCapture k.signature).toText ++
      '\n' :: ((guardStatement unit).layout unit ++ '\n' :: (Text.joinLines (l :: ms) ++ r)))
  have hsignature := (addCapture_reads hw hnone).before_gap (c := '\n') rfl
    ((guardStatement unit).layout unit ++ '\n' :: (Text.joinLines (l :: ms) ++ r))
  refine ⟨ls', hls'.imp fun _ _ => Token.Word.Laid.relined hunit, ?_⟩
  rw [htext]
  simpa [mark] using hopen.trans (hgap.trans (hsignature.trans (hguard.trans hblocks)))

/-- If its lexemes stand on one line each, they stay as they are. -/
theorem weakenClosure_reads {k : Closure} {w : Signature.Words} {lss : List (List Word)}
    (hunit : ∀ c ∈ unit, Text.isIndent c = true) (hw : ∀ s ∈ k.signature, s.HasWords w)
    (hnone : k.signature = none → w = {}) (hss : k.statements.Forall₂ Statement.Reads lss)
    (hline : ∀ v ∈ lss.flatten, '\n' ∉ v.2) :
    Reads (weakenClosure unit k).toText
      (mark '\x7b' :: w.weakened.all ++ guardWords ++ lss.flatten ++ [mark '\x7d']) [] := by
  obtain ⟨ls', hls', hread⟩ := weakenClosure_relined hunit hw hnone hss []
  rwa [Token.Word.eq_of_relined hls' hline, List.append_nil] at hread

/-- The weak capture loses and reorders no code. A closure whose lexemes stand on one line each comes
out with the lexemes of its signature, the capture of `self` behind its other captures, the guard,
and the lexemes of its body without the semicolons that stand between statements. -/
theorem weaken_words {t indent : Text} {e : MacroExpansion} {k : Closure}
    (he : Parser.runOn Parser.expansion t = .ok e) (hk : e.trailing = some k)
    (hline : ∀ ls, Token.words k.text = .ok ls → ∀ w ∈ ls, '\n' ∉ w.2)
    (hindent : ∀ c ∈ indent, Text.isIndent c = true) :
    ∃ (k' : Closure) (w : Signature.Words) (body : List Word), weaken indent e = .ok k' ∧
      (∀ s ∈ k.signature, s.Tokenized w) ∧ (k.signature = none → w = {}) ∧
      Token.words k.text = .ok
        (mark '\x7b' :: (if k.signature.isSome then w.all else []) ++ body ++ [mark '\x7d']) ∧
      Token.words k'.toText = .ok
        (mark '\x7b' :: w.weakened.all ++ guardWords ++ dropSemicolons 0 body ++ [mark '\x7d']) := by
  cases hc : Cursor.ofText t with
  | error d => simp [Parser.runOn, hc] at he
  | ok c =>
    obtain ⟨hs, -, -⟩ := Cursor.sound_ofText hc
    cases hp : Parser.expansion c with
    | error d c' => simp [Parser.runOn, hc, hp] at he
    | ok e' c' =>
      obtain rfl : e' = e := by simpa [Parser.runOn, hc, hp] using he
      obtain ⟨hl, hreads⟩ := (Parser.expansion_spec hs).ok hp
      obtain ⟨c₁, hl₁, hclosure⟩ := hreads.trailing k hk
      have hsource : c'.source = c₁.source :=
        hl.source.trans ((hs.advance 1).trans hl₁).source.symm
      obtain ⟨w, body, lss, hw, hnone, -, hread, hss, hflat⟩ := hclosure.reads hl₁.sound hsource
      have hwords := Token.words_of_reads hread
      have hbody : ∀ v ∈ lss.flatten, '\n' ∉ v.2 := by
        intro v hv
        rw [hflat] at hv
        refine hline _ hwords v ?_
        simp [Token.mem_of_mem_dropSemicolons hv]
      refine ⟨weakenClosure indent k, w, body, by simp [weaken, hk], fun s hmem => (hw s hmem).tokenized,
        hnone, hwords, ?_⟩
      rw [← hflat]
      exact Token.words_of_reads (weakenClosure_reads hindent hw hnone hss hbody)

/-- A closure with a capture, a parameter and two statements on a line. -/
theorem weaken_words_capture : ∃ e k, Parser.runOn Parser.expansion
      "#weak { [x] a in f(a); g() }".toList = .ok e ∧ e.trailing = some k ∧
    ∃ (k' : Closure) (w : Signature.Words) (body : List Word), weaken [' ', ' '] e = .ok k' ∧
      (∀ s ∈ k.signature, s.Tokenized w) ∧ (k.signature = none → w = {}) ∧
      Token.words k.text = .ok
        (mark '\x7b' :: (if k.signature.isSome then w.all else []) ++ body ++ [mark '\x7d']) ∧
      Token.words k'.toText = .ok
        (mark '\x7b' :: w.weakened.all ++ guardWords ++ dropSemicolons 0 body ++ [mark '\x7d']) := by
  have htext : ((Parser.runOn Parser.expansion "#weak { [x] a in f(a); g() }".toList).map fun e =>
      e.trailing.map Closure.text).toOption = some (some "{ [x] a in f(a); g() }".toList) := by
    decide +kernel
  cases he : Parser.runOn Parser.expansion "#weak { [x] a in f(a); g() }".toList with
  | error d =>
    rw [he] at htext
    cases htext
  | ok e =>
    rw [he] at htext
    have htrailing : e.trailing.map Closure.text = some "{ [x] a in f(a); g() }".toList :=
      Option.some.inj htext
    obtain ⟨k, hk, hclosure⟩ := Option.map_eq_some_iff.mp htrailing
    have hlines : (Token.words "{ [x] a in f(a); g() }".toList).toOption.all
        (fun ls => ls.all fun w => !w.2.contains '\n') = true := by
      decide
    refine ⟨e, k, rfl, hk, weaken_words he hk (fun ls hls w hw => ?_)
      (by simp [Text.isIndent])⟩
    rw [← hclosure, hls] at hlines
    simpa using List.all_eq_true.mp hlines w hw

end WeakSelf

end SwiftMacros
