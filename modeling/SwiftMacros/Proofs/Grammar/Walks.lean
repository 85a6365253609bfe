import Mathlib
import SwiftMacros.Proofs.Token.Segment
import SwiftMacros.Proofs.Grammar.Fenced
import SwiftMacros.Proofs.Parser.Progress

/-! What a rule takes outside of all brackets. A type takes no brace there, no semicolon and no macro. An
expression takes a macro together with the block behind it, where the macro always has one; for a control
expression takes all up to its blocks, and with them the macros in front. -/

namespace SwiftMacros

open Token (nested segment Level Fenced Refines)
open SwiftMacros.Parser

namespace Token

/-- The token is one that `q` tells, or calls a macro and has a segment behind it. -/
def Passes (q : Token → Bool) (t : Token) (us : List Token) : Prop :=
  q t = true ∨ t.kind = .poundName ∧ ∃ s, s <+: us ∧ segment [] false s = true

variable {q q' : Token → Bool} {t x e : Token} {ts us W R es ds : List Token}

theorem Passes.append (h : Passes q t us) (vs : List Token) : Passes q t (us ++ vs) :=
  h.imp_right fun h => ⟨h.1, h.2.imp fun _ hs => ⟨hs.1.trans (List.prefix_append _ _), hs.2⟩⟩

theorem Passes.mono (h : Passes q t us) (hq : q t = true → q' t = true) : Passes q' t us := h.imp_left hq

theorem idle_of_kind (h : t.kind ≠ .symbol ∧ t.kind ≠ .poundName) : t.idle = true := by
  simp [idle, isSymbolIn, h.1, h.2]

theorem idle_of_isIdentifierIn {ws : List String} (h : t.isIdentifierIn ws = true) : t.idle = true := by
  simp only [isIdentifierIn, Bool.and_eq_true, beq_iff_eq] at h
  exact idle_of_kind (by simp [h.1])

theorem idle_of_isSymbol {m : String} (h : t.isSymbol m = true) (hm : m ≠ "\x7b" ∧ m ≠ ";") : t.idle = true := by
  simp only [isSymbol, has, Bool.and_eq_true, beq_iff_eq] at h
  have hne : ∀ w : String, m ≠ w → t.text ≠ w.toList := fun w hw heq =>
    hw (String.toList_injective (h.2.symm.trans heq))
  simpa [idle, isSymbolIn, h.1] using And.intro (hne _ hm.1) (hne _ hm.2)

/-- Where no brace stands outside of all brackets, no macro has a segment behind it. -/
theorem Level.of_idle {es : List Text} (h : Level (Passes idle) es ts) (hts : nested es ts = true) :
    Level (fun t _ => t.idle = true) es ts := by
  induction ts generalizing es with
  | nil => trivial
  | cons t ts ih =>
    have hrest := ih h.2 (nested_pending hts)
    refine ⟨?_, hrest⟩
    rintro rfl
    refine (h.1 rfl).resolve_right fun ⟨hk, s, ⟨us, hs⟩, hsegment⟩ => ?_
    have hplain := not_bracket_of_kind (t := t) (by simp [hk])
    rw [pending_plain hplain.1 hplain.2, ← hs] at hrest
    have := segment_level (b := false) (hrest.front.mono fun _ _ => not_brace) (nested_of_segment hsegment) (by simp) []
    rw [List.append_nil, hsegment] at this
    cases this

/-- In front of a block without another one before it, all tokens pass: the block ends the segment of each macro. -/
theorem Level.before_block {es : List Text} (h : Level (fun t _ => t.isSymbol "\x7b" = false) es ts)
    (hts : nested es ts = true) (hs : segment [] false W = true) (hW : Level (Passes q) [] W)
    (hq : ∀ t : Token, t.kind ≠ .poundName → q t = true) : Level (Passes q) es (ts ++ W) := by
  induction ts generalizing es with
  | nil =>
    obtain rfl : es = [] := by simpa [nested] using hts
    exact hW
  | cons t ts ih =>
    have hpending := nested_pending hts
    refine ⟨?_, ih h.2 hpending⟩
    rintro rfl
    by_cases hk : t.kind = .poundName
    · have hplain := not_bracket_of_kind (t := t) (by simp [hk])
      have h₂ := h.2
      rw [pending_plain hplain.1 hplain.2] at h₂ hpending
      exact .inr ⟨hk, ts ++ W, List.prefix_rfl, (segment_level h₂ hpending (by simp) W).trans hs⟩
    · exact .inl (hq t hk)

/-- Up to the mark that is to come first, brackets are in pairs. -/
theorem Fenced.split (h : Fenced (ds ++ e :: es) ts) : ∃ W R, ts = W ++ e :: R ∧
    nested (ds.map text) W = true ∧ Fenced es R := by
  generalize hxs : ds ++ e :: es = xs at h
  induction h generalizing ds with
  | done => simp at hxs
  | @plain t f xs ts ho hc _ _ ih =>
    obtain ⟨W, R, rfl, hW, hR⟩ := ih hxs
    exact ⟨t :: W, R, rfl, by rwa [nested_plain ho hc], hR⟩
  | @opening t g f xs ts ho _ ht _ ih =>
    obtain ⟨W, R, rfl, hW, hR⟩ := ih (show g :: ds ++ e :: es = _ by rw [List.cons_append, hxs])
    exact ⟨t :: W, R, rfl, by rwa [nested_opener ho, ← ht], hR⟩
  | @closing f xs ts hc h ih =>
    cases ds with
    | nil =>
      obtain ⟨rfl, rfl⟩ := List.cons.inj hxs
      exact ⟨[], ts, rfl, rfl, h⟩
    | cons d ds =>
      obtain ⟨rfl, rfl⟩ := List.cons.inj hxs
      obtain ⟨W, R, rfl, hW, hR⟩ := ih rfl
      exact ⟨d :: W, R, rfl, by rw [List.map_cons, nested_closer hc, hW]; simp, hR⟩

/-- As many tokens as there are up to the mark are passed over. -/
theorem balancedLength_of_nested (h : nested (ds.map text) W = true) (hx : x.isCloser = true) (R : List Token) :
    balancedLength? (ds.length + 1) (W ++ x :: R) = some (W.length + 1) := by
  induction W generalizing ds with
  | nil =>
    obtain rfl : ds = [] := by simpa [nested] using h
    simp [balancedLength?, isOpener_of_isCloser hx, hx]
  | cons t W ih =>
    rw [List.cons_append, balancedLength?]
    rcases t.bracket_cases with ho | hc | ⟨ho, hc⟩
    · rw [nested_opener ho] at h
      have := @ih ({ t with text := t.closing } :: ds) h
      rw [List.length_cons, Nat.cast_succ] at this
      rw [if_pos ho, this]
      rfl
    · cases ds with
      | nil => simp [nested_closer_nil hc] at h
      | cons d ds =>
        rw [List.map_cons, nested_closer hc, Bool.and_eq_true] at h
        have hdeep : ((d :: ds).length + 1 : Int) ≠ 1 := by simp; omega
        have hlen : ((d :: ds).length + 1 : Int) - 1 = ds.length + 1 := by simp
        rw [if_neg (by simp [isOpener_of_isCloser hc]), if_pos hc, if_neg hdeep, hlen, ih h.2]
        rfl
    · rw [nested_plain ho hc] at h
      rw [if_neg (by simp [ho]), if_neg (by simp [hc]), ih h]
      rfl

end Token

namespace Cursor

variable {c₀ c c' d : Cursor} {q q' : Token → Bool} {e x : Token} {es : List Token} {n : Nat}

/-- A cursor on the tokens of `c₀`, in brackets that `es` close, with less room ahead than `n`. -/
structure Amid (c₀ : Cursor) (es : List Token) (n : Nat) (c : Cursor) : Prop where
  fenced : c.Fenced es
  rereads : c₀.Rereads c
  room : c.room < n

/-- From `c` to `c'` tokens are taken with their brackets in pairs. Those outside of all brackets pass. -/
structure Takes (q : Token → Bool) (c c' : Cursor) : Prop where
  leads : c.Leads c'
  taken : ∃ w, c'.behind = w.reverse ++ c.behind ∧ nested [] w = true ∧ Level (Token.Passes q) [] w

theorem Takes.mono (h : c.Takes q c') (hq : ∀ t, q t = true → q' t = true) : c.Takes q' c' := by
  obtain ⟨w, hw, hn, hl⟩ := h.taken
  exact ⟨h.leads, w, hw, hn, hl.mono fun t _ ht => ht.mono (hq t)⟩

theorem Takes.stand (hl : c.Leads c') (hb : c'.behind = c.behind) : c.Takes q c' :=
  ⟨hl, [], by simpa using hb, rfl, trivial⟩

theorem Takes.refl (hs : c.Sound) : c.Takes q c := .stand hs.refl rfl

theorem Takes.trans (h : c.Takes q c') (h' : c'.Takes q d) : c.Takes q d := by
  obtain ⟨w, hw, hn, hl⟩ := h.taken
  obtain ⟨w', hw', hn', hl'⟩ := h'.taken
  refine ⟨h.leads.trans h'.leads, w ++ w', by rw [hw', hw]; simp, ?_, ?_⟩
  · rwa [Token.nested_append_nil hn]
  · exact Level.append hn (hl.mono fun t _ ht => ht.append w') hl'

theorem Fenced.behind_advance (hc : c.Fenced (e :: es)) : (c.advance 1).behind = c.peek :: c.behind := by
  rw [Cursor.advance, hc.ahead_eq]
  rfl

/-- A token that is no bracket. -/
theorem Takes.token (hc : c.Fenced (e :: es)) (hp : c.peek.isOpener = false ∧ c.peek.isCloser = false)
    (hq : q c.peek = true) : c.Takes q (c.advance 1) := by
  refine ⟨hc.sound.advance 1, [c.peek], ?_, ?_, fun _ => .inl hq, trivial⟩
  · simp [hc.behind_advance]
  · rw [Token.nested_plain hp.1 hp.2]
    rfl

/-- What has been taken from an opening mark up to the one that closes it. -/
theorem Fenced.group_taken (hc : c.Fenced (e :: es)) (ho : c.peek.isOpener = true)
    (hd : (c.advance 1).Fenced (x :: e :: es)) (hl : c.Leads c') (hlast : c'.behind.head? = some x) :
    ∃ W, c'.behind = (c.peek :: W ++ [x]).reverse ++ c.behind ∧ nested [] W = true ∧ x.isCloser = true ∧
      x.text = c.peek.closing := by
  obtain ⟨f, hf, htext, hd'⟩ := hc.advance_opener ho
  obtain ⟨W, R, hahead, hW, -⟩ := Token.Fenced.split (show Token.Fenced ([] ++ x :: e :: es) _ from hd.ahead)
  -- both marks are the one that closes the group
  obtain rfl : f = x := by
    rcases hd'.ahead.total hd.ahead with h | h
    · exact (List.cons_prefix_cons.mp h).1
    · exact (List.cons_prefix_cons.mp h).1.symm
  have hall : c.ahead = (c.peek :: W) ++ f :: R := by rw [hc.ahead_eq, hahead, List.cons_append]
  obtain ⟨taken, ht⟩ := hl.behind
  cases taken with
  | nil =>
    -- the mark is not yet among the tokens that have been taken
    have hmem : f ∈ c.behind := List.mem_of_mem_head? (by rw [← List.nil_append c.behind, ht, hlast]; rfl)
    have hlt := (hc.sound.placed_behind hmem).lt
    have hle := hc.sound.stop_le_start hmem (u := f) (by simp [hall])
    omega
  | cons y taken =>
    obtain rfl : y = f := by simpa [← ht] using hlast
    have hrefines := hl.refines
    rw [inner, inner, ← ht, List.reverse_append, List.append_assoc, List.reverse_cons, List.append_assoc] at hrefines
    obtain ⟨ts₁, ts₂, hts, hts₁, -⟩ := (hrefines.of_append _).split_at (by simp [Token.kind_of_isCloser hf])
    have hnodup := hc.sound.nodup_ahead
    rw [hts] at hall hnodup
    obtain ⟨rfl, -⟩ := Token.split_unique hnodup hall
    generalize hus : taken.reverse = us at hts₁
    cases hts₁ with
    | @keep _ _ us h =>
      refine ⟨us, ?_, by rwa [Token.nested_refines h], hf, htext⟩
      rw [← ht, ← List.reverse_reverse taken, hus]
      simp
    | split hk => simp [Token.kind_of_isOpener ho] at hk

/-- A group of brackets. -/
theorem Takes.group (hc : c.Fenced (e :: es)) (ho : c.peek.isOpener = true) (hq : q c.peek = true)
    (hd : (c.advance 1).Fenced (x :: e :: es)) (hl : c.Leads c') (hlast : c'.behind.head? = some x) :
    c.Takes q c' := by
  obtain ⟨W, hW, hnested, hx, htext⟩ := hc.group_taken ho hd hl hlast
  refine ⟨hl, _, hW, ?_, Level.group ho hnested (.inl hq)⟩
  have hall : nested ([] ++ [c.peek.closing]) (W ++ [x]) = _ := Token.nested_append hnested [x]
  rw [List.nil_append] at hall
  rw [List.cons_append, Token.nested_opener ho, hall, Token.nested_closer hx, htext]
  simp [nested]

namespace Amid

theorem sound (h : Amid c₀ es n c) : c.Sound := h.fenced.sound

theorem mono {m : Nat} (h : Amid c₀ es n c) (hm : n ≤ m) : Amid c₀ es m c :=
  ⟨h.fenced, h.rereads, h.room.trans_le hm⟩

theorem takes (h : Amid c₀ es n c) (hc : c'.Fenced es) (ht : c.Takes q c') : Amid c₀ es n c' :=
  ⟨hc, h.rereads.trans ht.leads.rereads, (ht.leads.room_le h.sound).trans_lt h.room⟩

/-- Behind a token there is less room. -/
theorem takes_token (h : Amid c₀ es (n + 1) c) (hc : c'.Fenced es) (hl : c.Leads c') (hb : c'.behind ≠ c.behind) :
    Amid c₀ es n c' :=
  ⟨hc, h.rereads.trans hl.rereads, (hl.room_lt h.sound hb).trans_le (Nat.lt_succ_iff.mp h.room)⟩

end Amid

end Cursor

namespace Parser

variable {α β σ : Type}

/-- From `c`, the parser answers at a cursor in brackets that `es` close; what it takes there passes. -/
def Walks (q : Token → Bool) (es : List Token) (p : Parser α) (c : Cursor) : Prop :=
  ∀ a c', p c = .ok a c' → c'.Fenced es ∧ c.Takes q c'

/-- From `c`, the parser answers behind the token `x`. -/
def Ends (x : Token) (p : Parser α) (c : Cursor) : Prop := ∀ a c', p c = .ok a c' → c'.behind.head? = some x

namespace Ends

variable {c : Cursor} {p q : Parser α} {f : α → Parser β} {x : Token} {es : List Token}

theorem bind (h : Stays es p c) (hf : ∀ a (c' : Cursor), c'.Fenced es → Ends x (f a) c') : Ends x (p >>= f) c :=
  fun b c₂ hb => by
    obtain ⟨a, c₁, ha, hb⟩ := of_bind_ok hb
    exact hf a c₁ (h a c₁ ha) b c₂ hb

theorem get_bind {f : Cursor → Parser β} (h : Ends x (f c) c) : Ends x (get >>= f) c := h

theorem current_bind {f : Token → Parser β} (h : Ends x (f c.peek) c) : Ends x (current >>= f) c := h

theorem sliceFrom_bind {t : Token} {f : Text → Parser β} (h : Ends x (f (c.sliceFrom t)) c) :
    Ends x (Parser.sliceFrom t >>= f) c := h

theorem keep (h : c.behind.head? = some x) {t : Token} {g : Text → α} :
    Ends x (Parser.sliceFrom t >>= fun s => Pure.pure (g s)) c := fun _ _ hb => by
  rw [sliceFrom_bind_eq_ok, pure_eq_ok] at hb
  exact hb.2 ▸ h

theorem ite {b : Prop} [Decidable b] (hp : b → Ends x p c) (hq : ¬ b → Ends x q c) :
    Ends x (if b then p else q) c := by
  split
  · exact hp ‹_›
  · exact hq ‹_›

/-- The closing mark that is to come is the token behind. -/
theorem behind_advance (hc : c.Fenced (x :: es)) (he : c.peek.isCloser = true) :
    (c.advance 1).behind.head? = some x := by
  have hx := (hc.advance_closer he).1
  simp [hc.behind_advance, hx]

theorem expect_bind (hc : c.Fenced (x :: es)) {m : Char} (hm : m ∈ [')', ']', '\x7d']) {f : Token → Parser β}
    (h : (c.advance 1).behind.head? = some x → Ends x (f c.peek) (c.advance 1)) : Ends x (expect [m] >>= f) c := by
  intro b c' hb
  obtain ⟨hr, hb⟩ := expect_bind_eq_ok.mp hb
  exact h (behind_advance hc (hc.isCloser_of_reads hm hr)) b c' hb

theorem skip_bind (hc : c.Fenced (x :: es)) (he : c.peek.isCloser = true) {f : Unit → Parser β}
    (h : (c.advance 1).behind.head? = some x → Ends x (f ()) (c.advance 1)) : Ends x (Parser.skip 1 >>= f) c :=
  h (behind_advance hc he)

/-- A token that is no bracket is taken, and the closing mark that is to come. -/
theorem skip_two_bind (hc : c.Fenced (x :: es)) (hp : c.peek.isOpener = false ∧ c.peek.isCloser = false)
    (he : (c.peek 1).isCloser = true) {f : Unit → Parser β}
    (h : (c.advance 2).behind.head? = some x → Ends x (f ()) (c.advance 2)) : Ends x (Parser.skip 2 >>= f) c := by
  have hlast := behind_advance (hc.advance hp) (by rwa [Cursor.peek_advance])
  rw [← Cursor.advance_add] at hlast
  exact h hlast

/-- A group of brackets that is passed over ends with the mark that closes it. -/
theorem skipBalanced {e : Token} (hc : c.Fenced (e :: es)) (ho : c.peek.isOpener = true)
    (hd : (c.advance 1).Fenced (x :: e :: es)) : Ends x skipBalanced c := by
  intro u c' hu
  obtain ⟨f, hf, -, hd'⟩ := hc.advance_opener ho
  obtain ⟨W, R, hahead, hW, -⟩ := Token.Fenced.split (show Token.Fenced ([] ++ x :: e :: es) _ from hd.ahead)
  obtain rfl : f = x := by
    rcases hd'.ahead.total hd.ahead with h | h
    · exact (List.cons_prefix_cons.mp h).1
    · exact (List.cons_prefix_cons.mp h).1.symm
  have hlength : balancedLength? 0 c.ahead = some (W.length + 2) := by
    have hrest : balancedLength? (([] : List Token).length + 1) (W ++ f :: R) = _ :=
      Token.balancedLength_of_nested hW hf R
    rw [List.length_nil, Nat.cast_zero, zero_add] at hrest
    rw [hc.ahead_eq, balancedLength?, if_pos ho, hahead, zero_add, hrest]
    rfl
  rw [Parser.skipBalanced, get_bind_eq_ok, hlength] at hu
  obtain rfl := skip_eq_ok.mp hu
  have hall : c.ahead = (c.peek :: W ++ [f]) ++ R := by simp [hc.ahead_eq, hahead]
  have htake : c.ahead.take (W.length + 2) = c.peek :: W ++ [f] := by
    rw [hall, List.take_left' (by simp)]
  simp [Cursor.advance, htake]

/-- Items between two brackets end with the second one. -/
theorem bracketed {o m : Char} (hm : m ∈ [')', ']', '\x7d']) {separator : Wanted} {item : Parser α}
    (hc : (c.advance 1).Fenced (x :: es)) (h : ∀ c' : Cursor, c'.Fenced (x :: es) → Stays (x :: es) item c') :
    Ends x (bracketed (String.singleton o) (String.singleton m) separator item) c := by
  rw [Parser.bracketed, String.toList_singleton, String.toList_singleton]
  intro as c' has
  refine Ends.bind (Stays.collectWhile hc fun c₂ hc₂ _ => Stays.bind (h c₂ hc₂) fun a c₃ hc₃ => ?_)
    (fun as c₂ hc₂ => expect_bind hc₂ hm fun hlast => ?_) as c' (expect_bind_eq_ok.mp has).2
  · refine Stays.current_bind (Stays.ite (fun hcomma => ?_) fun _ => Stays.ite (fun _ => .fail_bind) fun _ => .pure hc₃)
    exact Stays.skip_bind hc₃ (Token.not_bracket_of_symbol hcomma (by decide)) fun hc₄ => .pure hc₄
  · rintro _ _ hb
    obtain ⟨-, rfl⟩ := pure_eq_ok.mp hb
    exact hlast

end Ends

namespace Walks

open Cursor (Amid)

variable {c₀ c : Cursor} {p p' : Parser α} {f : α → Parser β} {q q' : Token → Bool} {e x : Token} {es : List Token}
  {n : Nat}

theorem mono (h : Walks q es p c) (hq : ∀ t, q t = true → q' t = true) : Walks q' es p c := fun a c' ha =>
  (h a c' ha).imp_right fun h => h.mono hq

theorem pure (hc : Amid c₀ es n c) {a : α} : Walks q es (Pure.pure a) c := fun _ _ h => by
  obtain ⟨-, rfl⟩ := pure_eq_ok.mp h
  exact ⟨hc.fenced, .refl hc.sound⟩

theorem fail {w : Wanted} : Walks q es (fail w : Parser α) c := fun _ _ h => by cases h

theorem bind (hc : Amid c₀ es n c) (h : Walks q es p c) (hf : ∀ a (c' : Cursor), Amid c₀ es n c' → Walks q es (f a) c') :
    Walks q es (p >>= f) c := fun b c₂ hb => by
  obtain ⟨a, c₁, ha, hb⟩ := of_bind_ok hb
  obtain ⟨hc₁, ht⟩ := h a c₁ ha
  exact (hf a c₁ (hc.takes hc₁ ht) b c₂ hb).imp_right ht.trans

theorem get_bind {f : Cursor → Parser β} (h : Walks q es (f c) c) : Walks q es (get >>= f) c := h

theorem current_bind {f : Token → Parser β} (h : Walks q es (f c.peek) c) : Walks q es (current >>= f) c := h

theorem sliceFrom_bind {t : Token} {f : Text → Parser β} (h : Walks q es (f (c.sliceFrom t)) c) :
    Walks q es (Parser.sliceFrom t >>= f) c := h

theorem keep (hc : Amid c₀ es n c) {t : Token} {g : Text → α} :
    Walks q es (Parser.sliceFrom t >>= fun x => Pure.pure (g x)) c := get_bind (pure hc)

theorem sliceFrom (hc : Amid c₀ es n c) {t : Token} : Walks q es (Parser.sliceFrom t) c := get_bind (pure hc)

theorem ite {b : Prop} [Decidable b] (hp : b → Walks q es p c) (hq : ¬ b → Walks q es p' c) :
    Walks q es (if b then p else p') c := by
  split
  · exact hp ‹_›
  · exact hq ‹_›

section Tokens

/-- Behind a token that is no bracket. -/
theorem of_token (hc : Amid c₀ (e :: es) (n + 1) c) (hp : c.peek.isOpener = false ∧ c.peek.isCloser = false)
    (hq : q c.peek = true) (h : Amid c₀ (e :: es) n (c.advance 1) → Walks q (e :: es) p (c.advance 1)) {a : α}
    {c' : Cursor} (ha : p (c.advance 1) = .ok a c') : c'.Fenced (e :: es) ∧ c.Takes q c' := by
  have ht := Cursor.Takes.token hc.fenced hp hq
  have hb : (c.advance 1).behind ≠ c.behind := by simp [hc.fenced.behind_advance]
  exact (h (hc.takes_token (hc.fenced.advance hp) ht.leads hb) a c' ha).imp_right ht.trans

theorem consume_bind (hc : Amid c₀ (e :: es) (n + 1) c) (hp : c.peek.isOpener = false ∧ c.peek.isCloser = false)
    (hq : q c.peek = true) {f : Token → Parser β}
    (h : Amid c₀ (e :: es) n (c.advance 1) → Walks q (e :: es) (f c.peek) (c.advance 1)) :
    Walks q (e :: es) (consume >>= f) c := fun _ _ hb => of_token hc hp hq h hb

theorem skip_bind (hc : Amid c₀ (e :: es) (n + 1) c) (hp : c.peek.isOpener = false ∧ c.peek.isCloser = false)
    (hq : q c.peek = true) {f : Unit → Parser β}
    (h : Amid c₀ (e :: es) n (c.advance 1) → Walks q (e :: es) (f ()) (c.advance 1)) :
    Walks q (e :: es) (Parser.skip 1 >>= f) c := fun _ _ hb => of_token hc hp hq h hb

/-- Two tokens, none of them a bracket. -/
theorem skip_two_bind (hc : Amid c₀ (e :: es) (n + 1) c) (hp : c.peek.isOpener = false ∧ c.peek.isCloser = false)
    (hp' : (c.peek 1).isOpener = false ∧ (c.peek 1).isCloser = false) (hq : q c.peek = true) (hq' : q (c.peek 1) = true)
    {f : Unit → Parser β} (h : Amid c₀ (e :: es) n (c.advance 2) → Walks q (e :: es) (f ()) (c.advance 2)) :
    Walks q (e :: es) (Parser.skip 2 >>= f) c := by
  intro b c' hb
  have hpeek : (c.advance 1).peek = c.peek 1 := Cursor.peek_advance c 1 0
  refine of_token hc hp hq (p := Parser.skip 1 >>= f) (fun hc₁ => ?_) (a := b) (by
    rwa [skip_bind_eq_ok, ← Cursor.advance_add])
  refine skip_bind (hc₁.mono n.le_succ) (hpeek ▸ hp') (hpeek ▸ hq') fun _ => ?_
  have hc₂ := hc₁.takes (hc₁.fenced.advance (hpeek ▸ hp')) (.token hc₁.fenced (hpeek ▸ hp') (hpeek ▸ hq'))
  rw [← Cursor.advance_add] at hc₂ ⊢
  exact h hc₂

/-- A symbol is asked for that is no bracket. -/
theorem expect_bind (hc : Amid c₀ (e :: es) (n + 1) c) {m : Char} (hm : Token.isSymbolChar m = true)
    (hb : m ∉ ['(', ')', '[', ']', '\x7b', '\x7d']) (hq : ∀ t : Token, t.isSymbol (String.singleton m) = true → q t = true)
    {f : Token → Parser β} (h : Amid c₀ (e :: es) n (c.advance 1) → Walks q (e :: es) (f c.peek) (c.advance 1)) :
    Walks q (e :: es) (expect [m] >>= f) c := by
  intro b c' hb'
  obtain ⟨hr, hb'⟩ := expect_bind_eq_ok.mp hb'
  have hk := hc.sound.kind_of_reads hm hr
  simp only [Token.reads, Bool.and_eq_true, beq_iff_eq] at hr
  refine of_token hc ?_ (hq _ (by simp [Token.isSymbol, Token.has, hk, hr.1.1])) h hb'
  simp only [List.mem_cons, List.not_mem_nil, or_false, not_or] at hb
  simp [Token.isOpener, Token.isCloser, Token.isSymbolIn, hk, hr.1.1, hb]

/-- A mark is split off an operator and taken. -/
theorem consumePart_bind (hc : Amid c₀ (e :: es) (n + 1) c) (hk : c.peek.kind = .operator) {m : Char}
    (hm : c.peek.text.head? = some m) (hmark : Token.isMarkChar m = true)
    (hq : ∀ t : Token, t.kind = .operator → q t = true) {f : Token → Parser β}
    (h : ∀ t (c' : Cursor), Amid c₀ (e :: es) n c' → Walks q (e :: es) (f t) c') :
    Walks q (e :: es) (consumePart 1 >>= f) c := by
  intro b c' hb
  have hl := hc.sound.splitOperator fun d hd => by
    obtain rfl : m = d := by simpa [hm] using hd
    exact hmark
  have hbehind := c.behind_splitOperator 1
  have hc₁ : Amid c₀ (e :: es) (n + 1) (c.splitOperator 1) :=
    hc.takes (hc.fenced.lead hl hbehind) (q := q) (.stand hl hbehind)
  have hkind := (hc.sound.peek_splitOperator hk hm).2.1
  exact (of_token hc₁ (Token.not_bracket_of_kind (by simp [hkind])) (hq _ hkind) (h _ _)
    (consumePart_bind_eq_ok.mp hb)).imp_right (Cursor.Takes.stand hl hbehind).trans

/-- Taking a mark from the front of an operator. -/
theorem consumeOperator_bind (hc : Amid c₀ (e :: es) (n + 1) c) {m : Char} (hmark : Token.isMarkChar m = true)
    (hq : ∀ t : Token, t.kind = .operator → q t = true) {f : Token → Parser β}
    (h : ∀ t (c' : Cursor), Amid c₀ (e :: es) n c' → Walks q (e :: es) (f t) c') :
    Walks q (e :: es) (consumeOperator (String.singleton m) >>= f) c := by
  intro b c' hb
  obtain ⟨hop, hb⟩ := consumeOperator_bind_eq_ok.mp hb
  simp only [Token.isOperatorWith, Bool.and_eq_true, beq_iff_eq] at hop
  have hm : c.peek.text.head? = some m := by
    have hp := hop.2
    rw [String.toList_singleton, List.isPrefixOf_iff_prefix] at hp
    obtain ⟨x, hx⟩ := hp
    rw [← hx]
    rfl
  rw [String.length_singleton] at hb
  exact consumePart_bind hc hop.1 hm hmark hq h b c' (consumePart_bind_eq_ok.mpr hb)

/-- A group of brackets. -/
theorem group (hc : Amid c₀ (e :: es) n c) (ho : c.peek.isOpener = true) (hq : q c.peek = true)
    (hl : ∀ a c', p c = .ok a c' → c.Leads c') (h : Stays (e :: es) p c)
    (hends : ∀ x, (c.advance 1).Fenced (x :: e :: es) → Ends x p c) : Walks q (e :: es) p c := by
  intro a c' ha
  obtain ⟨x, -, -, hd⟩ := hc.fenced.advance_opener ho
  exact ⟨h a c' ha, .group hc.fenced ho hq hd (hl a c' ha) (hends x hd a c' ha)⟩

/-- A group of brackets is passed over. -/
theorem skipBalanced (hc : Amid c₀ (e :: es) n c) (ho : c.peek.isOpener = true) (hq : q c.peek = true) :
    Walks q (e :: es) skipBalanced c :=
  group hc ho hq (fun _ _ hu => (Spec.ok (.skipBalanced hc.sound) hu).1) (.skipBalanced hc.fenced ho) fun _ hd =>
    .skipBalanced hc.fenced ho hd

end Tokens

/-- An attempt that fails takes nothing. -/
theorem attempt_bind (hc : Amid c₀ (e :: es) n c) {Q : α → Cursor → Prop} (hs : Spec p c Q)
    (h : Walks q (e :: es) p c) {f : Option α → Parser β}
    (hsome : ∀ a (c' : Cursor), Amid c₀ (e :: es) n c' → Walks q (e :: es) (f (some a)) c')
    (hnone : ∀ c' : Cursor, Amid c₀ (e :: es) n c' → (c.peek.kind ≠ .operator → c'.peek = c.peek) →
      Walks q (e :: es) (f none) c') : Walks q (e :: es) (attempt p >>= f) c := by
  intro b c₂ hb
  obtain ⟨o, c₁, ho, hb⟩ := of_bind_ok hb
  cases o with
  | some a =>
    obtain ⟨hc₁, ht⟩ := h a c₁ (attempt_eq_some.mp ho)
    exact (hsome a c₁ (hc.takes hc₁ ht) b c₂ hb).imp_right ht.trans
  | none =>
    obtain ⟨x, c₃, he, rfl⟩ := attempt_eq_none.mp ho
    obtain ⟨hl, hbehind⟩ := (hs.error he).rewind
    have ht := Cursor.Takes.stand (q := q) hl hbehind
    exact (hnone _ (hc.takes (hc.fenced.lead hl hbehind) ht) (fun hk => hl.peek_eq hbehind (.inl hk)) b c₂ hb).imp_right
      ht.trans

theorem attempt (hc : Amid c₀ (e :: es) n c) {Q : α → Cursor → Prop} (hs : Spec p c Q)
    (h : Walks q (e :: es) p c) : Walks q (e :: es) (attempt p) c := by
  have := attempt_bind (f := Pure.pure) hc hs h (fun _ _ hc' => pure hc') fun _ hc' _ => pure hc'
  rwa [bind_pure] at this

section Loops

theorem of_rounds {item : Parser (Option α)} {as : List α} {c' : Cursor} (hr : Rounds item c as c')
    (hc : Amid c₀ es n c) (h : ∀ c' : Cursor, Amid c₀ es n c' → Walks q es item c') :
    c'.Fenced es ∧ c.Takes q c' := by
  induction hr with
  | stop ho => exact h _ hc _ _ ho
  | round ho _ ih =>
    obtain ⟨hc₁, ht⟩ := h _ hc _ _ ho
    exact (ih (hc.takes hc₁ ht)).imp_right ht.trans

theorem collect {item : Parser (Option α)} (hc : Amid c₀ es n c)
    (h : ∀ c' : Cursor, Amid c₀ es n c' → Walks q es item c') : Walks q es (collect item) c :=
  fun _ _ has => of_rounds (collect_eq_ok.mp has).1 hc h

theorem whenever {more : Cursor → Bool} {item : Parser α} (h : ∀ c' : Cursor, Amid c₀ es n c' → more c' = true →
    Walks q es item c') (c' : Cursor) (hc' : Amid c₀ es n c') :
    Walks q es (do if more (← get) then return some (← item) else return none) c' :=
  get_bind (ite (fun hm => bind hc' (h c' hc' hm) fun _ _ hc₁ => pure hc₁) fun _ => pure hc')

theorem collectWhile {more : Cursor → Bool} {item : Parser α} (hc : Amid c₀ es n c)
    (h : ∀ c' : Cursor, Amid c₀ es n c' → more c' = true → Walks q es item c') :
    Walks q es (collectWhile more item) c := collect hc (whenever h)

/-- Behind items of which the first is asked for, each of them more than nothing. -/
theorem collectWhile_bind {more : Cursor → Bool} {item : Parser α} {f : List α → Parser β} (hc : Amid c₀ es (n + 1) c)
    (hm : more c = true) (h : ∀ c' : Cursor, Amid c₀ es (n + 1) c' → more c' = true → Walks q es item c')
    (htake : ∀ a c', item c = .ok a c' → c'.behind ≠ c.behind)
    (hf : ∀ as (c' : Cursor), Amid c₀ es n c' → Walks q es (f as) c') :
    Walks q es (Parser.collectWhile more item >>= f) c := by
  intro b c₂ hb
  obtain ⟨as, c₁, has, hb⟩ := of_bind_ok hb
  obtain ⟨hc₁, ht⟩ := collectWhile hc h as c₁ has
  refine (hf as c₁ (hc.takes_token hc₁ ht.leads ?_) b c₂ hb).imp_right ht.trans
  -- the first item is more than nothing
  have hrounds := (collect_eq_ok.mp has).1
  cases hrounds with
  | stop ho =>
    rw [get_bind_eq_ok, if_pos hm] at ho
    obtain ⟨a, c₃, -, ho⟩ := of_bind_ok ho
    cases (pure_eq_ok.mp ho).1
  | round ho hrest =>
    rw [get_bind_eq_ok, if_pos hm] at ho
    obtain ⟨a, c₃, ha, ho⟩ := of_bind_ok ho
    obtain ⟨-, rfl⟩ := pure_eq_ok.mp ho
    obtain ⟨hc₃, ht₃⟩ := h c hc hm a c₃ ha
    have hlt := ht₃.leads.room_lt hc.sound (htake a c₃ ha)
    have hle := (of_rounds hrest (hc.takes hc₃ ht₃) (whenever h)).2.leads.room_le ht₃.leads.sound
    intro hbehind
    have := ht.leads.room_eq hc.sound hbehind
    omega

theorem extend {step : σ → Parser (Option σ)} {s : σ} (hc : Amid c₀ es n c)
    (h : ∀ s (c' : Cursor), Amid c₀ es n c' → Walks q es (step s) c') : Walks q es (extend step s) c := by
  intro s' c' hs
  obtain ⟨m, -, hsteps⟩ := extend_eq_ok.mp hs
  clear hs
  induction hsteps with
  | stop ho => exact h _ _ hc _ _ ho
  | step ho _ ih =>
    obtain ⟨hc₁, ht⟩ := h _ _ hc _ _ ho
    exact (ih (hc.takes hc₁ ht)).imp_right ht.trans

theorem separated {item : Parser α} (hc : Amid c₀ (e :: es) n c)
    (hq : ∀ t : Token, t.isSymbol "," = true → q t = true)
    (h : ∀ c' : Cursor, Amid c₀ (e :: es) n c' → Walks q (e :: es) item c') :
    Walks q (e :: es) (separated item) c := by
  refine bind hc (h c hc) fun a c₁ hc₁ => bind hc₁ (collectWhile hc₁ fun c₂ hc₂ hm => ?_) fun as c₂ hc₂ => pure hc₂
  exact skip_bind (hc₂.mono n.le_succ) (Token.not_bracket_of_symbol hm (by decide)) (hq _ hm) fun hc₃ => h _ hc₃

end Loops

end Walks

end Parser

/-- A grammar whose rules stay in brackets and take what may stand outside of all others: `loose` tells it of
expressions. A macro that is not loose is read with a closure behind it. -/
structure Grammar.Walks (g : Grammar) (c₀ : Cursor) (loose : Token → Bool) (n : Nat) : Prop where
  fences : g.Fences
  plain : ∀ t : Token, t.kind ≠ .poundName → loose t = true
  calls : ∀ {es : List Token} {c c' : Cursor} {x : MacroExpansion}, Cursor.Amid c₀ es (n + 1) c →
    loose c.peek = false → g.expansionRule c = .ok x c' → x.trailing.isSome = true
  type : ∀ {e : Token} {es : List Token} {c : Cursor}, Cursor.Amid c₀ (e :: es) n c →
    Parser.Walks Token.idle (e :: es) g.type c
  constraint : ∀ {e : Token} {es : List Token} {c : Cursor}, Cursor.Amid c₀ (e :: es) n c →
    Parser.Walks Token.idle (e :: es) g.constraint c
  expression : ∀ {e : Token} {es : List Token} {c : Cursor}, Cursor.Amid c₀ (e :: es) n c →
    Parser.Walks loose (e :: es) g.expression c
  operand : ∀ {e : Token} {es : List Token} {c : Cursor}, Cursor.Amid c₀ (e :: es) n c →
    Parser.Walks loose (e :: es) g.operand c

namespace Grammar

open Cursor (Amid)
open Token (idle idle_of_kind idle_of_isSymbol idle_of_isIdentifierIn)

variable {g : Grammar} {c₀ c c' : Cursor} {loose : Token → Bool} {e x : Token} {es : List Token} {n : Nat}

theorem idle_of_has {t : Token} {k : Token.Kind} {w : String} (h : t.has k w = true)
    (hk : k ≠ .symbol ∧ k ≠ .poundName) : t.idle = true := by
  simp only [Token.has, Bool.and_eq_true, beq_iff_eq] at h
  exact idle_of_kind (h.1 ▸ hk)

theorem Walks.of_quiet (hg : g.Walks c₀ loose n) (t : Token) (ht : t.idle = true) : loose t = true :=
  hg.plain t fun hk => by simp [idle, hk] at ht

section Annotations

theorem effects_walks (hc : Amid c₀ (e :: es) (n + 1) c) : Parser.Walks idle (e :: es) effects c := by
  refine .bind hc (.collectWhile hc fun c₁ hc₁ hm => ?_) fun _ _ hc₁ => .pure hc₁
  refine .consume_bind hc₁ (Token.not_bracket_of_identifier hm) (idle_of_isIdentifierIn hm) fun hc₂ => .get_bind (.ite
    (fun hp => ?_) fun _ => .sliceFrom hc₂)
  simp only [Bool.and_eq_true] at hp
  obtain ⟨hparen, ho⟩ := opener_of_parenFollows hp.2
  exact .bind hc₂ (.skipBalanced hc₂ ho (idle_of_isSymbol hparen (by decide))) fun _ _ hc₃ => .sliceFrom hc₃

theorem attributeRule_walks (hf : g.Fences) (hc : Amid c₀ (e :: es) (n + 1) c) (hk : c.peek.kind = .atName) :
    Parser.Walks idle (e :: es) g.attributeRule c := by
  unfold attributeRule
  refine .consume_bind hc (Token.not_bracket_of_kind (by simp [hk])) (idle_of_kind (by simp [hk])) fun hc₁ => ?_
  extract_lets finish rest
  have hfinish : ∀ arguments (c₂ : Cursor), Amid c₀ (e :: es) n c₂ →
      Parser.Walks idle (e :: es) (finish arguments) c₂ := fun _ _ hc₂ => .sliceFrom_bind (.get_bind (.pure hc₂))
  refine .ite (fun h => absurd hk (by simpa using h)) fun _ => .get_bind (.ite (fun hp => ?_)
    fun _ => hfinish _ _ hc₁)
  obtain ⟨hparen, ho⟩ := opener_of_parenFollows hp
  have hq := idle_of_isSymbol hparen (by decide)
  have hspec : Spec (g.arguments "(" ")") _ _ := arguments_spec hf.reliable hc₁.sound hparen
  refine .attempt_bind hc₁ hspec (.group hc₁ ho hq (fun _ _ h => (hspec.ok h).1)
    (arguments_stays (o := '(') (m := ')') hf hc₁.fenced (by simp) (by simp)) fun x hd => ?_)
    (fun _ _ hc₂ => hfinish _ _ hc₂) fun c₂ hc₂ hpeek => ?_
  · exact .bracketed (o := '(') (m := ')') (by simp) hd fun _ hc₂ => argument_stays hf hc₂
  · have hpeek := hpeek (by simp [Token.kind_of_isSymbol hparen])
    exact .bind hc₂ (.skipBalanced hc₂ (hpeek ▸ ho) (hpeek ▸ hq)) fun _ _ hc₃ => hfinish _ _ hc₃

variable (hg : g.Walks c₀ loose n)
include hg

theorem genericClause_walks (hc : Amid c₀ (e :: es) (n + 1) c) : Parser.Walks idle (e :: es) g.genericClause c := by
  have hop : ∀ t : Token, t.kind = .operator → t.idle = true := fun t h => idle_of_kind (by simp [h])
  exact .consumeOperator_bind (m := '<') hc rfl hop fun _ _ hc₁ => .bind hc₁
    (.separated hc₁ (fun _ ht => idle_of_isSymbol ht (by decide)) fun _ => hg.type) fun _ _ hc₂ =>
      .consumeOperator_bind (m := '>') (hc₂.mono n.le_succ) rfl hop fun _ _ hc₃ => .sliceFrom hc₃

theorem namedType_walks (hc : Amid c₀ (e :: es) (n + 1) c) (hk : c.peek.kind = .identifier) :
    Parser.Walks idle (e :: es) g.namedType c := by
  unfold namedType
  have hclause : ∀ c₁ : Cursor, Amid c₀ (e :: es) n c₁ → Parser.Walks idle (e :: es) g.genericClause c₁ :=
    fun _ hc₁ => genericClause_walks hg (hc₁.mono n.le_succ)
  refine .consume_bind hc (Token.not_bracket_of_kind (by simp [hk])) (idle_of_kind (by simp [hk])) fun hc₁ => .get_bind ?_
  extract_lets members
  have hmembers : ∀ generics (c₂ : Cursor), Amid c₀ (e :: es) n c₂ →
      Parser.Walks idle (e :: es) (members generics) c₂ := by
    refine fun _ c₂ hc₂ => .sliceFrom_bind (.extend hc₂ fun node c₃ hc₃ => .get_bind (.ite
      (fun hm => ?_) fun _ => .pure hc₃))
    simp only [Bool.and_eq_true, beq_iff_eq] at hm
    refine .skip_two_bind (hc₃.mono n.le_succ) (Token.not_bracket_of_kind (by simp [hm.1.1]))
      (Token.not_bracket_of_kind (by simp [hm.1.2])) (idle_of_kind (by simp [hm.1.1])) (idle_of_kind (by simp [hm.1.2]))
      fun hc₄ => .get_bind (.ite (fun _ => ?_) fun _ => .keep hc₄)
    exact .bind hc₄ (hclause _ hc₄) fun _ _ hc₅ => .keep hc₅
  exact .ite (fun _ => .bind hc₁ (hclause _ hc₁) fun _ _ hc₂ => hmembers _ _ hc₂) fun _ => hmembers _ _ hc₁

theorem tupleOrFunctionType_walks (hc : Amid c₀ (e :: es) (n + 1) c) (hk : c.peek.isSymbol "(" = true) :
    Parser.Walks idle (e :: es) g.tupleOrFunctionType c := by
  have hf := hg.fences
  have hitem : ∀ (x : Token) (c₁ : Cursor), c₁.Fenced (x :: e :: es) → Stays (x :: e :: es) (do
      let first ← current
      let label ← elementLabel
      let type ← g.type
      skipEllipsis
      return TypeElement.mk type label (← sliceFrom first)) c₁ := fun x c₁ hc₁ =>
    .current_bind (.bind (elementLabel_stays hc₁) fun _ c₂ hc₂ =>
      .bind (hf.type hc₂) fun _ _ hc₃ => .bind (skipEllipsis_stays hc₃) fun _ _ hc₄ => .keep hc₄)
  have helements := Parser.Walks.group (q := idle) hc (Token.isOpener_of_isSymbol hk (.inl rfl))
    (idle_of_isSymbol hk (by decide)) (fun _ _ h => ((tupleElements_spec hf.reliable hc.sound hk).ok h).1)
    (.bracketed (o := '(') (m := ')') (by simp) (by simp) hc.fenced hitem) fun x hd =>
      .bracketed (o := '(') (m := ')') (by simp) hd (hitem x)
  refine .current_bind (.bind hc helements fun elements c₁ hc₁ => .bind hc₁ (effects_walks hc₁) fun effects c₂ hc₂ =>
    .current_bind (.ite (fun h => ?_) fun _ => .ite (fun _ => .fail) fun _ => .keep hc₂))
  exact .skip_bind hc₂ (Token.not_bracket_of_has h (by decide)) (idle_of_has h (by decide)) fun hc₃ =>
    .bind hc₃ (hg.type hc₃) fun _ _ hc₄ => .keep hc₄

theorem collectionType_walks (hc : Amid c₀ (e :: es) (n + 1) c) (hk : c.peek.isSymbol "[" = true) :
    Parser.Walks idle (e :: es) g.collectionType c := by
  have hf := hg.fences
  refine .group hc (Token.isOpener_of_isSymbol hk (.inr rfl)) (idle_of_isSymbol hk (by decide))
    (fun _ _ h => ((collectionType_spec hf.reliable hc.sound hk).ok h).1) (collectionType_stays hf hc.fenced hk) fun x hd a c' ha => ?_
  refine Parser.Ends.bind (hf.type hd) (fun element c₂ hc₂ => .current_bind (.ite (fun h => ?_) fun _ =>
    .expect_bind (m := ']') hc₂ (by simp) fun hlast => .keep hlast)) a c' (consume_bind_eq_ok.mp ha)
  exact .bind (.skip hc₂ (Token.not_bracket_of_symbol h (by decide))) fun _ _ hc₃ => .bind (hf.type hc₃)
    fun value c₄ hc₄ => .expect_bind (m := ']') hc₄ (by simp) fun hlast => .keep hlast

omit hg in
theorem typeSuffixes_walks (hc : Amid c₀ (e :: es) n c) (start : Token) (base : TypeTree) :
    Parser.Walks idle (e :: es) (typeSuffixes start base) c := by
  refine .extend hc fun node c₁ hc₁ => .get_bind (.ite (fun hm => ?_) fun _ => .ite (fun hm => ?_)
    fun _ => .pure hc₁)
  · simp only [Bool.and_eq_true] at hm
    obtain ⟨hk, m, hm, hmark⟩ := Token.mark_of_isMark hm.1
    exact .consumePart_bind (hc₁.mono n.le_succ) hk hm hmark (fun t h => idle_of_kind (by simp [h])) fun _ _ hc₂ => .keep hc₂
  · simp only [Bool.and_eq_true, beq_iff_eq] at hm
    exact .skip_two_bind (hc₁.mono n.le_succ) (Token.not_bracket_of_kind (by simp [hm.1]))
      (Token.not_bracket_of_identifier hm.2) (idle_of_kind (by simp [hm.1])) (idle_of_isIdentifierIn hm.2)
      fun hc₂ => .keep hc₂

theorem simpleType_walks (hc : Amid c₀ (e :: es) (n + 1) c) : Parser.Walks idle (e :: es) g.simpleType c :=
  .current_bind (.ite (fun hk => tupleOrFunctionType_walks hg hc hk) fun _ =>
    .ite (fun hk => collectionType_walks hg hc hk) fun _ =>
      .ite (fun hk => namedType_walks hg hc (by simpa using hk)) fun _ => .fail)

theorem constraintRule_walks (hc : Amid c₀ (e :: es) (n + 1) c) : Parser.Walks idle (e :: es) g.constraintRule c := by
  refine .get_bind (.ite (fun hmore => ?_) fun _ => .ite (fun hq => ?_) fun _ => ?_)
  · refine .collectWhile_bind hc hmore (fun c₁ hc₁ hq => .current_bind (.ite
      (fun hk => ?_) fun hk => ?_)) (fun a c₁ ha => ?_) fun _ c₁ hc₁ => .bind hc₁ (hg.type hc₁) fun _ _ hc₂ => .keep hc₂
    · exact .bind hc₁ (attributeRule_walks hg.fences hc₁ (by simpa using hk)) fun _ _ hc₂ => .pure hc₂
    · simp only [qualifiesType, Bool.or_eq_true] at hq
      have hq := hq.resolve_left hk
      exact .consume_bind hc₁ (Token.not_bracket_of_identifier hq) (idle_of_isIdentifierIn hq) fun hc₂ => .pure hc₂
    · rcases ite_eq_ok.mp (current_bind_eq_ok.mp ha) with ⟨-, ha⟩ | ⟨-, ha⟩
      · obtain ⟨b, c₂, hb, ha⟩ := of_bind_ok ha
        obtain ⟨-, rfl⟩ := pure_eq_ok.mp ha
        have hlt := ((g.attributeRule_spec hg.fences.reliable hc.sound).ok hb).2.lt
        intro hbehind
        have hle := hc.sound.edge_le_peek
        rw [Cursor.edge, hbehind] at hlt
        rw [Cursor.edge] at hle
        omega
      · rw [consume_bind_eq_ok, pure_eq_ok] at ha
        simp [← ha.2, hc.fenced.behind_advance]
  · simp only [Bool.and_eq_true] at hq
    exact .skip_bind hc (Token.not_bracket_of_identifier hq.1) (idle_of_isIdentifierIn hq.1) fun hc₁ =>
      .bind hc₁ (hg.constraint hc₁) fun _ _ hc₂ => .keep hc₂
  · exact .bind hc (simpleType_walks hg hc) fun _ _ hc₁ => typeSuffixes_walks hc₁ _ _

theorem typeRule_walks (hc : Amid c₀ (e :: es) (n + 1) c) : Parser.Walks idle (e :: es) g.typeRule c :=
  .current_bind (.bind hc (constraintRule_walks hg hc) fun _ c₁ hc₁ => .bind hc₁
    (.collectWhile hc₁ fun _ hc₂ hm => .skip_bind (hc₂.mono (n + 1).le_succ) (Token.not_bracket_of_has hm (by decide))
      (idle_of_has hm (by decide)) fun hc₃ => constraintRule_walks hg hc₃)
    fun _ _ hc₂ => .ite (fun _ => .pure hc₂) fun _ => .keep hc₂)

end Annotations

section Signatures

theorem captureSpecifier_walks (hc : Amid c₀ (e :: es) n c) : Parser.Walks idle (e :: es) captureSpecifier c := by
  refine .get_bind (.ite (fun h => ?_) fun _ => .pure hc)
  obtain ⟨hplain, hq⟩ : (c.peek.isOpener = false ∧ c.peek.isCloser = false) ∧ c.peek.idle = true := by
    simp only [Bool.or_eq_true, Bool.and_eq_true] at h
    rcases h with h | h
    · exact ⟨Token.not_bracket_of_identifier h.1, idle_of_isIdentifierIn h.1⟩
    · simp only [beq_iff_eq] at h
      refine ⟨by simp [Token.isOpener, Token.isCloser, Token.isSymbolIn, h.1], ?_⟩
      have hk : c.peek.kind ≠ .poundName := fun hk => by
        have hhead := Token.lexeme_sigil (k := .poundName) (.tail _ (.head _))
          (hk ▸ (hc.sound.placed_peek (by simp [hk])).lexeme_text (by simp [hk]))
        simp [h.1] at hhead
      simp [idle, hk, Token.isSymbolIn, h.1]
  refine .skip_bind (hc.mono n.le_succ) hplain hq fun hc₁ => .get_bind (.ite (fun hp => ?_) fun _ => .keep hc₁)
  obtain ⟨hparen, ho⟩ := opener_of_parenFollows hp
  exact .bind hc₁ (.skipBalanced hc₁ ho (idle_of_isSymbol hparen (by decide))) fun _ _ hc₂ => .keep hc₂

theorem captureName_walks (hc : Amid c₀ (e :: es) n c) : Parser.Walks idle (e :: es) captureName c := by
  refine .get_bind (.ite (fun h => ?_) fun _ => .pure hc)
  simp only [Bool.and_eq_true, beq_iff_eq] at h
  exact .skip_two_bind (hc.mono n.le_succ) (Token.not_bracket_of_kind (by simp [h.1])) (Token.not_bracket_of_has h.2 (by decide))
    (idle_of_kind (by simp [h.1])) (idle_of_has h.2 (by decide)) fun hc₁ => .pure hc₁

variable (hg : g.Walks c₀ loose n)
include hg

theorem closureParameters_walks (hc : Amid c₀ (e :: es) (n + 1) c) :
    Parser.Walks idle (e :: es) g.closureParameters c := by
  have hf := hg.fences
  have hspec := closureParameters_spec hf.reliable hc.sound
  refine .current_bind (.ite (fun hk => ?_) fun _ => .ite (fun _ => ?_) fun _ => .pure hc)
  · have hitem : ∀ (x : Token) (c₁ : Cursor), c₁.Fenced (x :: e :: es) → Stays (x :: e :: es) g.closureParameter c₁ :=
      fun _ _ hc₁ => closureParameter_stays hf hc₁
    refine .group hc (Token.isOpener_of_isSymbol hk (.inl rfl)) (idle_of_isSymbol hk (by decide))
      (fun _ _ h => (hspec.ok (current_bind_eq_ok.mpr (ite_eq_ok.mpr (.inl ⟨hk, h⟩)))).1) (.bind (.bracketed (o := '(') (m := ')') (by simp) (by simp) hc.fenced hitem)
        fun _ _ hc₁ => .keep hc₁) fun x hd a c' ha => ?_
    obtain ⟨ps, c₁, hps, ha⟩ := of_bind_ok ha
    exact Parser.Ends.keep (Parser.Ends.bracketed (o := '(') (m := ')') (by simp) hd (hitem x) _ _ hps) _ _ ha
  · refine .bind hc (.separated hc (fun _ ht => idle_of_isSymbol ht (by decide)) fun c₁ hc₁ => .current_bind (.ite
      (fun hk => ?_) fun _ => .fail)) fun _ _ hc₁ => .keep hc₁
    have hk := beq_iff_eq.mp hk
    exact .consume_bind hc₁ (Token.not_bracket_of_kind (by simp [hk])) (idle_of_kind (by simp [hk])) fun hc₂ => .pure hc₂

theorem returnClause_walks (hc : Amid c₀ (e :: es) (n + 1) c) : Parser.Walks idle (e :: es) g.returnClause c :=
  .current_bind (.ite (fun h => .skip_bind hc (Token.not_bracket_of_has h (by decide)) (idle_of_has h (by decide))
    fun hc₁ => .bind hc₁ (hg.type hc₁) fun _ _ hc₂ => .keep hc₂) fun _ => .pure hc)

/-- A captured expression with the name that it is bound to. -/
theorem captureItem_walks (hc : Amid c₀ (e :: es) n c) :
    Parser.Walks loose (e :: es) (do
      let first ← current
      let specifier ← captureSpecifier
      let name ← captureName
      let expression ← g.expression
      return Capture.mk expression specifier name (← sliceFrom first)) c :=
  .current_bind (.bind hc ((captureSpecifier_walks hc).mono hg.of_quiet) fun _ _ hc₁ => .bind hc₁
    ((captureName_walks hc₁).mono hg.of_quiet) fun _ _ hc₂ => .bind hc₂ (hg.expression hc₂) fun _ _ hc₃ => .keep hc₃)

end Signatures

section Calls

/-- The generic arguments of an expression, if they are some. -/
def specialization (g : Grammar) : Parser (Option Text) := do
  if genericsFollow (← get) then attempt g.specializationClause else return none

/-- The arguments of a macro, if they follow on the same line. -/
def parenthesized (g : Grammar) : Parser (List Argument) := do
  let next ← current
  if next.isSymbol "(" && !next.newlineBefore then g.arguments "(" ")" else return []

theorem expansionRule_eq (g : Grammar) : g.expansionRule = consume >>= fun t =>
    if t.kind != .poundName then throw (.locate (.notExpansion t.text) t) else
      g.specialization >>= fun _ => g.parenthesized >>= fun as => g.trailingClosure >>= fun trailing =>
        sliceFrom t >>= fun text => get >>= fun c => pure
          ⟨t.text.drop 1, as, trailing, text, t.start, c.previous.stop, t.line, t.column⟩ := by
  unfold expansionRule specialization parenthesized
  refine congrArg _ (funext fun t => ?_)
  extract_lets finish args rest
  split
  · rfl
  have hargs : args () = (do
      let next ← current
      if next.isSymbol "(" && !next.newlineBefore then g.arguments "(" ")" else return []) >>= finish := by
    rw [bind_assoc]
    refine congrArg (fun f => current >>= f) (funext fun next => ?_)
    split
    · rfl
    · rw [pure_bind]
  show (get >>= fun c => _) = _
  rw [bind_assoc]
  refine congrArg _ (funext fun c => ?_)
  split
  · exact congrArg _ (funext fun _ => hargs)
  · rw [pure_bind]
    exact hargs

theorem expansionRule_eq_ok {x : MacroExpansion} : g.expansionRule c = .ok x c' ↔ c.peek.kind = .poundName ∧
    ∃ o c₁ as c₂ k, g.specialization (c.advance 1) = .ok o c₁ ∧ g.parenthesized c₁ = .ok as c₂ ∧
      g.trailingClosure c₂ = .ok k c' ∧ x = ⟨c.peek.text.drop 1, as, k, c'.sliceFrom c.peek, c.peek.start,
        c'.previous.stop, c.peek.line, c.peek.column⟩ := by
  rw [expansionRule_eq, consume_bind_eq_ok, ite_eq_ok]
  simp only [throw_eq_ok, and_false, false_or, bne_iff_ne, ne_eq, not_not]
  refine and_congr_right fun _ => ⟨fun h => ?_, ?_⟩
  · obtain ⟨o, c₁, ho, h⟩ := of_bind_ok h
    obtain ⟨as, c₂, has, h⟩ := of_bind_ok h
    obtain ⟨k, c₃, hk, h⟩ := of_bind_ok h
    rw [sliceFrom_bind_eq_ok, get_bind_eq_ok, pure_eq_ok] at h
    obtain ⟨rfl, rfl⟩ := h
    exact ⟨o, c₁, as, c₂, k, ho, has, hk, rfl⟩
  · rintro ⟨o, c₁, as, c₂, k, ho, has, hk, rfl⟩
    exact bind_eq_ok.mpr ⟨o, c₁, ho, bind_eq_ok.mpr ⟨as, c₂, has, bind_eq_ok.mpr ⟨k, c', hk, rfl⟩⟩⟩

theorem trailingClosure_eq_ok {o : Option Closure} : g.trailingClosure c = .ok o c' ↔
    closureFollows c = true ∧ (∃ k, g.closureRule c = .ok k c' ∧ o = some k) ∨
      closureFollows c = false ∧ o = none ∧ c' = c := by
  rw [trailingClosure, get_bind_eq_ok, ite_eq_ok, Bool.not_eq_true, bind_eq_ok, pure_eq_ok]
  simp only [pure_eq_ok]
  refine or_congr (and_congr_right fun _ => ⟨?_, ?_⟩) (and_congr_right fun _ => and_congr eq_comm eq_comm)
  · rintro ⟨k, c₁, hk, rfl, rfl⟩
    exact ⟨k, hk, rfl⟩
  · rintro ⟨k, hk, rfl⟩
    exact ⟨k, c', hk, rfl, rfl⟩

theorem closureRule_ends (hf : g.Fences) (hd : (c.advance 1).Fenced (x :: es)) (hx : x.isSymbol "\x7d" = true) :
    Parser.Ends x g.closureRule c := by
  intro k c' h
  refine Parser.Ends.bind (.attempt hd (closureSignature_spec hf.reliable hd.sound) (closureSignature_stays hf hd))
    (fun _ _ hc₁ => .bind (statements_stays hc₁ hx) fun _ _ hc₂ => .expect_bind (m := '\x7d') hc₂ (by simp)
      fun hlast => .keep hlast) k c' (expect_bind_eq_ok.mp h).2

/-- What closes a brace is one. -/
theorem closing_brace (hx : x.isCloser = true) (htext : x.text = c.peek.closing) (hk : c.peek.isSymbol "\x7b" = true) :
    x.isSymbol "\x7d" = true := by
  simp only [Token.isCloser, Token.isSymbolIn, Token.isSymbol, Token.has, Bool.and_eq_true, beq_iff_eq] at hx hk
  simp [Token.isSymbol, Token.has, hx.1, htext, Token.closing, hk.2]

theorem closureRule_walks {q : Token → Bool} (hf : g.Fences) (hc : Amid c₀ (e :: es) n c) (hq : q c.peek = true)
    (hk : c.peek.isSymbol "\x7b" = true) : Parser.Walks q (e :: es) g.closureRule c := by
  have ho := Token.isOpener_of_brace hk
  refine .group hc ho hq (fun _ _ h => ((closureRule_spec hf.reliable hc.sound).ok h).1)
    (closureRule_stays hf hc.fenced) fun x hd => closureRule_ends hf hd ?_
  obtain ⟨f, hfclose, htext, hd'⟩ := hc.fenced.advance_opener ho
  obtain rfl : f = x := by
    rcases hd'.ahead.total hd.ahead with h | h
    · exact (List.cons_prefix_cons.mp h).1
    · exact (List.cons_prefix_cons.mp h).1.symm
  exact closing_brace hfclose htext hk

theorem arguments_walks {q : Token → Bool} (hf : g.Fences) (hc : Amid c₀ (e :: es) n c) {o m : Char}
    (hm : m ∈ [')', ']', '\x7d']) (hk : c.peek.isSymbol (String.singleton o) = true) (hopener : c.peek.isOpener = true)
    (ho : o ∈ ['(', '[', '\x7b']) (hq : q c.peek = true) :
    Parser.Walks q (e :: es) (g.arguments (String.singleton o) (String.singleton m)) c :=
  .group hc hopener hq (fun _ _ h => ((arguments_spec hf.reliable hc.sound hk).ok h).1)
    (arguments_stays hf hc.fenced ho hm) fun _ hd => .bracketed hm hd fun _ hc₂ => argument_stays hf hc₂

section

variable (hg : g.Walks c₀ loose n)
include hg

theorem specializationClause_walks (hc : Amid c₀ (e :: es) (n + 1) c) :
    Parser.Walks idle (e :: es) g.specializationClause c :=
  .bind hc (genericClause_walks hg hc) fun _ _ hc₁ => .current_bind (.ite (fun _ => .pure hc₁) fun _ => .fail)

theorem specialization_walks (hc : Amid c₀ (e :: es) (n + 1) c) : Parser.Walks idle (e :: es) g.specialization c :=
  .get_bind (.ite (fun _ => .attempt hc (specializationClause_spec hg.fences.reliable hc.sound)
    (specializationClause_walks hg hc)) fun _ => .pure hc)

theorem trailingClosure_walks {m : Nat} (hc : Amid c₀ (e :: es) m c) : Parser.Walks loose (e :: es) g.trailingClosure c := by
  refine .get_bind (.ite (fun h => ?_) fun _ => .pure hc)
  simp only [closureFollows, Bool.and_eq_true] at h
  refine .bind hc (closureRule_walks hg.fences hc (hg.plain _ ?_) h.1.1) fun _ _ hc₁ => .pure hc₁
  simp [Token.kind_of_isSymbol h.1.1]

omit hg in
theorem parenthesized_walks (hf : g.Fences) (hc : Amid c₀ (e :: es) n c) :
    Parser.Walks idle (e :: es) g.parenthesized c := by
  refine .current_bind (.ite (fun h => ?_) fun _ => .pure hc)
  simp only [Bool.and_eq_true] at h
  exact arguments_walks (o := '(') (m := ')') hf hc (by simp) h.1 (Token.isOpener_of_isSymbol h.1 (.inl rfl))
    (by simp) (idle_of_isSymbol h.1 (by decide))

/-- The macro at `c` is read up to `c'` with the closure `k` behind it: `A` stands in front of the closure, and `B`
between its braces `o` and `z`. -/
structure Encloses (g : Grammar) (c c' : Cursor) (k : Closure) (A : List Token) (o : Token) (B : List Token)
    (z : Token) : Prop where
  leads : c.Leads c'
  taken : c'.behind = (c.peek :: A ++ o :: B ++ [z]).reverse ++ c.behind
  block : Token.Block A o B z
  closure : ∃ x c₁ as c₂, g.specialization (c.advance 1) = .ok x c₁ ∧ g.parenthesized c₁ = .ok as c₂ ∧ c₁.Leads c₂ ∧
    (c.advance 1).Leads c₂ ∧ c₂.peek = o ∧ closureFollows c₂ = true ∧ g.closureRule c₂ = .ok k c'

theorem expansionRule_encloses {m : MacroExpansion} {k : Closure} (hc : Amid c₀ (e :: es) (n + 1) c)
    (h : g.expansionRule c = .ok m c') (hk : k ∈ m.trailing) : ∃ A o B z, Encloses g c c' k A o B z := by
  obtain ⟨hpound, o, c₁, as, c₂, _, ho, has, htrailing, rfl⟩ := expansionRule_eq_ok.mp h
  obtain rfl := Option.mem_def.mp hk
  have hplain := Token.not_bracket_of_kind (t := c.peek) (by simp [hpound])
  have hbehind := hc.fenced.behind_advance
  have hc₁ : Amid c₀ (e :: es) n (c.advance 1) :=
    hc.takes_token (hc.fenced.advance hplain) (hc.sound.advance 1) (by simp [hbehind])
  obtain ⟨hf₁, ht₁⟩ := specialization_walks hg (hc₁.mono n.le_succ) _ _ ho
  obtain ⟨hf₂, ht₂⟩ := parenthesized_walks hg.fences (hc₁.takes hf₁ ht₁) _ _ has
  have ht := ht₁.trans ht₂
  obtain ⟨A, hA, hnested, hlevel⟩ := ht.taken
  obtain ⟨hfollows, _, hk', hsome⟩ | ⟨-, hnone, -⟩ := trailingClosure_eq_ok.mp htrailing
  · obtain rfl := Option.some.inj hsome
    simp only [closureFollows, Bool.and_eq_true] at hfollows
    have hbrace := hfollows.1.1
    have hopener := Token.isOpener_of_brace hbrace
    obtain ⟨z, hz, htext, hd⟩ := hf₂.advance_opener hopener
    have hl := ((closureRule_spec hg.fences.reliable hf₂.sound).ok hk').1
    obtain ⟨B, hB, hinside, hcloser, hclosing⟩ := hf₂.group_taken hopener hd hl
      (closureRule_ends hg.fences hd (closing_brace hz htext hbrace) _ _ hk')
    refine ⟨A, c₂.peek, B, z, (hc.sound.advance 1).trans (ht.leads.trans hl), ?_, ⟨⟨hnested, hlevel.of_idle hnested⟩, hbrace,
      hinside, closing_brace hcloser hclosing hbrace⟩, o, c₁, as, c₂, ho, has, ht₂.leads, ht.leads, rfl, ?_, hk'⟩
    · rw [hB, hA, hbehind]
      simp
    · simpa [closureFollows] using hfollows
  · cases hnone

theorem expansionRule_walks (hc : Amid c₀ (e :: es) (n + 1) c) (hpound : c.peek.kind = .poundName) :
    Parser.Walks loose (e :: es) g.expansionRule c := by
  have hf := hg.fences
  intro m c' h
  refine ⟨expansionRule_stays hf hc.fenced hpound m c' h, ?_⟩
  have hplain := Token.not_bracket_of_kind (t := c.peek) (by simp [hpound])
  cases hloose : loose c.peek with
  | true =>
    obtain ⟨-, o, c₁, as, c₂, k, ho, has, hk', rfl⟩ := expansionRule_eq_ok.mp h
    refine (Parser.Walks.of_token hc hplain hloose (p := g.specialization >>= fun _ => g.parenthesized >>= fun _ =>
      g.trailingClosure) (fun hc₁ => ?_) (bind_eq_ok.mpr ⟨o, c₁, ho, bind_eq_ok.mpr ⟨as, c₂, has, hk'⟩⟩)).2
    refine .bind hc₁ ((specialization_walks hg (hc₁.mono n.le_succ)).mono hg.of_quiet) fun _ c₂ hc₂ =>
      .bind hc₂ ((parenthesized_walks hf hc₂).mono hg.of_quiet) fun _ c₃ hc₃ => trailingClosure_walks hg hc₃
  | false =>
    obtain ⟨k, hk⟩ := Option.isSome_iff_exists.mp (hg.calls hc hloose h)
    obtain ⟨A, o, B, z, he⟩ := expansionRule_encloses hg hc h hk
    have hfront : nested [] (c.peek :: A) = true := by rw [Token.nested_plain hplain.1 hplain.2]; exact he.block.front.1
    have hlevel : Level (fun t _ => t.isSymbol "\x7b" = false) [] (c.peek :: A) := by
      refine ⟨fun _ => by simp [Token.isSymbol, Token.has, hpound], ?_⟩
      rw [Token.pending_plain hplain.1 hplain.2]
      exact he.block.front.2.mono fun _ _ => Token.not_brace
    have hblock := Token.segment_block (b := false) he.block.opening he.block.inside he.block.closes.1 he.block.closes.2
    have hpasses := Token.Level.before_block hlevel hfront hblock (Level.group
      (Token.isOpener_of_brace he.block.opening) he.block.inside
      (.inl (hg.plain o (by simp [Token.kind_of_isSymbol he.block.opening])))) hg.plain
    refine ⟨he.leads, _, by simpa using he.taken, ?_, hpasses⟩
    rw [Token.nested_append_nil hfront]
    exact Token.nested_of_segment hblock

end

end Calls

section Expressions

/-- The tokens `w` stand between `c` and `c₁`, without a block among them. -/
structure Nears (c c₁ : Cursor) (w : List Token) : Prop where
  leads : c.Leads c₁
  taken : c₁.behind = w.reverse ++ c.behind
  nested : nested [] w = true
  level : Level (fun t _ => t.isSymbol "\x7b" = false) [] w

/-- With the block, all of them pass. -/
theorem Nears.takes {c₁ : Cursor} {w : List Token} {u : Unit} (h : Nears c c₁ w)
    (hq : ∀ t : Token, t.kind ≠ .poundName → loose t = true) (hc : c₁.Fenced (e :: es))
    (hbrace : c₁.peek.isSymbol "\x7b" = true) (hu : skipBalanced c₁ = .ok u c') : c.Takes loose c' := by
  have ho := Token.isOpener_of_brace hbrace
  obtain ⟨x, -, -, hd⟩ := hc.advance_opener ho
  have hl := (Spec.ok (.skipBalanced hc.sound) hu).1
  obtain ⟨B, hB, hinside, hx, htext⟩ := hc.group_taken ho hd hl (Parser.Ends.skipBalanced hc ho hd u c' hu)
  have hblock := Token.segment_block (b := false) hbrace hinside hx htext
  have hpasses := Token.Level.before_block h.level h.nested hblock
    (Level.group ho hinside (.inl (hq _ (by simp [Token.kind_of_isSymbol hbrace])))) hq
  refine ⟨h.leads.trans hl, _, by simp [hB, h.taken], ?_, hpasses⟩
  rw [Token.nested_append_nil h.nested]
  exact Token.nested_of_segment hblock

/-- A step on the way to the block. -/
theorem Nears.step {c₁ c₂ : Cursor} {w w' : List Token} (h : Nears c c₁ w) (h' : Nears c₁ c₂ w') :
    Nears c c₂ (w ++ w') :=
  ⟨h.leads.trans h'.leads, by simp [h'.taken, h.taken], by rw [Token.nested_append_nil h.nested, h'.nested],
    .append h.nested h.level h'.level⟩

theorem Nears.token {c₁ : Cursor} (hc : c₁.Fenced (e :: es)) (hp : c₁.peek.isOpener = false ∧ c₁.peek.isCloser = false) :
    Nears c₁ (c₁.advance 1) [c₁.peek] := by
  refine ⟨hc.sound.advance 1, by simp [hc.behind_advance], ?_, fun _ => ?_, trivial⟩
  · rw [Token.nested_plain hp.1 hp.2]
    rfl
  · exact Bool.eq_false_iff.mpr fun hb => by simp [Token.isOpener_of_brace hb] at hp

/-- From a word that asks for a block, the way over the blocks goes on. -/
theorem controlSteps_takes {start : Token} {m : Nat} {u u' : Unit} {c₁ : Cursor} {w : List Token}
    (hq : ∀ t : Token, t.kind ≠ .poundName → loose t = true) (hsteps : Steps (fun _ => controlStep start) m u c₁ u' c')
    (hc : c₁.Fenced (e :: es)) (hblock : Token.opensBlock 0 c₁.ahead = true) (hw : Nears c c₁ w) :
    c'.Fenced (e :: es) ∧ c.Takes loose c' := by
  induction hsteps generalizing c w with
  | @stop u c₁ c' ho =>
    refine ⟨(controlStep_stays hc hblock ho).1, ?_⟩
    obtain ⟨hbrace, ho⟩ | ⟨-, ho⟩ := ite_eq_ok.mp (get_bind_eq_ok.mp ho)
    · obtain ⟨v, c₃, hv, ho⟩ := of_bind_ok ho
      obtain ⟨-, ho⟩ | ⟨-, ho⟩ := ite_eq_ok.mp (current_bind_eq_ok.mp ho)
      · rw [skip_bind_eq_ok, pure_eq_ok] at ho
        cases ho.1
      · obtain ⟨-, rfl⟩ := pure_eq_ok.mp ho
        exact hw.takes hq hc hbrace hv
    obtain ⟨-, ho⟩ | ⟨-, ho⟩ := ite_eq_ok.mp ho
    · cases ho
    obtain ⟨-, ho⟩ | ⟨-, ho⟩ := ite_eq_ok.mp ho
    · obtain ⟨v, c₃, -, ho⟩ := of_bind_ok ho
      cases (pure_eq_ok.mp ho).1
    · rw [skip_bind_eq_ok, pure_eq_ok] at ho
      cases ho.1
  | @step m u u₁ u' c₁ c₂ c' ho hsteps ih =>
    obtain ⟨hc₂, hnext⟩ := controlStep_stays hc hblock ho
    have hgo : ∀ {w' : List Token}, Nears c₁ c₂ w' → c'.Fenced (e :: es) ∧ c.Takes loose c' := fun h =>
      ih hc₂ (hnext (by simp)) (hw.step h)
    obtain ⟨hbrace, ho⟩ | ⟨hbrace, ho⟩ := ite_eq_ok.mp (get_bind_eq_ok.mp ho)
    · obtain ⟨v, c₃, hv, ho⟩ := of_bind_ok ho
      have hc₃ := (hc.skipBalanced (Token.isOpener_of_brace hbrace) hv).1
      obtain ⟨hreads, ho⟩ | ⟨-, ho⟩ := ite_eq_ok.mp (current_bind_eq_ok.mp ho)
      · rw [skip_bind_eq_ok, pure_eq_ok] at ho
        obtain ⟨-, rfl⟩ := ho
        have hword := hc₃.awaitsBlock_of_reads hreads
        exact (ih hc₂ (hnext (by simp)) (.token hc₃ (Token.not_bracket_of_awaitsBlock hword))).imp_right
          (hw.takes hq hc hbrace hv).trans
      · cases (pure_eq_ok.mp ho).1
    obtain ⟨-, ho⟩ | ⟨-, ho⟩ := ite_eq_ok.mp ho
    · cases ho
    obtain ⟨hopener, ho⟩ | ⟨hopener, ho⟩ := ite_eq_ok.mp ho
    · obtain ⟨v, c₃, hv, ho⟩ := of_bind_ok ho
      obtain ⟨-, rfl⟩ := pure_eq_ok.mp ho
      obtain ⟨x, -, -, hd⟩ := hc.advance_opener hopener
      have hl := (Spec.ok (.skipBalanced hc.sound) hv).1
      have ht := Cursor.Takes.group (q := fun t => !t.isSymbol "\x7b") hc hopener (by simpa using hbrace) hd hl
        (Parser.Ends.skipBalanced hc hopener hd v c₃ hv)
      obtain ⟨B, hB, hnested, hlevel⟩ := ht.taken
      exact hgo ⟨hl, hB, hnested, hlevel.mono fun t us h => by
        rcases h with h | ⟨hk, -⟩
        · simpa using h
        · simp [Token.isSymbol, Token.has, hk]⟩
    · rw [skip_bind_eq_ok, pure_eq_ok] at ho
      obtain ⟨-, rfl⟩ := ho
      rw [hc.ahead_eq, Token.opensBlock, if_neg hopener] at hblock
      split_ifs at hblock with hcloser
      simp only [Bool.not_eq_true] at hopener hcloser
      exact hgo (.token hc ⟨hopener, hcloser⟩)

theorem controlExpression_walks (hq : ∀ t : Token, t.kind ≠ .poundName → loose t = true) (hc : Amid c₀ (e :: es) n c)
    (hk : c.peek.isIdentifierIn ["if", "switch", "do"] = true) : Parser.Walks loose (e :: es) controlExpression c := by
  obtain ⟨hc₁, hblock⟩ := opensBlock_advance hc.fenced (awaitsBlock_of_control hk)
  have hplain := Token.not_bracket_of_identifier hk
  intro a c' h
  rw [controlExpression_eq, consume_bind_eq_ok] at h
  obtain ⟨u, c₁, hu, h⟩ := of_bind_ok h
  rw [sliceFrom_bind_eq_ok, pure_eq_ok] at h
  obtain ⟨-, rfl⟩ := h
  obtain ⟨m, -, hsteps⟩ := extend_eq_ok.mp hu
  exact controlSteps_takes hq hsteps hc₁ hblock (.token hc.fenced hplain)

theorem keyPath_walks (hq : ∀ t : Token, t.kind ≠ .poundName → loose t = true) (hc : Amid c₀ (e :: es) (n + 1) c)
    (hk : c.peek.kind = .backslash) : Parser.Walks loose (e :: es) keyPath c := by
  refine .consume_bind hc (Token.not_bracket_of_kind (by simp [hk])) (hq _ (by simp [hk])) fun hc₁ => .bind hc₁
    (.extend hc₁ fun _ c₂ hc₂ => .current_bind ?_) fun _ _ hc₂ => .keep hc₂
  refine .ite (fun _ => .pure hc₂) fun _ => .ite (fun h => ?_) fun _ => .ite (fun hm => ?_)
    fun _ => .ite (fun h => ?_) fun _ => .pure hc₂
  · have hkind : c₂.peek.kind ≠ .symbol ∧ c₂.peek.kind ≠ .poundName := by
      simp only [Bool.or_eq_true, beq_iff_eq] at h
      rcases h with (h | h) | h <;> simp [h]
    exact .skip_bind (hc₂.mono n.le_succ) (Token.not_bracket_of_kind hkind.1) (hq _ hkind.2) fun hc₃ => .pure hc₃
  · obtain ⟨hk, m, hm, hmark⟩ := Token.mark_of_isMark hm
    exact .consumePart_bind (hc₂.mono n.le_succ) hk hm hmark (fun t ht => hq t (by simp [ht])) fun _ _ hc₃ => .pure hc₃
  · exact .bind hc₂ (.skipBalanced hc₂ (Token.isOpener_of_isSymbol h (.inr rfl))
      (hq _ (by simp [Token.kind_of_isSymbol h]))) fun _ _ hc₃ => .pure hc₃

theorem castModifier_walks (hq : ∀ t : Token, t.kind ≠ .poundName → loose t = true) (hc : Amid c₀ (e :: es) n c) :
    Parser.Walks loose (e :: es) castModifier c := by
  refine .current_bind (.ite (fun hm => ?_) fun _ => .pure hc)
  simp only [Bool.and_eq_true] at hm
  obtain ⟨hk, m, hm, hmark⟩ := Token.mark_of_isMark hm.1
  exact .consumePart_bind (hc.mono n.le_succ) hk hm hmark (fun t ht => hq t (by simp [ht])) fun _ _ hc₁ => .pure hc₁

variable (hg : g.Walks c₀ loose n)
include hg

theorem collectionLiteral_walks (hc : Amid c₀ (e :: es) (n + 1) c) (hk : c.peek.isSymbol "[" = true) :
    Parser.Walks loose (e :: es) g.collectionLiteral c := by
  have hf := hg.fences
  refine .group hc (Token.isOpener_of_isSymbol hk (.inr rfl)) (hg.plain _ (by simp [Token.kind_of_isSymbol hk]))
    (fun _ _ h => ((collectionLiteral_spec hf.reliable hc.sound hk).ok h).1) (collectionLiteral_stays hf hc.fenced hk)
    fun x hd a c' ha => ?_
  refine Parser.Ends.get_bind (.ite (fun h => ?_) fun _ => .ite (fun h => ?_) fun _ => ?_) a c' (consume_bind_eq_ok.mp ha)
  · simp only [Bool.and_eq_true] at h
    exact .skip_two_bind hd (Token.not_bracket_of_symbol h.1 (by decide)) (Token.isCloser_of_isSymbol h.2 (by simp))
      fun hlast => .keep hlast
  · exact .skip_bind hd (Token.isCloser_of_isSymbol h (by simp)) fun hlast => .keep hlast
  · refine .bind (hf.expression hd) fun first c₂ hc₂ => .current_bind (.ite (fun h => ?_) fun _ => ?_)
    · refine .bind (.skip hc₂ (Token.not_bracket_of_symbol h (by decide))) fun _ c₃ hc₃ => .bind (hf.expression hc₃)
        fun value c₄ hc₄ => .sliceFrom_bind (.bind (otherItems_stays hc₄ fun c₅ hc₅ => ?_) fun _ _ hc₅ =>
          .expect_bind (m := ']') hc₅ (by simp) fun hlast => .keep hlast)
      exact .current_bind (.bind (hf.expression hc₅) fun _ c₆ hc₆ => .expect_bind hc₆ rfl (by decide)
        fun hc₇ => .bind (hf.expression hc₇) fun _ _ hc₈ => .keep hc₈)
    · exact .bind (otherItems_stays hc₂ fun _ => hf.expression) fun _ _ hc₃ =>
        .expect_bind (m := ']') hc₃ (by simp) fun hlast => .keep hlast

theorem nameExpression_walks (hc : Amid c₀ (e :: es) (n + 1) c) (hk : c.peek.kind = .identifier) :
    Parser.Walks loose (e :: es) g.nameExpression c := by
  refine .consume_bind hc (Token.not_bracket_of_kind (by simp [hk])) (hg.plain _ (by simp [hk])) fun hc₁ => .get_bind
    (.ite (fun _ => .bind hc₁ (.attempt hc₁ (specializationClause_spec hg.fences.reliable hc₁.sound)
      ((specializationClause_walks hg (hc₁.mono n.le_succ)).mono hg.of_quiet)) fun o c₂ hc₂ => ?_) fun _ => .pure hc₁)
  cases o with
  | none => exact .pure hc₂
  | some clause => exact .keep hc₂

theorem wordExpression_walks (hc : Amid c₀ (e :: es) (n + 1) c) (hk : c.peek.kind = .identifier) :
    Parser.Walks loose (e :: es) g.wordExpression c := by
  have hplain := Token.not_bracket_of_kind (t := c.peek) (by simp [hk])
  have hloose := hg.plain c.peek (by simp [hk])
  exact .current_bind (.ite (fun _ => .skip_bind hc hplain hloose fun hc₁ => .pure hc₁) fun _ =>
    .ite (fun _ => .skip_bind hc hplain hloose fun hc₁ => .pure hc₁) fun _ =>
      .ite (fun h => controlExpression_walks hg.plain hc h) fun _ => nameExpression_walks hg hc hk)

theorem primary_walks (hc : Amid c₀ (e :: es) (n + 1) c) : Parser.Walks loose (e :: es) g.primary c := by
  have hf := hg.fences
  refine .get_bind ?_
  dsimp only
  split
  case h_4 hk => exact wordExpression_walks hg hc hk
  case h_5 hk => exact .bind hc (expansionRule_walks hg hc hk) fun _ _ hc₁ => .pure hc₁
  case h_6 hk => exact keyPath_walks hg.plain hc hk
  case h_7 =>
    refine .ite (fun h => ?_) fun _ => .ite (fun h => collectionLiteral_walks hg hc h) fun _ =>
      .ite (fun h => .bind hc (arguments_walks (o := '(') (m := ')') hf hc (by simp) h
        (Token.isOpener_of_isSymbol h (.inl rfl)) (by simp) (hg.plain _ (by simp [Token.kind_of_isSymbol h])))
        fun _ _ hc₁ => .keep hc₁) fun _ => .ite (fun h => .bind hc (closureRule_walks hf hc
          (hg.plain _ (by simp [Token.kind_of_isSymbol h])) h) fun _ _ hc₁ => .pure hc₁) fun _ => .fail
    simp only [Bool.and_eq_true, beq_iff_eq] at h
    exact .skip_two_bind hc (Token.not_bracket_of_kind (by simp [h.1.1])) (Token.not_bracket_of_kind (by simp [h.1.2]))
      (hg.plain _ (by simp [h.1.1])) (hg.plain _ (by simp [h.1.2])) fun hc₁ => .keep hc₁
  all_goals
    rename_i hk
    exact .skip_bind hc (Token.not_bracket_of_kind (by simp [hk])) (hg.plain _ (by simp [hk])) fun hc₁ => .pure hc₁

theorem suffixes_walks (hc : Amid c₀ (e :: es) (n + 1) c) (start : Token) (base : Expression) :
    Parser.Walks loose (e :: es) (g.suffixes start base) c := by
  have hf := hg.fences
  refine .extend hc fun _ c₁ hc₁ => .get_bind (.ite (fun h => ?_) fun _ => .ite (fun h => ?_)
    fun _ => .ite (fun h => ?_) fun _ => .ite (fun h => ?_) fun _ => .ite (fun h => ?_) fun _ => .pure hc₁)
  · simp only [Bool.and_eq_true, Bool.or_eq_true, beq_iff_eq] at h
    have hkind : (c₁.peek 1).kind ≠ .symbol ∧ (c₁.peek 1).kind ≠ .poundName := by
      rcases h.2 with h | h <;> simp [h]
    exact .skip_two_bind hc₁ (Token.not_bracket_of_kind (by simp [h.1]))
      (Token.not_bracket_of_kind hkind.1) (hg.plain _ (by simp [h.1])) (hg.plain _ hkind.2) fun hc₂ => .keep hc₂
  · simp only [Bool.and_eq_true] at h
    exact .bind hc₁ (arguments_walks (o := '(') (m := ')') hf hc₁ (by simp) h.1 (Token.isOpener_of_isSymbol h.1 (.inl rfl))
      (by simp) (hg.plain _ (by simp [Token.kind_of_isSymbol h.1]))) fun _ _ hc₂ =>
        .bind hc₂ (trailingClosure_walks hg hc₂) fun _ _ hc₃ => .keep hc₃
  · simp only [Bool.and_eq_true] at h
    exact .bind hc₁ (arguments_walks (o := '[') (m := ']') hf hc₁ (by simp) h.1.1
      (Token.isOpener_of_isSymbol h.1.1 (.inr rfl)) (by simp) (hg.plain _ (by simp [Token.kind_of_isSymbol h.1.1])))
        fun _ _ hc₂ => .keep hc₂
  · simp only [closureFollows, Bool.and_eq_true] at h
    exact .bind hc₁ (closureRule_walks hf hc₁ (hg.plain _ (by simp [Token.kind_of_isSymbol h.1.1])) h.1.1)
      fun _ _ hc₂ => .keep hc₂
  · simp only [isMarks, Bool.and_eq_true, beq_iff_eq] at h
    obtain ⟨m, x, hx⟩ := List.exists_cons_of_ne_nil
      (hc₁.sound.placed_peek (by simp [h.1.1])).text_ne_nil
    have hm := List.all_eq_true.mp h.1.2 m (by simp [hx])
    refine .consumePart_bind (m := m) hc₁ h.1.1 (by simp [hx]) ?_ (fun t ht => hg.plain t (by simp [ht]))
      fun _ _ hc₂ => .keep hc₂
    simp only [Bool.or_eq_true, beq_iff_eq] at hm
    rcases hm with rfl | rfl <;> rfl

theorem operandRule_walks (hc : Amid c₀ (e :: es) (n + 1) c) : Parser.Walks loose (e :: es) g.operandRule c := by
  unfold operandRule
  refine .get_bind ?_
  extract_lets start next inner
  have hinner : ∀ c₁ : Cursor, Amid c₀ (e :: es) n c₁ → Parser.Walks loose (e :: es) (inner ()) c₁ := fun c₁ hc₁ =>
    .sliceFrom_bind (.bind hc₁ (hg.operand hc₁) fun _ _ hc₂ => .keep hc₂)
  refine .ite (fun h => ?_) fun _ => .ite (fun h => ?_) fun _ => .ite (fun h => ?_) fun _ => ?_
  · simp only [Bool.and_eq_true] at h
    refine .skip_bind hc (Token.not_bracket_of_identifier h.1) (hg.of_quiet _ (idle_of_isIdentifierIn h.1)) fun hc₁ =>
      .ite (fun h => ?_) fun _ => hinner _ hc₁
    simp only [Bool.and_eq_true] at h
    obtain ⟨hk, m, hm, hmark⟩ := Token.mark_of_isMark (t := (c.advance 1).peek)
      (by rw [Cursor.peek_advance]; exact h.1.2)
    exact .consumePart_bind (hc₁.mono n.le_succ) hk hm hmark (fun t ht => hg.plain t (by simp [ht]))
      fun _ _ hc₂ => hinner _ hc₂
  · simp only [start, Bool.and_eq_true, beq_iff_eq] at h
    exact .skip_bind hc (Token.not_bracket_of_kind (by simp [h.1])) (hg.plain _ (by simp [h.1])) fun hc₁ => .pure hc₁
  · simp only [start, Bool.and_eq_true, beq_iff_eq] at h
    exact .skip_bind hc (Token.not_bracket_of_kind (by simp [h.1])) (hg.plain _ (by simp [h.1])) fun hc₁ =>
      .bind hc₁ (hg.operand hc₁) fun _ _ hc₂ => .keep hc₂
  · exact .bind hc (primary_walks hg hc) fun _ _ hc₁ => suffixes_walks hg hc₁ _ _

theorem sequenceTail_walks (hc : Amid c₀ (e :: es) (n + 1) c) : Parser.Walks loose (e :: es) g.sequenceTail c := by
  unfold sequenceTail
  refine .get_bind ?_
  extract_lets t target operand
  have htarget : ∀ link (c₁ : Cursor), Amid c₀ (e :: es) n c₁ → Parser.Walks loose (e :: es) (target link) c₁ :=
    fun _ c₁ hc₁ => .current_bind (.bind hc₁ ((hg.type hc₁).mono hg.of_quiet) fun _ _ hc₂ => .keep hc₂)
  have hoperand : ∀ link (c₁ : Cursor), Amid c₀ (e :: es) n c₁ → Parser.Walks loose (e :: es) (operand link) c₁ :=
    fun _ c₁ hc₁ => .bind hc₁ (operandRule_walks hg (hc₁.mono n.le_succ)) fun _ _ hc₂ => .pure hc₂
  refine .ite (fun h => ?_) fun _ => .ite (fun h => ?_) fun _ => .pure hc
  · simp only [Bool.and_eq_true] at h
    exact .skip_bind hc (Token.not_bracket_of_identifier h.1) (hg.of_quiet _ (idle_of_isIdentifierIn h.1)) fun hc₁ =>
      .ite (fun _ => .bind hc₁ (castModifier_walks hg.plain hc₁) fun _ _ hc₂ => .sliceFrom_bind (htarget _ _ hc₂))
        fun _ => htarget _ _ hc₁
  · simp only [t, Bool.and_eq_true, beq_iff_eq] at h
    refine .skip_bind hc (Token.not_bracket_of_kind (by simp [h.1])) (hg.plain _ (by simp [h.1])) fun hc₁ => .ite
      (fun _ => ?_) fun _ => hoperand _ _ hc₁
    exact .bind hc₁ (hg.expression hc₁) fun _ _ hc₂ => .expect_bind (hc₂.mono n.le_succ) rfl (by decide)
      (fun t ht => hg.of_quiet t (idle_of_isSymbol ht (by decide))) fun hc₃ => .sliceFrom_bind (hoperand _ _ hc₃)

theorem expressionRule_walks (hc : Amid c₀ (e :: es) (n + 1) c) : Parser.Walks loose (e :: es) g.expressionRule c :=
  .current_bind (.bind hc (operandRule_walks hg hc) fun _ _ hc₁ => .bind hc₁
    (.collect hc₁ fun _ hc₂ => sequenceTail_walks hg hc₂) fun _ _ hc₂ =>
      .ite (fun _ => .pure hc₂) fun _ => .keep hc₂)

end Expressions

section Levels

/-- Macros are read the same at all levels that there is room for. -/
theorem expansionRule_upTo (hs : c.Sound) (hr : c.room < n + 1) : (upTo n).expansionRule c = Parser.expansion c := by
  have hlevel := above_terminating (upTo 0) (upTo 1) n
  have hsame := (expansionRule_advancing hlevel c hs.sized hr).1
  have hends := (Terminates.of_terminating (fun _ _ _ hg => (expansionRule_advancing hg).terminating) hs.sized).levels
    (upTo 0) (n + 1) hr
  rw [above_add, above_succ, show level (above (upTo 0) 0) = upTo 1 from rfl] at hends
  rw [upTo_eq_above, ← hsame, hends]
  rfl

/-- Where each macro that is not loose is read with a closure behind it, all rules take what may stand outside. -/
theorem upTo_walks (hplain : ∀ t : Token, t.kind ≠ .poundName → loose t = true)
    (hcalls : ∀ (c c' : Cursor) (x : MacroExpansion), c₀.Rereads c → loose c.peek = false →
      Parser.expansion c = .ok x c' → x.trailing.isSome = true) (n : Nat) : (upTo n).Walks c₀ loose n := by
  have hat : ∀ (n : Nat) {es : List Token} {c c' : Cursor} {x : MacroExpansion}, Amid c₀ es (n + 1) c →
      loose c.peek = false → (upTo n).expansionRule c = .ok x c' → x.trailing.isSome = true := fun n _ c c' x hc hloose h =>
    hcalls c c' x hc.rereads hloose (by rwa [expansionRule_upTo hc.sound hc.room] at h)
  induction n with
  | zero =>
    exact ⟨upTo_fences 0, hplain, hat 0, fun hc => absurd hc.room (Nat.not_lt_zero _),
      fun hc => absurd hc.room (Nat.not_lt_zero _), fun hc => absurd hc.room (Nat.not_lt_zero _),
      fun hc => absurd hc.room (Nat.not_lt_zero _)⟩
  | succ n ih =>
    exact ⟨upTo_fences (n + 1), hplain, hat (n + 1), fun hc => typeRule_walks ih hc, fun hc => constraintRule_walks ih hc,
      fun hc => expressionRule_walks ih hc, fun hc => operandRule_walks ih hc⟩

end Levels

end Grammar

end SwiftMacros
