import Mathlib
import SwiftMacros.Library.Usual

/-! Messages that can be shown. A text that is escaped sets no style and closes none, but where it ends
with an open bracket, the first closing bracket behind it could make a tag of what is between. So a message
whose parts keep this apart can be shown, whatever the texts in it are. -/

namespace SwiftMacros

namespace Text

def isBracket (c : Char) : Bool := c == '[' || c == ']'

/-- The first bracket of a text does not close. -/
def Calm (t : Text) : Prop := t.find? isBracket ≠ some ']'

/-- Nothing in a text can be part of a tag. -/
def Plain (t : Text) : Prop := ∀ c ∈ t, isBracket c = false ∧ c ≠ '\\'

instance (t : Text) : Decidable (Calm t) := inferInstanceAs (Decidable (_ ≠ _))

instance (t : Text) : Decidable (Plain t) := List.decidableBAll _ t

theorem Plain.append {t u : Text} (ht : Plain t) (hu : Plain u) : Plain (t ++ u) :=
  List.forall_mem_append.mpr ⟨ht, hu⟩

theorem plain_ofNat (n : Nat) : Plain (ofNat n) := by
  intro c hc
  rw [ofNat, Nat.toString_eq_repr, Nat.toList_repr] at hc
  have hdigit := Nat.isDigit_of_mem_toDigits (by decide) (by decide) hc
  refine ⟨Bool.not_eq_true _ ▸ fun h => ?_, ?_⟩
  · rw [isBracket, Bool.or_eq_true, beq_iff_eq, beq_iff_eq] at h
    rcases h with rfl | rfl <;> exact absurd hdigit (by decide)
  · rintro rfl
    exact absurd hdigit (by decide)

theorem calm_of_forall {t : Text} (h : ∀ c ∈ t, isBracket c = false) : Calm t := by
  rw [Calm, List.find?_eq_none.mpr fun c hc => by simp [h c hc]]
  exact fun h => by cases h

end Text

namespace Console

open Text (Calm Plain)

/-- No part of a message closes a bracket that is not opened in it. -/
def CalmParts : List Part → Prop
  | [] => True
  | .words _ :: ps => CalmParts ps
  | .shown t :: ps => Calm t ∧ CalmParts ps
  | .path _ :: _ => True
  | .markup _ :: _ => False

/-- Words divide a text that is shown from whatever follows. -/
def Divided : List Part → Prop
  | [] => True
  | .words t :: ps => t ≠ [] ∧ CalmParts ps
  | _ => False

/-- The parts of a message keep apart. -/
def Fit : List Part → Prop
  | [] => True
  | .words t :: ps => Plain t ∧ Fit ps
  | .shown _ :: ps => Divided ps ∧ Fit ps
  | .path _ :: ps => Fit ps
  | .markup _ :: _ => False

/-- Messages whose parts keep apart can be shown. -/
structure Lawful (c : Console) : Prop where
  shows : ∀ ps, Fit ps → (c.render (c.message ps)).isSome = true

end Console

namespace Markup

open Text (isBracket Calm Plain)

variable {t r : Text} {c : Char} {styles : List Text}

def isSlash (c : Char) : Bool := c == '\\'

theorem drop_takeWhile (p : Char → Bool) (t : Text) : t.drop (t.takeWhile p).length = t.dropWhile p := by
  induction t with
  | nil => rfl
  | cons c t ih => by_cases hc : p c = true <;> simp [hc, ih]

/-- What is left of the pieces behind some characters of a tag. -/
theorem piecesFrom_skip (n : Nat) (t : Text) : piecesFrom n t = pieces (t.drop n) := by
  induction t generalizing n with
  | nil => simp [pieces, piecesFrom]
  | cons c t ih =>
    cases n with
    | zero => rfl
    | succ n => simp [piecesFrom, ih]

/-- A tag ends at the first bracket behind its start, which closes. -/
theorem tag_eq_some_iff {tag : Text} : tag? t = some tag ↔ ∃ c body r,
    t = '[' :: c :: (body ++ ']' :: r) ∧ startsTag c = true ∧ (∀ d ∈ body, isBracket d = false) ∧
      tag = '[' :: c :: body ++ [']'] := by
  have hbracket : ∀ d : Char, decide (d ≠ '[' ∧ d ≠ ']') = !isBracket d := fun d => by
    rw [Bool.decide_and, isBracket, Bool.not_or, decide_not, decide_not]
    rfl
  constructor
  · intro h
    unfold tag? at h
    split at h
    next c u =>
      simp only [hbracket, Option.ite_none_right_eq_some, Option.some.injEq, Bool.and_eq_true,
        beq_iff_eq] at h
      obtain ⟨⟨hstart, hclose⟩, rfl⟩ := h
      obtain ⟨r, hr⟩ := List.head?_eq_some_iff.mp hclose
      refine ⟨c, u.takeWhile (!isBracket ·), r, ?_, hstart, fun d hd => ?_, rfl⟩
      · rw [← hr, drop_takeWhile, List.takeWhile_append_dropWhile]
      · simpa using List.mem_takeWhile_imp hd
    next => cases h
  · rintro ⟨c, body, r, rfl, hstart, hbody, rfl⟩
    have htake : (body ++ ']' :: r).takeWhile (!isBracket ·) = body := by
      rw [List.takeWhile_append_of_pos fun d hd => by simp [hbody d hd]]
      simp [isBracket]
    rw [tag?]
    simp only [hbracket, htake, hstart, List.drop_left]
    rfl

theorem find_eq_close_iff {u : Text} : u.find? isBracket = some ']' ↔
    ∃ body r, u = body ++ ']' :: r ∧ ∀ d ∈ body, isBracket d = false := by
  rw [List.find?_eq_some_iff_append]
  simp [isBracket]

/-- A bracket that opens starts a tag if a tag can start behind it and the next bracket closes. -/
theorem tag_isSome_iff : (tag? (c :: t)).isSome = true ↔
    c = '[' ∧ ∃ d u, t = d :: u ∧ startsTag d = true ∧ u.find? isBracket = some ']' := by
  rw [Option.isSome_iff_exists]
  simp only [tag_eq_some_iff, find_eq_close_iff]
  constructor
  · rintro ⟨-, d, body, r, heq, hstart, hbody, -⟩
    obtain ⟨rfl, rfl⟩ := List.cons.inj heq
    exact ⟨rfl, d, _, rfl, hstart, body, r, rfl, hbody⟩
  · rintro ⟨rfl, d, -, rfl, hstart, body, r, rfl, hbody⟩
    exact ⟨_, d, body, r, rfl, hstart, hbody, rfl⟩

theorem tag_eq_none_of_ne (hc : c ≠ '[') : tag? (c :: t) = none :=
  Option.not_isSome_iff_eq_none.mp fun h => hc (tag_isSome_iff.mp h).1

/-- A text that starts with a tag behind backslashes. -/
theorem pieces_of_tag {n : Nat} {tag : Text} (h : tag? (tag ++ r) = some tag) :
    pieces (slashes n ++ tag ++ r) = .tag n tag :: pieces r := by
  obtain ⟨c, body, -, -, -, -, rfl⟩ := tag_eq_some_iff.mp h
  generalize htag : '[' :: c :: body ++ [']'] = tag at h ⊢
  have hslashes : ((slashes n ++ tag ++ r).takeWhile isSlash).length = n := by
    rw [← htag, List.append_assoc, List.takeWhile_append_of_pos fun d hd => by
      rw [List.eq_of_mem_replicate hd]; rfl]
    simp [isSlash, slashes]
  have hdrop : ∀ k, (slashes n ++ tag ++ r).drop (n + k) = (tag ++ r).drop k := fun k => by
    rw [← List.drop_drop, List.append_assoc, slashes, List.drop_left' (List.length_replicate ..)]
  obtain ⟨d, t, hdt⟩ : ∃ d t, slashes n ++ tag ++ r = d :: t :=
    List.exists_cons_of_ne_nil (by simp [← htag])
  have hrest : t.drop (n + tag.length - 1) = r := by
    have hall := hdrop tag.length
    rw [hdt, List.drop_left] at hall
    rwa [← List.drop_succ_cons (a := d), Nat.sub_add_cancel (by simp [← htag]; omega)]
  have hhere := hdrop 0
  rw [hdt, Nat.add_zero, List.drop_zero] at hhere
  rw [hdt] at hslashes ⊢
  have htag : tag? ((d :: t).drop ((d :: t).takeWhile (· == '\\')).length) = some tag := by
    rw [show ((d :: t).takeWhile (· == '\\')).length = n from hslashes, hhere]
    exact h
  rw [pieces, piecesFrom, if_neg (Nat.lt_irrefl 0)]
  dsimp only
  rw [htag]
  dsimp only
  rw [show ((d :: t).takeWhile (· == '\\')).length = n from hslashes, piecesFrom_skip, hrest]

theorem pieces_of_char (h : tag? ((c :: t).dropWhile isSlash) = none) :
    pieces (c :: t) = consChar c (pieces t) := by
  have htag : tag? ((c :: t).drop ((c :: t).takeWhile (· == '\\')).length) = none :=
    drop_takeWhile isSlash (c :: t) ▸ h
  rw [pieces, piecesFrom, if_neg (Nat.lt_irrefl 0)]
  dsimp only
  rw [htag]
  rfl

/-- Every text is empty, starts with a tag behind backslashes, or starts with a character that is no part
of one. -/
theorem pieces_cases (t : Text) : t = [] ∨
    (∃ n tag r, t = slashes n ++ tag ++ r ∧ tag? (tag ++ r) = some tag) ∨
    ∃ c u, t = c :: u ∧ tag? ((c :: u).dropWhile isSlash) = none := by
  cases t with
  | nil => exact .inl rfl
  | cons c u =>
    cases htag : tag? ((c :: u).dropWhile isSlash) with
    | none => exact .inr (.inr ⟨c, u, rfl, htag⟩)
    | some tag =>
      obtain ⟨d, body, r, hr, -, -, rfl⟩ := tag_eq_some_iff.mp htag
      have hslashes : (c :: u).takeWhile isSlash = slashes ((c :: u).takeWhile isSlash).length :=
        List.eq_replicate_of_mem fun d hd => by simpa [isSlash] using List.mem_takeWhile_imp hd
      have hrest : '[' :: d :: body ++ [']'] ++ r = (c :: u).dropWhile isSlash := by simp [hr]
      refine .inr (.inl ⟨((c :: u).takeWhile isSlash).length, _, r, ?_, hrest.symm ▸ htag⟩)
      rw [List.append_assoc, hrest, ← hslashes, List.takeWhile_append_dropWhile]

/-- The escaped pieces of a text. -/
def marked (t : Text) : Text := (pieces t).flatMap Piece.escape

theorem marked_of_tag {n : Nat} {tag : Text} (h : tag? (tag ++ r) = some tag) :
    marked (slashes n ++ tag ++ r) = slashes (2 * n + 1) ++ tag ++ marked r := by
  rw [marked, pieces_of_tag h]
  rfl

theorem marked_of_char (h : tag? ((c :: t).dropWhile isSlash) = none) :
    marked (c :: t) = c :: marked t := by
  rw [marked, pieces_of_char h, marked]
  cases hp : pieces t with
  | nil => rfl
  | cons p ps => cases p <;> rfl

/-- Escaping puts nothing but backslashes in front of brackets. -/
theorem find_marked (t r : Text) :
    (marked t ++ r).find? isBracket = (t.find? isBracket).or (r.find? isBracket) := by
  induction t with
  | nil => simp [marked, pieces, piecesFrom]
  | cons c t ih =>
    rcases pieces_cases (c :: t) with hnil | ⟨n, tag, r', heq, htag⟩ | ⟨d, u, heq, htag⟩
    · cases hnil
    · rw [heq, marked_of_tag htag]
      obtain ⟨d, body, -, -, -, -, rfl⟩ := tag_eq_some_iff.mp htag
      have hslashes : ∀ k, (slashes k).find? isBracket = none := fun k =>
        List.find?_eq_none.mpr fun d hd => by
          rw [List.eq_of_mem_replicate hd]
          decide
      simp [List.find?_append, hslashes, isBracket]
    · obtain ⟨rfl, rfl⟩ := List.cons.inj heq
      rw [marked_of_char htag, List.cons_append, List.find?_cons, List.find?_cons, ih]
      cases isBracket c <;> rfl

/-- The styles that are open behind a markup text. -/
def stylesAfter (styles : List Text) (t : Text) : Option (List Text) := openStyles styles (pieces t)

theorem stylesAfter_of_char (h : tag? ((c :: t).dropWhile isSlash) = none) :
    stylesAfter styles (c :: t) = stylesAfter styles t := by
  rw [stylesAfter, pieces_of_char h, stylesAfter]
  cases hp : pieces t with
  | nil => rfl
  | cons p ps => cases p <;> rfl

/-- Plain characters open and close nothing. -/
theorem stylesAfter_plain (ht : Plain t) : stylesAfter styles (t ++ r) = stylesAfter styles r := by
  induction t with
  | nil => rfl
  | cons c t ih =>
    obtain ⟨hbracket, hslash⟩ := ht c List.mem_cons_self
    rw [List.cons_append, stylesAfter_of_char, ih fun d hd => ht d (List.mem_cons_of_mem c hd)]
    rw [List.dropWhile_cons_of_neg (by simpa [isSlash] using hslash)]
    exact tag_eq_none_of_ne (by rintro rfl; exact absurd hbracket (by decide))

/-- Where a text has no tag, escaping it makes none, whatever calm text follows. -/
theorem tag_marked (hr : Calm r) (h : tag? (t.dropWhile isSlash) = none) :
    (marked t).dropWhile isSlash = [] ∨ tag? ((marked t ++ r).dropWhile isSlash) = none := by
  induction t with
  | nil => exact .inl rfl
  | cons c t ih =>
    rw [marked_of_char h, List.cons_append]
    by_cases hc : isSlash c = true
    · rw [List.dropWhile_cons_of_pos hc] at h ⊢
      rw [List.dropWhile_cons_of_pos hc]
      exact ih h
    · rw [List.dropWhile_cons_of_neg hc] at h ⊢
      rw [List.dropWhile_cons_of_neg hc]
      refine .inr (Option.not_isSome_iff_eq_none.mp fun hsome => ?_)
      obtain ⟨rfl, d, u, heq, hstart, hclose⟩ := tag_isSome_iff.mp hsome
      rcases pieces_cases t with rfl | ⟨n, tag, r', rfl, htag⟩ | ⟨e, v, rfl, htag⟩
      · -- the closing bracket would stand in `r`
        have hd : isBracket d = false := by
          by_contra hd
          rw [Bool.not_eq_false, isBracket, Bool.or_eq_true, beq_iff_eq, beq_iff_eq] at hd
          rcases hd with rfl | rfl <;> exact absurd hstart (by decide)
        refine hr ?_
        rw [show r = d :: u from heq, List.find?_cons_of_neg (by simp [hd]), hclose]
      · rw [marked_of_tag htag] at heq
        obtain ⟨rfl, -⟩ := List.cons.inj heq
        exact absurd hstart (by decide)
      · rw [marked_of_char htag] at heq
        obtain ⟨rfl, rfl⟩ := List.cons.inj heq
        replace hclose := (find_marked v r).symm.trans hclose
        have hsome : (tag? ('[' :: e :: v)).isSome = true := by
          refine tag_isSome_iff.mpr ⟨rfl, e, v, rfl, hstart, ?_⟩
          cases hv : v.find? isBracket with
          | none => exact absurd (by simpa [hv] using hclose) hr
          | some b => simpa [hv] using hclose
        rw [h] at hsome
        cases hsome

/-- An escaped text opens and closes nothing. The backslashes at its end are left for what follows. -/
theorem stylesAfter_marked (styles : List Text) (hr : Calm r) (t : Text) :
    ∃ n, stylesAfter styles (marked t ++ r) = stylesAfter styles (slashes n ++ r) := by
  induction hn : t.length using Nat.strongRecOn generalizing t with
  | ind n ih =>
    rcases pieces_cases t with rfl | ⟨k, tag, r', rfl, htag⟩ | ⟨c, u, rfl, htag⟩
    · exact ⟨0, rfl⟩
    · obtain ⟨d, body, v, hv, hstart, hbody, rfl⟩ := tag_eq_some_iff.mp htag
      have hhere : tag? ('[' :: d :: body ++ [']'] ++ (marked r' ++ r)) = some ('[' :: d :: body ++ [']']) :=
        tag_eq_some_iff.mpr ⟨d, body, marked r' ++ r, by simp, hstart, hbody, rfl⟩
      have hlt : r'.length < n := by
        simp only [← hn, List.length_append, List.length_cons]
        omega
      obtain ⟨m, hm⟩ := ih r'.length hlt r' rfl
      refine ⟨m, ?_⟩
      rw [← hm, marked_of_tag htag, List.append_assoc _ (marked r'), stylesAfter, pieces_of_tag hhere,
        openStyles, if_pos (by omega), stylesAfter]
    · rcases tag_marked hr htag with hslashes | hnone
      · refine ⟨(marked (c :: u)).length, ?_⟩
        have hall : marked (c :: u) = slashes (marked (c :: u)).length :=
          List.eq_replicate_of_mem fun d hd => by
            simpa [isSlash] using List.dropWhile_eq_nil_iff.mp hslashes d hd
        rw [← hall]
      · obtain ⟨m, hm⟩ := ih u.length (by rw [← hn]; simp) u rfl
        refine ⟨m, ?_⟩
        rw [marked_of_char htag, List.cons_append] at hnone
        rw [marked_of_char htag, ← hm]
        exact stylesAfter_of_char hnone

theorem stylesAfter_escape (styles : List Text) (hr : Calm r) (t : Text) :
    ∃ n, stylesAfter styles (escape t ++ r) = stylesAfter styles (slashes n ++ r) := by
  rw [escape]
  split
  · obtain ⟨n, hn⟩ := stylesAfter_marked styles (r := '\\' :: r)
      (by simpa [Calm, List.find?_cons, isBracket] using hr) t
    refine ⟨n + 1, ?_⟩
    rw [List.append_assoc, List.singleton_append]
    refine hn.trans ?_
    rw [slashes, slashes, List.replicate_succ', List.append_assoc, List.singleton_append]
  · exact stylesAfter_marked styles hr t

theorem find_escape (t r : Text) :
    (escape t ++ r).find? isBracket = (t.find? isBracket).or (r.find? isBracket) := by
  rw [escape]
  split
  · rw [List.append_assoc]
    exact find_marked t ('\\' :: r)
  · exact find_marked t r

theorem find_plain (ht : Plain t) : (t ++ r).find? isBracket = r.find? isBracket := by
  rw [List.find?_append, List.find?_eq_none.mpr fun d hd => by simp [(ht d hd).1], Option.none_or]

theorem calm_message {ps : List Console.Part} (h : Console.Fit ps) (hc : Console.CalmParts ps) :
    Calm (console.message ps) := by
  induction ps with
  | nil => exact fun h => by cases h
  | cons p ps ih =>
    rw [Console.message, List.flatMap_cons, Calm]
    cases p with
    | words t =>
      rw [Console.part, find_plain h.1]
      exact ih h.2 hc
    | shown t =>
      change (escape t ++ console.message ps).find? isBracket ≠ some ']'
      rw [find_escape]
      cases ht : t.find? isBracket with
      | none => exact ih h.2 hc.2
      | some b => exact fun hb => hc.1 (ht.trans hb)
    | path t => exact fun h => by cases h
    | markup t => exact absurd h id

/-- Backslashes in front of plain characters are none of a tag. -/
theorem stylesAfter_divided {ps : List Console.Part} (h : Console.Fit ps) (hd : Console.Divided ps)
    (n : Nat) : stylesAfter styles (slashes n ++ console.message ps) =
      stylesAfter styles (console.message ps) := by
  have hnone : ∀ k, tag? ((slashes k ++ console.message ps).dropWhile isSlash) = none := by
    intro k
    rw [slashes, List.dropWhile_append_of_pos fun d hd => by rw [List.eq_of_mem_replicate hd]; rfl]
    match ps, hd with
    | [], _ => rfl
    | .words (c :: t) :: ps, _ =>
      obtain ⟨hbracket, hslash⟩ := h.1 c List.mem_cons_self
      change tag? ((c :: (t ++ console.message ps)).dropWhile isSlash) = none
      rw [List.dropWhile_cons_of_neg (by simpa [isSlash] using hslash)]
      exact tag_eq_none_of_ne (by rintro rfl; exact absurd hbracket (by decide))
    | .words [] :: ps, hd => exact absurd rfl hd.1
  induction n with
  | zero => rfl
  | succ n ih => exact (stylesAfter_of_char (hnone (n + 1))).trans ih

/-- The messages of the usual library whose parts keep apart close no style but those they open. -/
theorem stylesAfter_message {ps : List Console.Part} (h : Console.Fit ps) (styles : List Text) :
    (stylesAfter styles (console.message ps)).isSome = true := by
  induction ps generalizing styles with
  | nil => rfl
  | cons p ps ih =>
    cases p with
    | words t =>
      change (stylesAfter styles (t ++ console.message ps)).isSome = true
      rw [stylesAfter_plain h.1]
      exact ih h.2 styles
    | shown t =>
      have hcalm : Calm (console.message ps) := by
        match ps, h.1 with
        | [], _ => exact fun h => by cases h
        | .words t :: ps, hd => exact calm_message h.2 hd.2
      obtain ⟨n, hn⟩ := stylesAfter_escape styles hcalm t
      change (stylesAfter styles (escape t ++ console.message ps)).isSome = true
      rw [hn, stylesAfter_divided h.2 h.1]
      exact ih h.2 styles
    | path t =>
      -- the style that is opened is closed again, unless backslashes at the end of the path hide that
      have hopen : stylesAfter styles (console.message (.path t :: ps)) =
          stylesAfter ("path".toList :: styles) (escape t ++ ("[/path]".toList ++ console.message ps)) := by
        have htext : console.message (.path t :: ps) = slashes 0 ++ "[path]".toList ++
            (escape t ++ ("[/path]".toList ++ console.message ps)) := by
          simp [Console.message, Console.part, console, slashes]
        rw [htext, stylesAfter, pieces_of_tag rfl]
        rfl
      obtain ⟨n, hn⟩ := stylesAfter_escape ("path".toList :: styles)
        (r := "[/path]".toList ++ console.message ps) (fun h => by cases h) t
      rw [hopen, hn, stylesAfter, ← List.append_assoc, pieces_of_tag rfl, openStyles]
      split
      · exact ih h _
      · exact ih h styles
    | markup t => exact absurd h id

theorem console_lawful : console.Lawful where
  shows ps h := by
    have hstyles := stylesAfter_message h []
    rw [stylesAfter] at hstyles
    change (render? _).isSome = true
    rw [render?, Option.isSome_map]
    exact hstyles

end Markup

end SwiftMacros
