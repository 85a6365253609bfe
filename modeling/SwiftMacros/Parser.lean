import SwiftMacros.Cursor

/-! Parsers: actions on a cursor that answer with a value or a syntax error. A failing parser leaves
the cursor where it failed; `attempt` moves it back. Repetition is bounded by the number of tokens
that those ahead can be split into: a split leaves it as it is, and every round of a loop takes a
token and makes it smaller. -/

namespace SwiftMacros

abbrev Parser := EStateM SyntaxError Cursor

namespace Parser

variable {α σ : Type}

def current : Parser Token := return (← get).peek

/-- The error of not finding `wanted` at the cursor. -/
def fail (wanted : Wanted) : Parser α := do
  let t ← current
  throw (.locate (.unmet wanted t.text) t)

def stall : Parser α := do throw (.locate .stalled (← current))

/-- Takes the token at the cursor. The end of the source can be taken any number of times. -/
def consume : Parser Token := do
  let c ← get
  set (c.advance 1)
  return c.peek

/-- Moves past `n` tokens. -/
def skip (n : Nat) : Parser Unit := modify (·.advance n)

/-- The source from `first` to the token taken last. -/
def sliceFrom (first : Token) : Parser Text := return (← get).sliceFrom first

/-- Takes a token that reads `text`. -/
def expect (text : Text) : Parser Token := do
  let c ← get
  if c.peek.reads text then consume
  else throw (.locate (.unexpectedToken text c.peek.kind c.peek.text) c.peek)

/-- Asks that all tokens have been taken. -/
def expectEof : Parser Unit := do
  let c ← get
  if c.isEof then return ()
  else throw (.locate (.trailingToken c.peek.text) c.peek)

/-- Runs `p`. If it fails, the cursor goes back; operators that it split stay split. -/
def attempt (p : Parser α) : Parser (Option α) := fun c =>
  match p c with
  | .ok a c' => .ok (some a) c'
  | .error _ c' => .ok none (c'.rewind c.position)

/-- Splits the operator at the cursor behind `n` characters and takes the first part. -/
def consumePart (n : Nat) : Parser Token := do
  modify (·.splitOperator n)
  consume

/-- Takes `text` from the front of the operator at the cursor. -/
def consumeOperator (text : String) : Parser Token := do
  if (← current).isOperatorWith text then consumePart text.length
  else fail (.mark text.toList)

/-- The items that `item` gives, until it gives none; at most `n` rounds. -/
def collectWithin (item : Parser (Option α)) : Nat → Parser (List α)
  | 0 => stall
  | n + 1 => do
    match ← item with
    | none => return []
    | some a => return a :: (← collectWithin item n)

def collect (item : Parser (Option α)) : Parser (List α) := do
  collectWithin item ((← get).room + 1)

/-- The items read by `item` as long as `more` holds at the cursor. -/
def collectWhile (more : Cursor → Bool) (item : Parser α) : Parser (List α) :=
  collect do
    if more (← get) then return some (← item) else return none

/-- Changes `s` by `step` until `step` gives none; at most `n` rounds. -/
def extendWithin (step : σ → Parser (Option σ)) : Nat → σ → Parser σ
  | 0, _ => stall
  | n + 1, s => do
    match ← step s with
    | none => return s
    | some s => extendWithin step n s

def extend (step : σ → Parser (Option σ)) (s : σ) : Parser σ := do
  extendWithin step ((← get).room + 1) s

/-- Items between two marks, with commas between them; a comma can follow the last. -/
def bracketed (first last : String) (separator : Wanted) (item : Parser α) : Parser (List α) := do
  let _ ← expect first.toList
  let items ← collectWhile (fun c => !c.peek.isSymbol last) do
    let a ← item
    let t ← current
    if t.isSymbol "," then skip 1
    else if !t.isSymbol last then fail separator
    return a
  let _ ← expect last.toList
  return items

/-- One item, and one more behind each comma. -/
def separated (item : Parser α) : Parser (List α) := do
  let first ← item
  let others ← collectWhile (·.peek.isSymbol ",") do
    skip 1
    item
  return first :: others

/-- The number of tokens from an opener to its closer, both included, where `depth` brackets are
open; none if the source ends first. -/
def balancedLength? : Int → List Token → Option Nat
  | _, [] => none
  | depth, t :: ts =>
    if t.isOpener then (balancedLength? (depth + 1) ts).map (· + 1)
    else if t.isCloser then
      if depth = 1 then some 1 else (balancedLength? (depth - 1) ts).map (· + 1)
    else (balancedLength? depth ts).map (· + 1)

/-- Moves past an opener and all tokens up to the closer that matches it. -/
def skipBalanced : Parser Unit := do
  let c ← get
  match balancedLength? 0 c.ahead with
  | some n => skip n
  | none =>
    skip c.ahead.length
    fail .closer

/-- Puts the cursor on the token that starts at `offset`. -/
def seek (offset : Int) : Parser Unit := do
  let c ← get
  match if 0 ≤ offset then c.seek? offset.toNat else none with
  | some found => set found
  | none => throw (SyntaxError.mk (.noTokenAt offset) 0 0)

end Parser

end SwiftMacros
