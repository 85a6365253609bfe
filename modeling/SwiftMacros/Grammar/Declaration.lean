import SwiftMacros.Grammar.Expression

/-! The grammar of declarations. The header of a type declaration is passed over up to its member
block. A member other than a variable is passed over too: it ends before a semicolon, a closing
brace, or a new line that starts another member. -/

namespace SwiftMacros.Grammar

open SwiftMacros.Parser

def groupKeywords : List String := ["struct", "class", "enum", "protocol", "extension", "actor"]

def memberKeywords : List String :=
  ["var", "let", "func", "init", "deinit", "subscript", "typealias", "associatedtype", "case",
    "import", "operator", "precedencegroup", "macro"] ++ groupKeywords

def modifierWords : List String :=
  ["public", "private", "fileprivate", "internal", "package", "open", "static", "class", "lazy",
    "weak", "unowned", "final", "override", "mutating", "nonmutating", "dynamic", "optional",
    "required", "convenience", "indirect", "nonisolated", "isolated", "prefix", "postfix", "infix"]

/-- The modifiers that can have a detail in parentheses. -/
def detailedModifiers : List String :=
  ["public", "private", "fileprivate", "internal", "package", "open", "unowned"]

def isDeclarationWord (t : Token) : Bool :=
  t.isIdentifierIn memberKeywords || t.isIdentifierIn modifierWords

/-- Whether the word at the cursor is a modifier: an attribute, a keyword or another modifier must
follow it. -/
def modifierFollows (c : Cursor) : Bool :=
  let t := c.peek
  let paren := c.peek 1
  let hasDetail := t.isIdentifierIn detailedModifiers && paren.isSymbol "(" && !paren.spaceBefore
  let next := c.peek (if hasDetail then 4 else 1)
  t.isIdentifierIn modifierWords && (next.kind == .atName || isDeclarationWord next)

/-- A modifier. The attributes behind it are passed over. -/
def modifierRule (g : Grammar) : Parser Modifier := do
  let t ← consume
  let detail ←
    if t.isIdentifierIn detailedModifiers && parenFollows (← get) then do
      skip 1
      let detail ← consume
      let _ ← expect ")".toList
      pure (some detail.text)
    else pure none
  let text ← sliceFrom t
  let _ ← g.attributesRule
  return ⟨t.text, detail, text⟩

def modifiersRule (g : Grammar) : Parser (List Modifier) :=
  collectWhile modifierFollows g.modifierRule

/-- The number of tokens before the end of a binding that could not be read. -/
def bindingLength : Int → List Token → Nat
  | _, [] => 0
  | depth, t :: ts =>
    if depth = 0 ∧ (t.newlineBefore ∨ t.isSymbolIn [",", ";", "\x7d"]) then 0
    else
      1 + bindingLength
        (if t.isOpener then depth + 1 else if t.isCloser then depth - 1 else depth) ts

/-- What `p` reads, or else the rest of the binding as `raw` has it. -/
def orRest {α : Type} (p : Parser α) (raw : Text → α) : Parser α := do
  let start ← current
  match ← attempt p with
  | some a => return a
  | none =>
    let c ← get
    skip (bindingLength 0 c.ahead)
    return raw (← sliceFrom start)

/-- A binding: its pattern, and as far as they follow a type, an initializer and accessors. -/
def bindingRule (g : Grammar) : Parser Binding := do
  let first ← current
  let name ←
    if first.kind == .identifier then pure (some (← consume).text)
    else if first.isSymbol "(" then do
      skipBalanced
      pure none
    else fail .pattern
  let pattern ← sliceFrom first
  let type ←
    if (← current).isSymbol ":" then do
      skip 1
      pure (some (← orRest g.type .raw))
    else pure none
  let initializer ←
    if (← current).has .operator "=" then do
      skip 1
      pure (some (← orRest g.expression .raw))
    else pure none
  let brace ← current
  let accessors ←
    if brace.isSymbol "\x7b" && !brace.newlineBefore then do
      skipBalanced
      pure (some (← sliceFrom brace))
    else pure none
  return ⟨pattern, name, type, initializer, accessors, ← sliceFrom first⟩

/-- The number of tokens that a member takes which is passed over; `inside` tells that some are
taken already, and `depth` how many brackets are open. -/
def memberLength (inside : Bool) (depth : Nat) : List Token → Nat
  | [] => 0
  | t :: ts =>
    let startsMember := t.kind == .atName || t.kind == .poundName || isDeclarationWord t
    if depth = 0 ∧ inside ∧ (t.isSymbolIn ["\x7d", ";"] ∨ (t.newlineBefore ∧ startsMember)) then 0
    else if t.isOpener then 1 + memberLength true (depth + 1) ts
    else if t.isCloser then
      match depth with
      | 0 => 0
      | d + 1 => 1 + memberLength true d ts
    else 1 + memberLength true depth ts

/-- A member behind its attributes and modifiers, which begin at `start`. -/
def memberBody (g : Grammar) (start : Token) (attributes : List Attribute)
    (modifiers : List Modifier) : Parser Member := do
  let t ← current
  if t.isIdentifierIn ["var", "let"] then
    skip 1
    let bindings ← separated g.bindingRule
    return .binding ⟨t.text, bindings, modifiers, attributes, ← sliceFrom start⟩
  else
    let c ← get
    skip (memberLength false 0 c.ahead)
    let c ← get
    return .other t.text (if c.position = 0 then [] else c.sliceFrom start)

def memberRule (g : Grammar) : Parser Member := do
  let start ← current
  let attributes ← g.attributesRule
  let modifiers ← g.modifiersRule
  g.memberBody start attributes modifiers

/-- The next members of a block: one, or none at a semicolon; nothing at the closing brace. A member
that takes no token is followed by one that is passed over. -/
def blockItem (g : Grammar) : Parser (Option (List Member)) := do
  let c ← get
  if c.peek.isSymbol "\x7d" then return none
  else if c.isEof then fail .memberBlockEnd
  else if c.peek.isSymbol ";" then
    skip 1
    return some []
  else
    let member ← g.memberRule
    if (← get).position = c.position then skip 1
    return some [member]

def memberBlockRule (g : Grammar) : Parser MemberBlock := do
  let first ← expect "\x7b".toList
  let members ← collect g.blockItem
  let last ← expect "\x7d".toList
  return ⟨members.flatten, ← sliceFrom first, first.start, last.stop⟩

/-- Passes over generic parameters, inheritance and `where` clauses. -/
def groupHeader (name : Text) : Parser Unit :=
  extend (fun _ => do
    let c ← get
    if c.peek.isSymbol "\x7b" then return none
    else if c.isEof then fail (.memberBlock name)
    else if c.peek.isOpener then do
      skipBalanced
      return some ()
    else do
      skip 1
      return some ()) ()

/-- A type declaration behind its attributes and modifiers, which begin at `start`. -/
def groupBody (g : Grammar) (start : Token) (attributes : List Attribute)
    (modifiers : List Modifier) : Parser Group := do
  let keyword ← consume
  if (← current).kind != .identifier then fail (.groupName keyword.text)
  let name ← consume
  groupHeader name.text
  let block ← g.memberBlockRule
  return {
    keyword := keyword.text
    name := name.text
    block
    attributes
    modifiers
    text := ← sliceFrom start
    start := start.start
    stop := block.stop
    line := start.line
    column := start.column }

def declarationRule (g : Grammar) : Parser Declaration := do
  let start ← current
  let attributes ← g.attributesRule
  let modifiers ← g.modifiersRule
  if (← current).isIdentifierIn groupKeywords then
    return .group (← g.groupBody start attributes modifiers)
  else return .member (← g.memberBody start attributes modifiers)

end SwiftMacros.Grammar
