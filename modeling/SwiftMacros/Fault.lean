import SwiftMacros.Token.Basic
import SwiftMacros.Text.Quoted

/-! Why a text is not accepted as source. A fault is a cause; a `SyntaxError` places it at a line
and column, and its message states both. -/

namespace SwiftMacros

/-- What the parser was looking for when it met another token. -/
inductive Wanted where
  | type
  | expression
  | mark (text : Text)
  | closer
  | groupName (keyword : Text)
  | memberBlock (name : Text)
  | memberBlockEnd
  | pattern
  | tupleTypeSeparator
  | effectArrow
  | specialization
  | controlBody (keyword : Text)
  | listSeparator (last : Text)
  | closureParameterName
  | closureIn
  | captureSeparator
  | closureParameter
  | closureParameterSeparator
  | closureEnd
  deriving DecidableEq, Repr, Inhabited

def Wanted.message : Wanted → Text
  | type => "Expected type".toList
  | expression => "Expected expression".toList
  | mark text => "Expected '".toList ++ text ++ "'".toList
  | closer => "Unbalanced brackets".toList
  | groupName keyword => "Expected a name after '".toList ++ keyword ++ "'".toList
  | memberBlock name => "Expected member block for '".toList ++ name ++ "'".toList
  | memberBlockEnd => "Unterminated member block".toList
  | pattern => "Expected a variable pattern".toList
  | tupleTypeSeparator => "Expected ',' or ')' in tuple type".toList
  | effectArrow => "Expected '->' after function type effects".toList
  | specialization => "Not a generic specialization".toList
  | controlBody keyword => "Expected '\x7b' in '".toList ++ keyword ++ "' expression".toList
  | .listSeparator last => "Expected ',' or '".toList ++ last ++ "'".toList
  | closureParameterName => "Expected closure parameter name".toList
  | closureIn => "Expected 'in' after closure signature".toList
  | captureSeparator => "Expected ',' or ']' in capture list".toList
  | closureParameter => "Expected closure parameter".toList
  | closureParameterSeparator => "Expected ',' or ')' in closure parameters".toList
  | closureEnd => "Unterminated closure".toList

inductive Fault where
  | unexpectedCharacter (c : Char)
  | unterminatedComment
  | unterminatedString
  | unterminatedInterpolation
  | unexpectedToken (wanted : Text) (kind : Token.Kind) (got : Text)
  | unmet (wanted : Wanted) (got : Text)
  | notAttribute (got : Text)
  | notExpansion (got : Text)
  | notTypeDeclaration
  | trailingToken (text : Text)
  | noTokenAt (offset : Int)
  | stalled
  deriving DecidableEq, Repr, Inhabited

def Fault.message : Fault → Text
  | unexpectedCharacter c => "Unexpected character ".toList ++ Text.quoted [c]
  | unterminatedComment => "Unterminated block comment".toList
  | unterminatedString => "Unterminated string literal".toList
  | unterminatedInterpolation => "Unterminated string interpolation".toList
  | unexpectedToken wanted kind got =>
    "Expected '".toList ++ wanted ++ "', got ".toList ++ kind.name.toList ++ " ('".toList ++ got ++
      "')".toList
  | unmet wanted got =>
    wanted.message ++ ", got '".toList ++ (if got.isEmpty then "EOF".toList else got) ++ "'".toList
  | notAttribute got => "Expected attribute, got '".toList ++ got ++ "'".toList
  | notExpansion got => "Expected macro expansion, got '".toList ++ got ++ "'".toList
  | notTypeDeclaration => "Expected a type declaration".toList
  | trailingToken text => "Unexpected trailing token '".toList ++ text ++ "'".toList
  | noTokenAt offset => "No token starts at offset ".toList ++ (toString offset).toList
  | stalled => "The parser made no progress".toList

/-- A fault at a line and column. Line 0 stands for a fault without a place. -/
structure SyntaxError where
  fault : Fault
  line : Nat := 0
  column : Nat := 0
  deriving DecidableEq, Repr, Inhabited

namespace SyntaxError

/-- The error at the first character of a token. -/
def locate (fault : Fault) (t : Token) : SyntaxError := ⟨fault, t.line, t.column⟩

def message (e : SyntaxError) : Text :=
  if e.line = 0 then e.fault.message
  else e.fault.message ++ " (line ".toList ++ Text.ofNat e.line ++ ", column ".toList ++
    Text.ofNat e.column ++ ")".toList

end SyntaxError

/-! Why a macro is not expanded at a site: the source there cannot be read, or the macro refuses
what it is given. -/

inductive Refusal where
  /-- A declaration other than a struct or a class. -/
  | unsupportedDeclaration (keyword : Text)
  /-- A closure macro without a closure behind it. -/
  | missingClosure (name : Text)
  deriving DecidableEq, Repr, Inhabited

def Refusal.message : Refusal → Text
  | unsupportedDeclaration keyword =>
    "Unsupported declaration kind: '".toList ++ keyword ++ "' (expected struct or class)".toList
  | missingClosure [] => "Expected a closure argument for macro".toList
  | missingClosure name => "Expected a closure argument for #".toList ++ name

/-- A refusal, and the place it concerns if that is known. -/
structure MacroError where
  refusal : Refusal
  line : Option Nat := none
  column : Option Nat := none
  deriving DecidableEq, Repr, Inhabited

def MacroError.message (e : MacroError) : Text := e.refusal.message

inductive SiteError where
  | unreadable (error : SyntaxError)
  | refused (error : MacroError)
  deriving DecidableEq, Repr, Inhabited

def SiteError.message : SiteError → Text
  | unreadable e => e.message
  | refused e => e.message

end SwiftMacros
