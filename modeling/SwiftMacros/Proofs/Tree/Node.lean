import Mathlib
import SwiftMacros.Tree.Declaration
import SwiftMacros.Tree.Render

/-! The trees of the grammar as nodes of one sort. A node shows its slice of the source, its place if
it knows one, the nodes right below it in source order, and the statements below those. -/

namespace SwiftMacros

/-- A node of a tree. Only closures have pieces: their statements, which are not read. -/
inductive Node where
  | mk (text : Text) (place : Option (Nat × Nat)) (children : List Node) (pieces : List Text)

/-- A node that does not know its place. -/
abbrev Node.of (text : Text) (children : List Node := []) : Node := ⟨text, none, children, []⟩

def Node.text : Node → Text
  | ⟨text, _, _, _⟩ => text

mutual

def TypeTree.node : TypeTree → Node
  | .named _ _ text | .raw text => .of text
  | .member base _ text | .metatype base _ text | .attributed _ base text => .of text [base.node]
  | .optional wrapped text | .unwrapped wrapped text => .of text [wrapped.node]
  | .constrained _ constraint text => .of text [constraint.node]
  | .tuple elements text => .of text (TypeElement.nodes elements)
  | .function parameters result _ text => .of text (TypeElement.nodes parameters ++ [result.node])
  | .array element text => .of text [element.node]
  | .dictionary key value text => .of text [key.node, value.node]
  | .composition elements text => .of text (TypeTree.nodes elements)

def TypeElement.node : TypeElement → Node
  | ⟨type, _, text⟩ => .of text [type.node]

def TypeElement.nodes : List TypeElement → List Node
  | [] => []
  | e :: es => e.node :: TypeElement.nodes es

def TypeTree.nodes : List TypeTree → List Node
  | [] => []
  | t :: ts => t.node :: TypeTree.nodes ts

end

def ClosureParameter.node (p : ClosureParameter) : Node := .of p.text (p.type.map TypeTree.node).toList

def ParameterClause.node : ParameterClause → Node
  | .typed parameters text => .of text (parameters.map ClosureParameter.node)
  | .shorthand _ text => .of text

def ReturnClause.node (r : ReturnClause) : Node := .of r.text [r.type.node]

mutual

def Expression.node : Expression → Node
  | .integer text | .float text | .string _ text | .boolean _ text | .nilLiteral text
  | .keyPath text | .reference _ text | .implicitMember _ text | .operator text | .cast _ text
  | .typeTest text | .raw text => .of text
  | .specialization base _ text | .member base _ text => .of text [base.node]
  | .array elements text | .sequence elements text => .of text (Expression.nodes elements)
  | .dictionary entries text => .of text (Entry.nodes entries)
  | .tuple elements text => .of text (Argument.nodes elements)
  | .subscript base arguments text => .of text (base.node :: Argument.nodes arguments)
  | .prefixed _ operand text | .postfixed operand _ text | .effect _ operand text =>
    .of text [operand.node]
  | .ternary choice text => .of text [choice.node]
  | .typeOperand type text => .of text [type.node]
  | .closure closure => closure.node
  | .call called arguments trailing _ text =>
    .of text (called.node :: (Argument.nodes arguments ++ match trailing with
      | none => []
      | some closure => [closure.node]))
  | .expansion expansion => expansion.node

def Expression.nodes : List Expression → List Node
  | [] => []
  | e :: es => e.node :: Expression.nodes es

def Argument.node : Argument → Node
  | ⟨expression, _, text⟩ => .of text [expression.node]

def Argument.nodes : List Argument → List Node
  | [] => []
  | a :: as => a.node :: Argument.nodes as

def Entry.node : Entry → Node
  | ⟨key, value, text⟩ => .of text [key.node, value.node]

def Entry.nodes : List Entry → List Node
  | [] => []
  | e :: es => e.node :: Entry.nodes es

def Capture.node : Capture → Node
  | ⟨expression, _, _, text⟩ => .of text [expression.node]

def Capture.nodes : List Capture → List Node
  | [] => []
  | c :: cs => c.node :: Capture.nodes cs

def CaptureClause.node : CaptureClause → Node
  | ⟨items, text⟩ => .of text (Capture.nodes items)

def Signature.node : Signature → Node
  | ⟨capture, parameters, _, result, _, text⟩ =>
    .of text ((match capture with
      | none => []
      | some clause => [clause.node]) ++ (parameters.map ParameterClause.node).toList ++
        (result.map ReturnClause.node).toList)

def Closure.node : Closure → Node
  | ⟨signature, statements, text, _⟩ =>
    ⟨text, none, match signature with
      | none => []
      | some signature => [signature.node], statements.map Statement.text⟩

def MacroExpansion.node : MacroExpansion → Node
  | ⟨_, arguments, trailing, text, start, stop, _, _⟩ =>
    ⟨text, some (start, stop), Argument.nodes arguments ++ match trailing with
      | none => []
      | some closure => [closure.node], []⟩

end

def Attribute.node (a : Attribute) : Node :=
  ⟨a.text, some (a.start, a.stop), Argument.nodes (a.arguments.getD []), []⟩

def Modifier.node (m : Modifier) : Node := .of m.text

def Binding.node (b : Binding) : Node :=
  .of b.text ((b.type.map TypeTree.node).toList ++ (b.initializer.map Expression.node).toList ++
    (b.accessors.map Node.of).toList)

def Variable.node (v : Variable) : Node :=
  .of v.text (v.attributes.map Attribute.node ++ v.modifiers.map Modifier.node ++
    v.bindings.map Binding.node)

def Member.node : Member → Node
  | .binding v => v.node
  | .other _ text => .of text

def MemberBlock.node (b : MemberBlock) : Node :=
  ⟨b.text, some (b.start, b.stop), b.members.map Member.node, []⟩

def Group.node (g : Group) : Node :=
  ⟨g.text, some (g.start, g.stop),
    g.attributes.map Attribute.node ++ g.modifiers.map Modifier.node ++ [g.block.node], []⟩

def Declaration.node : Declaration → Node
  | .group g => g.node
  | .member m => m.node

section Lists

theorem TypeElement.nodes_eq (es : List TypeElement) : nodes es = es.map node := by
  induction es with
  | nil => rfl
  | cons e es ih => rw [nodes, ih, List.map_cons]

theorem TypeTree.nodes_eq (ts : List TypeTree) : nodes ts = ts.map node := by
  induction ts with
  | nil => rfl
  | cons t ts ih => rw [nodes, ih, List.map_cons]

theorem Expression.nodes_eq (es : List Expression) : nodes es = es.map node := by
  induction es with
  | nil => rfl
  | cons e es ih => rw [nodes, ih, List.map_cons]

theorem Argument.nodes_eq (as : List Argument) : nodes as = as.map node := by
  induction as with
  | nil => rfl
  | cons a as ih => rw [nodes, ih, List.map_cons]

theorem Entry.nodes_eq (es : List Entry) : nodes es = es.map node := by
  induction es with
  | nil => rfl
  | cons e es ih => rw [nodes, ih, List.map_cons]

theorem Capture.nodes_eq (cs : List Capture) : nodes cs = cs.map node := by
  induction cs with
  | nil => rfl
  | cons c cs ih => rw [nodes, ih, List.map_cons]

end Lists

section Options

theorem Signature.node_eq (s : Signature) : s.node = .of s.text
    ((s.capture.map CaptureClause.node).toList ++ (s.parameters.map ParameterClause.node).toList ++
      (s.result.map ReturnClause.node).toList) := by
  obtain ⟨_ | capture, parameters, effects, result, attributes, text⟩ := s
  · rfl
  · rfl

theorem Closure.node_eq (k : Closure) : k.node =
    ⟨k.text, none, (k.signature.map Signature.node).toList, k.statements.map Statement.text⟩ := by
  obtain ⟨_ | signature, statements, text, unit⟩ := k
  · rfl
  · rfl

theorem MacroExpansion.node_eq (e : MacroExpansion) : e.node =
    ⟨e.text, some (e.start, e.stop),
      Argument.nodes e.arguments ++ (e.trailing.map Closure.node).toList, []⟩ := by
  obtain ⟨name, arguments, _ | trailing, text, start, stop, line, column⟩ := e
  · rfl
  · rfl

theorem Expression.call_node (called : Expression) (arguments : List Argument)
    (trailing : Option Closure) (parens : Bool) (text : Text) :
    (call called arguments trailing parens text).node =
      .of text (called.node :: (Argument.nodes arguments ++ (trailing.map Closure.node).toList)) := by
  cases trailing with
  | none => rfl
  | some closure => rfl

end Options

/-- A type shows the text of its node. -/
theorem TypeTree.node_text (T : TypeTree) : T.node.text = T.text := by
  cases T <;> rfl

/-- An expression with a slice of its own shows that. -/
theorem Expression.toText_eq (e : Expression) (h : e.node.text ≠ []) : e.toText = e.node.text := by
  cases e with
  | closure closure =>
    obtain ⟨signature, statements, text, unit⟩ := closure
    obtain ⟨c, text, rfl⟩ := List.exists_cons_of_ne_nil (l := text) h
    rfl
  | reference name text =>
    obtain ⟨c, text, rfl⟩ := List.exists_cons_of_ne_nil (l := text) h
    rfl
  | expansion expansion =>
    cases expansion
    rfl
  | _ => rfl

end SwiftMacros
