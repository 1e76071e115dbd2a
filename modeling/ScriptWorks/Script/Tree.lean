import ScriptWorks.Source.Text

/-!
# Syntax trees

The outline of a source: its statements and declarations, and the places that could not be read.
-/

namespace ScriptWorks

/-- What a node of a syntax tree is. -/
inductive NodeKind where
  | sourceFile
  | statement
  | declaration
  | expression
  /-- Something that could not be read. -/
  | unknown
deriving DecidableEq, Inhabited

def NodeKind.name : NodeKind → String
  | .sourceFile => "SourceFile"
  | .statement => "Statement"
  | .declaration => "Declaration"
  | .expression => "Expression"
  | .unknown => "Unknown"

/-- A node with its byte span. -/
inductive SyntaxNode where
  | mk (kind : NodeKind) (start stop : Nat) (children : List SyntaxNode)
deriving Inhabited

namespace SyntaxNode

def kind : SyntaxNode → NodeKind
  | .mk k _ _ _ => k

def start : SyntaxNode → Nat
  | .mk _ s _ _ => s

def stop : SyntaxNode → Nat
  | .mk _ _ s _ => s

def children : SyntaxNode → List SyntaxNode
  | .mk _ _ _ cs => cs

mutual

/-- The node and all below it, each before those below it. -/
def walk : SyntaxNode → List SyntaxNode
  | .mk k a b cs => .mk k a b cs :: walkAll cs

/-- The nodes of several trees, one after the other. -/
def walkAll : List SyntaxNode → List SyntaxNode
  | [] => []
  | n :: ns => walk n ++ walkAll ns

end

/-- The nodes of one kind, in the order of the walk. -/
def ofKind (n : SyntaxNode) (k : NodeKind) : List SyntaxNode := n.walk.filter (·.kind = k)

end SyntaxNode

/-- A source with its outline. -/
structure SyntaxTree where
  file : SourceText
  root : SyntaxNode
deriving Inhabited

end ScriptWorks
