import ScriptWorks.Text.Lines

/-!
# Messages

A message is a text, or a chain: a text with further chains as its causes.
-/

namespace ScriptWorks

/-- A text and its causes. -/
inductive MessageChain where
  | mk (text : String) (next : List MessageChain)
deriving Inhabited

/-- The message of a diagnostic. -/
inductive Message where
  | text (s : String)
  | chain (c : MessageChain)
deriving Inhabited

namespace MessageChain

def text : MessageChain → String
  | .mk text _ => text

def next : MessageChain → List MessageChain
  | .mk _ next => next

mutual

/-- The texts with their depths, each before its causes. -/
def entries (depth : Nat) : MessageChain → List (Nat × String)
  | .mk text next => (depth, text) :: entriesAll (depth + 1) next

/-- The texts of several chains, one after the other. -/
def entriesAll (depth : Nat) : List MessageChain → List (Nat × String)
  | [] => []
  | c :: cs => entries depth c ++ entriesAll depth cs

end

/-- The line of a text: two spaces a level. -/
def entryLine (entry : Nat × String) : String :=
  String.ofList (List.replicate (2 * entry.1) ' ') ++ entry.2

end MessageChain

namespace Message

/-- The message in one text; the causes stand on lines of their own, indented by their depth. -/
def flatten : Message → String
  | .text s => s
  | .chain c => String.intercalate "\n" ((c.entries 0).map MessageChain.entryLine)

end Message

end ScriptWorks
