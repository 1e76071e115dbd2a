import ScriptWorks.Text.Lines

/-!
# Paths

A path keeps the text it was written as. Two paths with the same components are the same path:
doubled slashes, `.` inside a path and slashes at its end make no component.
-/

namespace ScriptWorks

/-- A path as it was written. -/
structure Path where
  text : String
deriving DecidableEq, Inhabited

/-- A part of a path. -/
inductive Path.Component where
  | root
  | here
  | parent
  | name (s : String)
deriving DecidableEq, Inhabited

namespace Path

def Component.text : Component → String
  | .root => "/"
  | .here => "."
  | .parent => ".."
  | .name s => s

/-- Rank of the kinds of components in the order of paths. -/
def Component.rank : Component → Nat
  | .root => 0
  | .here => 1
  | .parent => 2
  | .name _ => 3

/-- The order of components: by kind, names by their characters. -/
def Component.before (a b : Component) : Bool :=
  match a, b with
  | .name s, .name t => s < t
  | a, b => a.rank < b.rank

def chars (p : Path) : List Char := p.text.toList

def ofChars (cs : List Char) : Path := ⟨String.ofList cs⟩

/-- The path starts at the root. -/
def isAbsolute (p : Path) : Bool := p.chars.head? = some '/'

def isEmpty (p : Path) : Bool := p.text.isEmpty

/-! ## Pieces and components -/

/-- The text between the slashes; for a path from the root without what stands before the first. -/
def pieces (p : Path) : List (List Char) :=
  if p.isAbsolute then (Text.cut '/' p.chars).tail else Text.cut '/' p.chars

/-- A piece that makes no component, unless it is the first one of a relative path. -/
def isSilent (piece : List Char) : Bool := piece = [] || piece = ['.']

/-- The component that a piece makes. -/
def component? (piece : List Char) : Option Component :=
  if isSilent piece then none
  else if piece = ['.', '.'] then some .parent
  else some (.name (String.ofList piece))

/-- The component of the first piece of a relative path. -/
def firstComponent? (piece : List Char) : Option Component :=
  if piece = ['.'] then some .here else component? piece

/-- The components of a path. -/
def components (p : Path) : List Component :=
  if p.isAbsolute then .root :: p.pieces.filterMap component?
  else
    match p.pieces with
    | [] => []
    | first :: rest => (firstComponent? first).toList ++ rest.filterMap component?

/-- The path with the given components, without anything superfluous. -/
def ofComponents : List Component → Path
  | .root :: cs => ⟨"/" ++ String.intercalate "/" (cs.map Component.text)⟩
  | cs => ⟨String.intercalate "/" (cs.map Component.text)⟩

/-- Two spellings of one path. -/
def same (p q : Path) : Bool := p.components = q.components

/-- Order of paths: by their components. -/
def before (p q : Path) : Bool := List.lex p.components q.components Component.before

/-- `p` begins with the components of `q`. -/
def startsWith (p q : Path) : Bool := q.components.isPrefixOf p.components

/-- The component that ends the path. -/
def last? (p : Path) : Option Component := p.components.getLast?

/-- The name that ends the path. -/
def fileName? (p : Path) : Option String :=
  match p.last? with
  | some (.name s) => some s
  | _ => none

/-! ## Cutting and joining -/

/-- The pieces without silent ones at the end; the first piece of a relative path stays if it is `.`. -/
def dropSilentEnd (absolute : Bool) (ps : List (List Char)) : List (List Char) :=
  match absolute, ps with
  | false, ['.'] :: rest => ['.'] :: (rest.reverse.dropWhile isSilent).reverse
  | _, ps => (ps.reverse.dropWhile isSilent).reverse

/-- The path with the given pieces. -/
def ofPieces (absolute : Bool) (ps : List (List Char)) : Path :=
  ofChars ((if absolute then ['/'] else []) ++ Text.glue '/' ps)

/-- The path without its last component; nothing for the root and the empty path. -/
def parent? (p : Path) : Option Path :=
  let abs := p.isAbsolute
  match dropSilentEnd abs p.pieces with
  | [] => none
  | ps => some (ofPieces abs (dropSilentEnd abs ps.dropLast))

/-- The paths that `parent?` leads through, from `p` on; `n` bounds their number. -/
def ancestorsWithin : Nat → Path → List Path
  | 0, _ => []
  | n + 1, p =>
    match p.parent? with
    | some q => p :: ancestorsWithin n q
    | none => [p]

/-- The path, its parent, and so on. -/
def ancestors (p : Path) : List Path := ancestorsWithin (p.components.length + 1) p

/-- `q` seen from the directory `p`: an absolute path stays what it is. -/
def join (p q : Path) : Path :=
  if q.isAbsolute then q
  else if p.text.isEmpty || p.chars.getLast? = some '/' then ⟨p.text ++ q.text⟩
  else ⟨p.text ++ "/" ++ q.text⟩

/-- `p/s` -/
def child (p : Path) (s : String) : Path := p.join ⟨s⟩

/-- Leaves out pieces up to the `n`-th component, and silent ones after it. -/
def dropComponents : Nat → List (List Char) → List (List Char)
  | 0, ps => ps.dropWhile isSilent
  | _ + 1, [] => []
  | n + 1, p :: ps => if isSilent p then dropComponents (n + 1) ps else dropComponents n ps

/-- What follows the components of `base`, if `p` begins with them. -/
def stripPrefix? (p base : Path) : Option Path :=
  if p.startsWith base then
    let abs := p.isAbsolute
    let ps := dropSilentEnd abs p.pieces
    match base.components with
    | [] => some (ofPieces abs ps)
    | .root :: cs => some (ofPieces false (dropComponents cs.length ps))
    | .here :: cs => some (ofPieces false (dropComponents cs.length ps.tail))
    | cs => some (ofPieces false (dropComponents cs.length ps))
  else none

/-- The components with slashes between them. -/
def toSlash (p : Path) : String := String.intercalate "/" (p.components.map Component.text)

/-! ## Extensions -/

/-- Stem and extension of a name; a dot at its start begins no extension. -/
def splitExtension (name : List Char) : List Char × Option (List Char) :=
  let ext := (name.reverse.takeWhile (· ≠ '.')).reverse
  let stem := name.take (name.length - ext.length - 1)
  if ext.length = name.length || stem.isEmpty then (name, none) else (stem, some ext)

/-- The extension of the name that ends the path. -/
def extension? (p : Path) : Option String :=
  p.fileName?.bind fun name => (splitExtension name.toList).2.map String.ofList

/-- Puts an extension to the stem of the last name, if the path ends in a name. -/
def setExtension (p : Path) (ext : String) : Path :=
  match p.fileName? with
  | none => p
  | some name =>
    let abs := p.isAbsolute
    let stem := (splitExtension name.toList).1
    let stem := if ext.isEmpty then stem else stem ++ '.' :: ext.toList
    ofPieces abs ((dropSilentEnd abs p.pieces).dropLast ++ [stem])

/-- The path with another extension. As many characters as the old one has are cut off first, so that
a path which is then `..` stays that. -/
def withExtension (p : Path) (ext : String) : Path :=
  match p.extension? with
  | none => p.setExtension ext
  | some old => (ofChars (p.chars.take (p.chars.length - old.length))).setExtension ext

end Path

end ScriptWorks
