import ScriptWorks.Config.Extends
import ScriptWorks.Config.Glob
import ScriptWorks.Source.Kind
import ScriptWorks.Text.Quoted

/-!
# Root files

Which files belong to a project: those that are listed, and those that the patterns of the
configuration select in its directory.
-/

namespace ScriptWorks

namespace Disk

/-- A file below a directory: its path, and the names that lead to it. -/
structure Found where
  path : Path
  names : List String
deriving DecidableEq, Inhabited

/-- A link stands at the location. -/
def isLink (d : Disk) (l : Location) : Bool :=
  match d.lookup? l with
  | some (.link _) => true
  | _ => false

/-- The location that an entry of a directory leads to, unless it is a link to a directory that is
being walked already. -/
def enter? (d : Disk) (walked : List Location) (dir : Location) (name : String) :
    Option (Location × Node) := do
  let l ← (d.follow linkLimit dir [name]).toOption
  let n ← d.lookup? l
  if d.isLink (dir ++ [name]) && n = .dir && walked.contains l then none else some (l, n)

/-- The files below a directory in the order of their names, directories among them in their place.
What `keep` refuses is left out with all that is below it. -/
def walk (d : Disk) (keep : List String → Bool) :
    Nat → List Location → Location → Path → List String → List Found
  | 0, _, _, _, _ => []
  | fuel + 1, walked, dir, path, names =>
    (d.names dir).flatMap fun name =>
      let names := names ++ [name]
      match d.enter? walked dir name with
      | none => []
      | some (l, n) =>
        if !keep names then []
        else
          match n with
          | .dir => walk d keep fuel (l :: walked) l (path.child name) names
          | .file .. => [⟨path.child name, names⟩]
          | .link _ => []

/-- The files below the directory at a path. A walk enters no directory twice on one way down. -/
def filesBelow (d : Disk) (cwd : Location) (keep : List String → Bool) (p : Path) : List Found :=
  match d.node cwd p with
  | .ok (l, .dir) => d.walk keep (d.entries.length + 1) [l] l p []
  | _ => []

end Disk

namespace Config

/-- A pattern without `./` at its start and without slashes at its end. -/
def trimSpec (spec : String) : String :=
  String.ofList (Text.dropEndWhile (· = '/') (dropHere spec.toList))
where
  /-- Takes `./` off the start as often as it is there. -/
  dropHere : List Char → List Char
    | '.' :: '/' :: cs => dropHere cs
    | cs => cs

def hasWildcard (spec : String) : Bool := spec.toList.any fun c => c = '*' || c = '?' || c = '['

/-- The patterns of one entry. An entry without wildcards, and every excluded one, also stands for
what is below it. -/
def specPatterns (exclude : Bool) (spec : String) : List String :=
  let spec := trimSpec spec
  if exclude || !hasWildcard spec then [spec, spec ++ "/**/*"] else [spec]

/-- What the patterns of a list of entries cover; malformed ones are left out. -/
def globs (m : Glob.Meaning) (exclude : Bool) (specs : List String) : List (String → Bool) :=
  (specs.flatMap (specPatterns exclude)).filterMap m

def defaultIncludes : List String := ["**/*"]

def defaultExcludes : List String := ["node_modules", "bower_components", "jspm_packages"]

/-- The entries that select files. -/
def includeSpecs (c : Config) : List String := c.includes.getD defaultIncludes

/-- The entries that leave files out; where none are given the output directory is one of them. -/
def excludeSpecs (c : Config) (options : Options) : List String :=
  match c.excludes with
  | some specs => specs
  | none =>
    let out := (options.text? .outDir).bind fun dir => (⟨dir⟩ : Path).stripPrefix? c.specDir
    defaultExcludes ++ (out.map Path.toSlash).toList

/-- Some of the patterns covers the path with these names. -/
def anyCovers (gs : List (String → Bool)) (names : List String) : Bool :=
  gs.any (· (String.intercalate "/" names))

/-- The sources that the patterns select, in the order of the walk. -/
def selectedFiles (h : Host) (c : Config) (options : Options)
    (m : Glob.Meaning := Glob.meaning) : List Disk.Found :=
  let includes := globs m false c.includeSpecs
  let excludes := globs m true (c.excludeSpecs options)
  (h.disk.filesBelow h.cwd (fun names => !anyCovers excludes names) c.specDir).filter fun f =>
    f.path.isSource && anyCovers includes f.names

/-- The paths of the selected files. -/
def selected (h : Host) (c : Config) (options : Options) (m : Glob.Meaning := Glob.meaning) :
    List Path :=
  (selectedFiles h c options m).map (·.path.normalize)

/-- Adds paths that are not there yet. -/
def addNew (found : List Path) (ps : List Path) : List Path :=
  ps.foldl (fun found p => if found.contains p then found else found ++ [p]) found

/-- The listed files: those that exist, and an error for each of the others. -/
def listed (h : Host) (c : Config) (names : List String) : List Path × List Diagnostic :=
  let paths := names.map fun name => (c.specDir.child name).normalize
  (paths.filter h.isFile,
    (paths.filter (!h.isFile ·)).map fun p => .global 6053 s!"File '{p.text}' not found.")

/-- The error of a configuration that selects nothing. -/
def noInputs (c : Config) (options : Options) (configPath : Path) : Diagnostic :=
  .global 18003 s!"No inputs were found in config file '{configPath.text}'. Specified 'include' paths were '{Text.quoteList c.includeSpecs}' and 'exclude' paths were '{Text.quoteList (c.excludeSpecs options)}'."

/-- The root files of a configuration, and what is wrong with its lists. -/
def rootFiles (h : Host) (c : Config) (options : Options) (configPath : Path)
    (m : Glob.Meaning := Glob.meaning) : List Path × List Diagnostic :=
  let (found, errors) := match c.files with
    | some names => listed h c names
    | none => ([], [])
  if c.files.isSome && c.includes.isNone then (found, errors)
  else
    let found := addNew found (selected h c options m)
    if found.isEmpty && errors.isEmpty then (found, [noInputs c options configPath])
    else (found, errors)

end Config

end ScriptWorks
