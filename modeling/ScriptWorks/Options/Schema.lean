/-!
# The option schema

The compiler options that are checked, in the order in which they are listed, and what values each
one takes.
-/

namespace ScriptWorks

/-- A compiler option of the schema. -/
inductive CompilerOption where
  | target
  | module
  | moduleResolution
  | strict
  | esModuleInterop
  | skipLibCheck
  | forceConsistentCasingInFileNames
  | declaration
  | declarationMap
  | sourceMap
  | noEmit
  | outDir
  | rootDir
  | baseUrl
  | lib
deriving DecidableEq, Inhabited

/-- What values an option takes. -/
inductive OptionKind where
  | bool
  /-- A path, made absolute when it is read from a configuration file. -/
  | path
  /-- One of the listed words, in any case. -/
  | word (allowed : List String)
  | list
deriving DecidableEq, Inhabited

namespace CompilerOption

/-- All options, in schema order. -/
def all : List CompilerOption :=
  [.target, .module, .moduleResolution, .strict, .esModuleInterop, .skipLibCheck,
    .forceConsistentCasingInFileNames, .declaration, .declarationMap, .sourceMap, .noEmit, .outDir,
    .rootDir, .baseUrl, .lib]

/-- The position in schema order. -/
def index (o : CompilerOption) : Nat := all.idxOf o

/-- The key of the option in a configuration. -/
def name : CompilerOption → String
  | .target => "target"
  | .module => "module"
  | .moduleResolution => "moduleResolution"
  | .strict => "strict"
  | .esModuleInterop => "esModuleInterop"
  | .skipLibCheck => "skipLibCheck"
  | .forceConsistentCasingInFileNames => "forceConsistentCasingInFileNames"
  | .declaration => "declaration"
  | .declarationMap => "declarationMap"
  | .sourceMap => "sourceMap"
  | .noEmit => "noEmit"
  | .outDir => "outDir"
  | .rootDir => "rootDir"
  | .baseUrl => "baseUrl"
  | .lib => "lib"

def targetWords : List String :=
  ["ES3", "ES5", "ES6", "ES2015", "ES2016", "ES2017", "ES2018", "ES2019", "ES2020", "ES2021",
    "ES2022", "ESNext"]

def moduleWords : List String :=
  ["None", "CommonJS", "AMD", "System", "UMD", "ES6", "ES2015", "ES2020", "ES2022", "ESNext"]

def moduleResolutionWords : List String := ["node", "classic"]

def kind : CompilerOption → OptionKind
  | .target => .word targetWords
  | .module => .word moduleWords
  | .moduleResolution => .word moduleResolutionWords
  | .strict | .esModuleInterop | .skipLibCheck | .forceConsistentCasingInFileNames | .declaration
  | .declarationMap | .sourceMap | .noEmit => .bool
  | .outDir | .rootDir | .baseUrl => .path
  | .lib => .list

/-- The option with a given key. -/
def ofName? (s : String) : Option CompilerOption := all.find? (·.name = s)

theorem mem_all (o : CompilerOption) : o ∈ all := by cases o <;> decide

theorem name_injective {o p : CompilerOption} (h : o.name = p.name) : o = p := by
  revert h; cases o <;> cases p <;> decide

@[simp] theorem ofName?_name (o : CompilerOption) : ofName? o.name = some o := by
  cases o <;> decide

theorem name_of_ofName? {s : String} {o : CompilerOption} (h : ofName? s = some o) : o.name = s := by
  simpa using List.find?_some h

end CompilerOption

end ScriptWorks
