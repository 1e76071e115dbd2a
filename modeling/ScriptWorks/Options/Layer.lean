import ScriptWorks.Options.Basic

/-!
# Layers of options

A request overrides a configuration, which overrides the defaults.
-/

namespace ScriptWorks

/-- The layer that a value comes from. -/
inductive Origin where
  | default
  | config
  | request
deriving DecidableEq, Inhabited

def Origin.name : Origin → String
  | .default => "default"
  | .config => "config"
  | .request => "request"

/-- Options with the origin of every key. -/
structure Layered where
  options : Options := {}
  origins : Dict Origin := []
deriving Inhabited

def Layered.origin? (l : Layered) (k : String) : Option Origin := Dict.get? l.origins k

namespace Options

/-- Names `origin` as the origin of all keys of a layer. -/
def markOrigin (origin : Origin) (s : Options) (origins : Dict Origin) : Dict Origin :=
  s.keys.foldl (fun d k => Dict.insert d k origin) origins

/-- Merges the three layers. -/
def layer (defaults config request : Options) : Layered where
  options := (defaults.overlay config).overlay request
  origins := markOrigin .request request (markOrigin .config config (markOrigin .default defaults []))

/-- The options that hold where nothing else is said. -/
def builtin : Options :=
  (({} : Options).set .target (.text "ES2020")).set .module (.text "CommonJS")

end Options

end ScriptWorks
