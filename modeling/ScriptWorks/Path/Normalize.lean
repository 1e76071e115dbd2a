import ScriptWorks.Path.Basic

/-!
# Normal forms of paths

`normalize` resolves `.` and `..` in the text alone. `absoluteFrom` makes a path absolute and drops
what makes no component, but keeps `..`.
-/

namespace ScriptWorks.Path

/-- Adds a component to a path that is kept in reverse: `..` takes the last component away, and stays
where there is none but the root. -/
def normalStep (done : List Component) : Component → List Component
  | .here => done
  | .parent =>
    match done with
    | [] | [.root] => .parent :: done
    | _ :: rest => rest
  | c => c :: done

/-- The components after `.` and `..` are resolved. -/
def normalComponents (cs : List Component) : List Component := (cs.foldl normalStep []).reverse

/-- The path with `.` and `..` resolved in the text. -/
def normalize (p : Path) : Path := ofComponents (normalComponents p.components)

/-- The absolute path of `p` for the working directory `cwd`; a slash at the end stays, as do exactly
two slashes at the start. Nothing for the empty path. -/
def absoluteFrom? (p cwd : Path) : Option Path :=
  if p.isEmpty then none
  else
    let cs := p.components
    let tail := if p.chars.getLast? = some '/' then "/" else ""
    let doubled := match p.chars with
      | '/' :: '/' :: '/' :: _ => false
      | '/' :: '/' :: _ => true
      | _ => false
    let whole :=
      if p.isAbsolute then
        if doubled then ⟨"/" ++ (ofComponents cs).text⟩ else ofComponents cs
      else
        (cs.filter (· ≠ .here)).foldl (fun q c => q.child c.text) cwd
    some (if whole.chars.getLast? = some '/' then whole else ⟨whole.text ++ tail⟩)

end ScriptWorks.Path
