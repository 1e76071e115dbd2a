import ScriptWorks.Text.Alphanumeric
import ScriptWorks.Text.Blank
import ScriptWorks.Text.Lines

/-!
# Log filters

A filter is a list of directives between commas: a level, a target, a span in brackets, or one of
these with a level after `=`. Here only whether a text is a filter matters.

Blanks around a directive are passed over when its parts are looked for, and the places of the parts
are counted from the first character that is no blank. The parts are then cut out of the whole text
at these places: with a blank in front, every part that is named begins too early.
-/

namespace ScriptWorks.LogFilter

/-- Why a text is no filter. -/
inductive Fault where
  | noDirective
  | noLevel
  /-- A part would begin or end inside a character. -/
  | splitCharacter
deriving DecidableEq, Inhabited

/-- Names of levels; each has a number too. -/
def levels : List String := ["off", "error", "warn", "info", "debug", "trace"]

/-- The text names a level, in any case of ASCII letters, or is the number of one. -/
def isLevel (cs : List Char) : Bool :=
  levels.contains (String.ofList (cs.map Char.toLower)) ||
    (match cs with
    | '+' :: ds | ds => !ds.isEmpty && ds.all Char.isDigit &&
      ds.foldl (fun n d => n * 10 + (d.toNat - 48)) 0 < levels.length)

/-- A directive may begin with this. -/
def isStart (c : Char) : Bool :=
  Text.isAlphanumeric c || c = '-' || c = ':' || c = '_'

/-- What follows the first bytes of a text, unless they end inside a character. -/
def after? (bytes : Nat) : List Char → Option (List Char)
  | [] => if bytes = 0 then some [] else none
  | c :: cs =>
    if bytes = 0 then some (c :: cs)
    else if c.utf8Size ≤ bytes then after? (bytes - c.utf8Size) cs
    else none

/-- How far a directive is read, with the place of the part that is being read. -/
inductive State where
  | start
  | target
  | span (first : Nat)
  | field (first : Nat)
  | fields
  | afterSpan
  | level (first : Nat)
deriving DecidableEq, Inhabited

/-- The state after a part of `text` from `first` up to `last`. -/
def cut (text : List Char) (first last : Nat) (s : State) : Except Fault State :=
  if (after? first text).isSome && (after? last text).isSome then .ok s else .error .splitCharacter

/-- The state after one more character, which stands at a place. -/
def State.next (text : List Char) (place : Nat) (c : Char) : State → Except Fault State
  | .start =>
    if c = '[' then .ok (.span (place + 1)) else if isStart c then .ok .target
    else .error .noDirective
  | .target =>
    if c = '=' then cut text 0 place (.level (place + 1))
    else if c = '[' then cut text 0 place (.span (place + 1))
    else .ok .target
  | .span first =>
    if c = ']' then cut text first place .afterSpan
    else if c = '\x7b' then cut text first place (.field (place + 1))
    else .ok (.span first)
  | .field first =>
    if c ≠ '\x7d' then .ok (.field first)
    else do
      let s ← cut text first place .fields
      if first < place then .ok s else .error .noDirective
  | .fields => if c = ']' then .ok .afterSpan else .error .noDirective
  | .afterSpan => if c = '=' then .ok (.level (place + 1)) else .error .noDirective
  | .level first => .ok (.level first)

/-- Why a directive may not end here. -/
def State.fault? (text : List Char) : State → Option Fault
  | .target | .afterSpan => none
  | .level first =>
    match after? first text with
    | none => some .splitCharacter
    | some cs => if cs.isEmpty || isLevel cs then none else some .noLevel
  | _ => some .noDirective

/-- Reads characters, the first of which stands at a place. -/
def scan (text : List Char) (place : Nat) (s : State) : List Char → Except Fault State
  | [] => .ok s
  | c :: cs => do scan text (place + c.utf8Size) (← s.next text place c) cs

/-- Why a text is no directive. -/
def directiveFault? (text : List Char) : Option Fault :=
  match scan text 0 .start (Text.trim text) with
  | .ok s => s.fault? text
  | .error fault => some fault

/-- Why a text is no filter. Empty directives are left out. -/
def fault? (s : String) : Option Fault :=
  ((Text.cut ',' s.toList).filter (· ≠ [])).findSome? directiveFault?

end ScriptWorks.LogFilter
