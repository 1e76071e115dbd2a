import ScriptWorks.Path.Basic

/-!
# File errors

Why an operation on a file fails.
-/

namespace ScriptWorks

/-- Why a file operation fails. -/
inductive FileError where
  | notFound
  | isDirectory
  | notDirectory
  | alreadyExists
  | permissionDenied
  | tooManyLinks
  /-- The path names a directory that is in use. -/
  | busy
  | nameTooLong
  /-- The system does not take the path. -/
  | invalidArgument
  /-- A path holds a character that ends texts of the system. -/
  | nulInPath
  /-- The name of a program does. -/
  | nulInProgram
  /-- The bytes are not a text. -/
  | notText
  /-- No file is stored at a path. -/
  | notStored (path : Path)
  /-- Writing is not allowed at a path. -/
  | readOnly (path : Path)
  /-- Any other reason, in words. -/
  | other (reason : String)
deriving DecidableEq, Inhabited

namespace FileError

/-- The number that the operating system gives the error, if it comes from there. -/
def systemText (text : String) (number : Nat) : String := s!"{text} (os error {number})"

def message : FileError → String
  | .notFound => systemText "No such file or directory" 2
  | .permissionDenied => systemText "Permission denied" 13
  | .busy => systemText "Device or resource busy" 16
  | .alreadyExists => systemText "File exists" 17
  | .notDirectory => systemText "Not a directory" 20
  | .isDirectory => systemText "Is a directory" 21
  | .invalidArgument => systemText "Invalid argument" 22
  | .nameTooLong => systemText "File name too long" 36
  | .tooManyLinks => systemText "Too many levels of symbolic links" 40
  | .nulInPath => "file name contained an unexpected NUL byte"
  | .nulInProgram => "nul byte found in provided data"
  | .notText => "stream did not contain valid UTF-8"
  | .notStored p => s!"{p.text}: no such file"
  | .readOnly p => s!"{p.text}: permission denied"
  | .other reason => reason

/-- The class of an error. -/
def kind : FileError → String
  | .notFound | .notStored _ => "NotFound"
  | .permissionDenied | .readOnly _ => "PermissionDenied"
  | .alreadyExists => "AlreadyExists"
  | .notDirectory => "NotADirectory"
  | .isDirectory => "IsADirectory"
  | .tooManyLinks => "FilesystemLoop"
  | .busy => "ResourceBusy"
  | .nameTooLong => "InvalidFilename"
  | .invalidArgument | .nulInPath | .nulInProgram => "InvalidInput"
  | .notText => "InvalidData"
  | .other _ => "Other"

end FileError

end ScriptWorks
