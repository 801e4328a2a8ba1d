import Clausal.Command.Notice

/-!
# Module files

A module is read from standard input or from a file, and must be UTF-8.
-/

namespace Clausal.Command

/-- Where a module is read from. -/
inductive ModuleFile where
  | stdin
  | path (p : String)
deriving DecidableEq, Repr

namespace ModuleFile

/-- A dash stands for standard input. -/
def ofArgument (arg : String) : ModuleFile := if arg == "-" then .stdin else .path arg

/-- The name that messages use. -/
def name : ModuleFile → String
  | .stdin => "<stdin>"
  | .path p => p

end ModuleFile

/-- Why a module cannot be read. -/
inductive ReadError where
  | notFound
  | permissionDenied
  | isDirectory
  | notUtf8
  | other (details : String)
deriving DecidableEq, Repr

def ReadError.message : ReadError → String
  | .notFound => "No such file or directory (os error 2)"
  | .permissionDenied => "Permission denied (os error 13)"
  | .isDirectory => "Is a directory (os error 21)"
  | .notUtf8 => "stream did not contain valid UTF-8"
  | .other details => details

/-- The notice about a module that cannot be read. -/
def ReadError.notice (name : String) (error : ReadError) : Notice :=
  { diagnostic := .error ("couldn't read " ++ quoted name ++ ": " ++ error.message) }

/-- The source whose bytes were read. -/
def decodeSource (name : String) (bytes : ByteArray) : Except ReadError Text.Source :=
  match String.fromUTF8? bytes with
  | some text => .ok { name, text }
  | none => .error .notUtf8

end Clausal.Command
