import Clausal.Command.Arguments

/-!
# The command line
-/

namespace Clausal.Command

def ReadError.ofIO : IO.Error → ReadError
  | .noFileOrDirectory .. => .notFound
  | .permissionDenied .. => .permissionDenied
  | .inappropriateType .. => .isDirectory
  | error => .other (toString error)

/-- Read all bytes of a stream. -/
partial def readAll (stream : IO.FS.Stream) (bytes : ByteArray := .empty) : IO ByteArray := do
  let chunk ← stream.read 65536
  if chunk.isEmpty then return bytes else readAll stream (bytes ++ chunk)

def readModule (file : ModuleFile) : IO (Except ReadError ByteArray) := do
  try
    match file with
    | .stdin => return .ok (← readAll (← IO.getStdin))
    | .path p => return .ok (← IO.FS.readBinFile p)
  catch error => return .error (.ofIO error)

def printNotice (n : Notice) : IO Unit := do
  IO.eprintln n.headline
  if let some place := n.location? then
    IO.eprintln ("  --> " ++ place)
  n.diagnostic.notes.forM fun note => IO.eprintln ("  = " ++ note)

/-- Carry out an invocation with what was read for its module. -/
def perform (invocation : Invocation) (read : Except ReadError ByteArray) : IO UInt32 := do
  match (invocation.outcome fun _ => read).run 0 with
  | some (outcome, _) =>
      outcome.notices.forM printNotice
      IO.print outcome.output
      return UInt32.ofNat outcome.status.exitCode
  | none =>
      IO.eprintln "bug: a computation did not end"
      return 1

end Clausal.Command

open Clausal.Command in
def main (args : List String) : IO UInt32 := do
  match Invocation.parse args with
  | .error error =>
      IO.eprintln ("error: " ++ error.message)
      return 2
  | .ok .version => perform .version (.ok .empty)
  | .ok (.run file settings action) => perform (.run file settings action) (← readModule file)
