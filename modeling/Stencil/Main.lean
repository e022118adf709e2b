import Stencil.CommandLine.Run

namespace Stencil

/-! The command line on the files of the machine. -/

private def faultOf (error : IO.Error) : FileFault :=
  match error with
  | .permissionDenied .. => .denied
  | .inappropriateType _ code _ => if code = 21 then .directory else .notDirectory
  | .illegalOperation .. => .directory
  | .invalidArgument .. => .nulInName
  | _ => .missing

private def attempt {α : Type} (action : IO α) : IO (Except FileFault α) := do
  try return .ok (← action)
  catch error => return .error (faultOf error)

/-- A path from the working directory on. -/
private def absolute (working path : String) : String :=
  if Path.isAbsolute path || path.isEmpty then path else working ++ "/" ++ path

private def appendBytes (path : String) (bytes : ByteArray) : IO Unit := do
  let handle ← IO.FS.Handle.mk path .append
  handle.write bytes

private def diskStore (working : IO.Ref String) : FileStore IO where
  read path := do attempt (IO.FS.readBinFile (absolute (← working.get) path))
  write append path bytes := do
    let target := absolute (← working.get) path
    attempt (if append then appendBytes target bytes else IO.FS.writeBinFile target bytes)
  canonical path := do
    attempt (do return (← IO.FS.realPath (absolute (← working.get) path)).toString)
  enter path := do
    let target ← attempt (IO.FS.realPath (absolute (← working.get) path))
    match target with
    | .error fault => return .error fault
    | .ok directory =>
        if !(← directory.isDir) then return .error .notDirectory
        working.set directory.toString
        return .ok ()

/-- The entries of the environment, which NUL characters end. -/
private def readVariables : IO (List (String × String)) := do
  match ← attempt (IO.FS.readBinFile "/proc/self/environ") with
  | .error _ => return []
  | .ok bytes =>
      let text := (String.fromUTF8? bytes).getD ""
      let entries := (Text.split "\x00" text).filterMap (Text.splitOnce? '=')
      return Table.mergeSorted [] entries

private partial def readInput (stream : IO.FS.Stream) (before : ByteArray) : IO ByteArray := do
  let bytes ← stream.read 65536
  if bytes.isEmpty then return before
  readInput stream (before ++ bytes)

private def machine : IO (Host IO) := do
  let working ← IO.mkRef (← IO.currentDir).toString
  return {
    store := diskStore working
    environment := readVariables
    input := do readInput (← IO.getStdin) .empty }

end Stencil

def main (arguments : List String) : IO UInt32 := do
  let result ← Stencil.CommandLine.run (← Stencil.machine) arguments
  IO.print result.output
  IO.eprint result.errors
  return UInt32.ofNat result.code
