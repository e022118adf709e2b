import Stencil.Host.Path
import Stencil.Host.Store
import Stencil.Table

namespace Stencil

/-! A host held in memory: files, directories, the working directory, the variables
of the environment and what was not read yet of the standard input. Paths are
lists of names from the root on. -/

structure World where
  files : List (List String × ByteArray) := []
  directories : List (List String) := []
  working : List String := []
  environment : List (String × String) := []
  input : ByteArray := .empty

namespace World

def pathText (names : List String) : String := "/" ++ "/".intercalate names

/-- A directory was made, or something lies in it. -/
def isDirectory (world : World) (names : List String) : Bool :=
  names.isEmpty || world.directories.any (names.isPrefixOf ·)
    || world.files.any fun (path, _) => path != names && names.isPrefixOf path

def contents? (world : World) (names : List String) : Option ByteArray := world.files.lookup names

def presence (world : World) (names : List String) : Except FileFault Unit :=
  if world.isDirectory names || (world.contents? names).isSome then .ok () else .error .missing

private def nameLimit : Nat := 255

/-- A path has fewer bytes than this. -/
private def pathLimit : Nat := 4096

/-- Follow the steps of a path. All but the last name have to be directories. -/
def walk (world : World) (names : List String) : List String → Except FileFault (List String)
  | [] => .ok names
  | step :: steps => do
      world.presence names
      if !world.isDirectory names then throw .notDirectory
      if step = "" || step = "." then world.walk names steps
      else if step = ".." then world.walk names.dropLast steps
      else if nameLimit < step.utf8ByteSize then throw .nameTooLong
      else world.walk (names ++ [step]) steps

/-- The names that the text of a path leads to; the last one need not exist. -/
def locate (world : World) (path : String) : Except FileFault (List String) :=
  if path.toList.contains '\x00' then .error .nulInName
  else if path = "" then .error .missing
  else if pathLimit ≤ path.utf8ByteSize then .error .nameTooLong
  else
    world.walk (if Path.isAbsolute path then [] else world.working) (Text.split "/" path)

def read (world : World) (path : String) : Except FileFault ByteArray := do
  let names ← world.locate path
  match world.contents? names with
  | some bytes => return bytes
  | none => if world.isDirectory names then throw .directory else throw .missing

private def putFile (names : List String) (bytes : ByteArray) :
    List (List String × ByteArray) → List (List String × ByteArray)
  | [] => [(names, bytes)]
  | (other, old) :: rest =>
      if other = names then (names, bytes) :: rest else (other, old) :: putFile names bytes rest

def write (world : World) (append : Bool) (path : String) (bytes : ByteArray) :
    Except FileFault World := do
  let names ← world.locate path
  if world.isDirectory names then throw .directory
  let start := if append then (world.contents? names).getD .empty else .empty
  return { world with files := putFile names (start ++ bytes) world.files }

/-- A file below the working directory, with the directories it needs. -/
def place (world : World) (path : String) (bytes : ByteArray) : World :=
  let names := world.working ++ (Path.components path).filter (· != ".")
  { world with files := putFile names bytes world.files }

def remove (world : World) (path : String) : World :=
  let names := world.working ++ (Path.components path).filter (· != ".")
  { world with
    files := world.files.filter fun (other, _) => other != names
    directories := names.dropLast :: world.directories }

def canonical (world : World) (path : String) : Except FileFault String := do
  let names ← world.locate path
  world.presence names
  return pathText names

def enter (world : World) (path : String) : Except FileFault World := do
  let names ← world.locate path
  world.presence names
  if world.isDirectory names then return { world with working := names } else throw .notDirectory

def setVariable (world : World) (name value : String) : World :=
  { world with environment := Table.putSorted name value world.environment }

/-- The files of the world, which programs may change. -/
def store : FileStore (StateM World) where
  read path := return (← get).read path
  write append path bytes := do
    match (← get).write append path bytes with
    | .ok world => set world; return .ok ()
    | .error fault => return .error fault
  canonical path := return (← get).canonical path
  enter path := do
    match (← get).enter path with
    | .ok world => set world; return .ok ()
    | .error fault => return .error fault

end World

end Stencil
