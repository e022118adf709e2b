import Stencil.Host.Failure

namespace Stencil

/-! Files as a program sees them, by the text of their path. -/

structure FileStore (m : Type → Type) where
  read : String → m (Except FileFault ByteArray)
  /-- Write a file anew, or at its end. -/
  write : Bool → String → ByteArray → m (Except FileFault Unit)
  /-- The absolute path without detours of what exists. -/
  canonical : String → m (Except FileFault String)
  /-- Make a directory the one that relative paths start from. -/
  enter : String → m (Except FileFault Unit)

namespace FileStore

variable {m : Type → Type} [Monad m]

/-- The contents of a file as text. -/
def readText (store : FileStore m) (path : String) : m (Except FileFault String) := do
  match ← store.read path with
  | .error fault => return .error fault
  | .ok bytes =>
      match String.fromUTF8? bytes with
      | some text => return .ok text
      | none => return .error .notText

end FileStore

end Stencil
