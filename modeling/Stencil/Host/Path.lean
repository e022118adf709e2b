import Stencil.Text.Separated

namespace Stencil.Path

/-! Paths of files. A path is known by its components: repeated slashes, dots
that stand for the directory itself, and a slash at the end do not matter, but a
dot at the very front does. -/

def isAbsolute (path : String) : Bool := path.toList.head? = some '/'

def components (path : String) : List String :=
  let steps := Text.split "/" path
  let named := steps.filter fun step => step != "" && step != "."
  if isAbsolute path then "/" :: named
  else if steps.head? = some "." then "." :: named
  else named

/-- What stands behind the last dot of the file's name, if the name does not start there. -/
def extension? (path : String) : Option String :=
  match (components path).getLast? with
  | none => none
  | some name =>
      if name = ".." || name = "/" || name = "." then none
      else
        match (Text.split "." name).reverse with
        | behind :: before :: rest => if rest.isEmpty && before = "" then none else some behind
        | _ => none

example : components "a//b/./c/" = ["a", "b", "c"] := by decide +kernel
example : extension? "x/data.yml" = some "yml" := by decide +kernel
example : extension? ".yml" = none := by decide +kernel

end Stencil.Path
