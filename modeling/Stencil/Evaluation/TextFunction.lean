import Stencil.Evaluation.Arguments
import Stencil.Evaluation.Template
import Stencil.Number.Word
import Stencil.Text.Separated

namespace Stencil.TextFunction

/-! Functions on texts. The source is that of the place of the call. -/

def split (source : Option String) : List Node → Except Issue Value
  | [separator, text] => do
      let separator ← Arguments.text .split 0 separator
      let text ← Arguments.text .split 1 text
      return .list ((Text.split separator text).map fun part => .ofSource source (.text part))
  | arguments => .error (.argumentCount .split arguments.length)

def scalarText (entry : Node) : Except Issue String :=
  match entry.value.text? with
  | some text => .ok text
  | none => .error (.joinElements entry.kind)

def join : List Node → Except Issue Value
  | separator :: parts => do
      let separator ← Arguments.text .join 0 separator
      let texts ← (Arguments.flatten parts).mapM scalarText
      return .text (separator.intercalate texts)
  | [] => .error (.argumentCount .join 0)

/-- The text without the characters at both of its ends that satisfy a condition. -/
def trimWhere (condition : Char → Bool) (text : String) : String :=
  .ofList (((text.toList.dropWhile condition).reverse.dropWhile condition).reverse)

def trimmer (cutset : Option String) : String → String :=
  match cutset with
  | some cutset => trimWhere fun character => cutset.toList.contains character
  | none => trimWhere Text.isBlank

def trimEntry (cutset : Option String) (entry : Node) : Except Issue Node :=
  match entry.value with
  | .text value => .ok (entry.withValue (.text (trimmer cutset value)))
  | value => .error (.trimEntries value.kind)

def trimValue (cutset : Option String) : Value → Except Issue Value
  | .text text => .ok (.text (trimmer cutset text))
  | .list entries => (entries.mapM (trimEntry cutset)).map .list
  | value => .error (.trimArgument value.kind)

/-- White space or the characters of a second text are cut off. The entries of a
list keep where they come from. -/
def trim : List Node → Except Issue Value
  | [argument] => trimValue none argument.value
  | [argument, cutset] => do
      let cutset ← Arguments.text .trim 1 cutset
      trimValue (some cutset) argument.value
  | arguments => .error (.argumentCount .trim arguments.length)

def count (value : Nat) : Except Issue Value :=
  match Number.word? value with
  | some word => .ok (.integer word)
  | none => .error .overflow

def length : List Node → Except Issue Value
  | [argument] =>
      match argument.value with
      | .list entries => count entries.length
      | .map fields => count fields.length
      | .text text => count text.length
      | value => .error (.lengthArgument value.kind)
  | arguments => .error (.argumentCount .length arguments.length)

def format : List Node → Except Pause (Except Issue Value)
  | template :: arguments =>
      match Arguments.text .format 0 template with
      | .error issue => .ok (.error issue)
      | .ok template => do
          match ← Template.render template arguments with
          | .ok text => return .ok (.text text)
          | .error fault => return .error (.format fault)
  | [] => .ok (.error (.argumentCount .format 0))

/-- The issue that a call of `error` is. -/
def error : List Node → Except Pause Issue
  | template :: arguments =>
      match Arguments.text .error 0 template with
      | .error issue => .ok issue
      | .ok template => do
          match ← Template.render template arguments with
          | .ok text => return .raised text
          | .error fault => return .errorTemplate fault
  | [] => .ok (.raised "error")

end Stencil.TextFunction
