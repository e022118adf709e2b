import Stencil.Host.Store
import Stencil.Number.Word

namespace Stencil

/-! Small programs: what they print to an input and arguments, and how they end. -/

/-- What a program leaves behind. -/
structure Ending where
  output : ByteArray := .empty
  errors : ByteArray := .empty
  status : ExitStatus := .code 0

namespace Ending

def printing (text : String) : Ending := { output := text.toUTF8 }

def failing (code : Nat) (text : String := "") : Ending :=
  { errors := text.toUTF8, status := .code code }

end Ending

namespace Program

/-! Escapes, as bytes. -/

private def octal? (character : Char) : Option Nat :=
  if '0' ≤ character ∧ character ≤ '7' then some (character.toNat - 48) else none

/-- The octal number at the front, of at most this many digits. -/
private def readOctal : Nat → Nat → List Char → Nat × List Char
  | 0, value, rest => (value, rest)
  | count + 1, value, rest =>
      match rest with
      | character :: behind =>
          match octal? character with
          | some digit => readOctal count (8 * value + digit) behind
          | none => (value, rest)
      | [] => (value, [])

private def byte (value : Nat) : ByteArray := ⟨#[UInt8.ofNat value]⟩

private def characterBytes (character : Char) : ByteArray := character.toString.toUTF8

private def named? : Char → Option Nat
  | 'a' => some 7
  | 'b' => some 8
  | 'e' => some 27
  | 'f' => some 12
  | 'n' => some 10
  | 'r' => some 13
  | 't' => some 9
  | 'v' => some 11
  | '\\' => some 92
  | '"' => some 34
  | _ => none

/-- The bytes of an escape behind its backslash. In some places the octal number
has a zero in front of its digits. -/
private def escape (zeroFirst : Bool) : List Char → ByteArray × List Char
  | [] => (byte 92, [])
  | character :: rest =>
      match named? character with
      | some code => (byte code, rest)
      | none =>
          match octal? character with
          | none => (byte 92 ++ characterBytes character, rest)
          | some digit =>
              if zeroFirst then
                if digit = 0 then
                  let (value, behind) := readOctal 3 0 rest
                  (byte value, behind)
                else (byte 92 ++ characterBytes character, rest)
              else
                let (value, behind) := readOctal 2 digit rest
                (byte value, behind)

/-- A text with its escapes replaced, and whether `\c` ended it early. -/
private def unescape (zeroFirst : Bool) : Nat → List Char → ByteArray × Bool
  | 0, _ => (.empty, false)
  | _, [] => (.empty, false)
  | _ + 1, '\\' :: 'c' :: _ => (.empty, true)
  | fuel + 1, '\\' :: rest =>
      let (bytes, behind) := escape zeroFirst rest
      let (later, ended) := unescape zeroFirst fuel behind
      (bytes ++ later, ended)
  | fuel + 1, character :: rest =>
      let (later, ended) := unescape zeroFirst fuel rest
      (characterBytes character ++ later, ended)

private def unescaped (text : String) : ByteArray × Bool :=
  unescape true (text.length + 1) text.toList

/-! `echo` -/

private structure EchoStyle where
  newline : Bool
  escapes : Bool

private def isEchoOption (argument : String) : Bool :=
  match argument.toList with
  | '-' :: letter :: letters => (letter :: letters).all fun letter => "neE".toList.contains letter
  | _ => false

private def echoOptions (style : EchoStyle) : List String → EchoStyle × List String
  | [] => (style, [])
  | argument :: rest =>
      if isEchoOption argument then
        let style := argument.toList.foldl (fun style letter => match letter with
          | 'n' => { style with newline := false }
          | 'e' => { style with escapes := true }
          | 'E' => { style with escapes := false }
          | _ => style) style
        echoOptions style rest
      else (style, argument :: rest)

private def echoText (style : EchoStyle) (arguments : List String) : Ending :=
  let text := " ".intercalate arguments
  let (bytes, ended) := if style.escapes then unescaped text else (text.toUTF8, false)
  { output := if style.newline && !ended then bytes ++ "\n".toUTF8 else bytes }

def echo (arguments : List String) : Ending :=
  let (style, rest) := echoOptions ⟨true, false⟩ arguments
  echoText style rest

/-- The `echo` of the shell replaces escapes, and knows no other option than `-n`. -/
def shellEcho : List String → Ending
  | "-n" :: rest => echoText ⟨false, true⟩ rest
  | arguments => echoText ⟨true, true⟩ arguments

/-! `printf` -/

private structure Conversion where
  left : Bool := false
  zeros : Bool := false
  plus : Bool := false
  space : Bool := false
  alternate : Bool := false
  width : Nat := 0
  places : Option Nat := none

private def readFlags : Conversion → List Char → Conversion × List Char
  | conversion, '-' :: rest => readFlags { conversion with left := true } rest
  | conversion, '0' :: rest => readFlags { conversion with zeros := true } rest
  | conversion, '+' :: rest => readFlags { conversion with plus := true } rest
  | conversion, ' ' :: rest => readFlags { conversion with space := true } rest
  | conversion, '#' :: rest => readFlags { conversion with alternate := true } rest
  | conversion, rest => (conversion, rest)

private def readNumber (characters : List Char) : Nat × List Char :=
  (Number.decimalValue (characters.takeWhile Char.isDigit), characters.dropWhile Char.isDigit)

private def readConversion (characters : List Char) : Conversion × List Char :=
  let (conversion, rest) := readFlags {} characters
  let (width, rest) := readNumber rest
  let conversion := { conversion with width }
  match rest with
  | '.' :: rest =>
      let (places, rest) := readNumber rest
      ({ conversion with places := some places }, rest)
  | rest => (conversion, rest)

private def spaces (count : Nat) : ByteArray := (String.ofList (List.replicate count ' ')).toUTF8

private def padded (conversion : Conversion) (bytes : ByteArray) : ByteArray :=
  let fill := spaces (conversion.width - bytes.size)
  if conversion.left then bytes ++ fill else fill ++ bytes

/-- The number at the front of an argument, and whether it is all of it. -/
private def argumentNumber (argument : String) : Int × Bool :=
  let characters := argument.toList.dropWhile (· = ' ')
  let (negative, digits) := match characters with
    | '-' :: rest => (true, rest)
    | '+' :: rest => (false, rest)
    | rest => (false, rest)
  let (value, rest) := readNumber digits
  (if negative then -(value : Int) else value,
    argument.isEmpty || (rest.isEmpty && !digits.isEmpty))

private def numberText (conversion : Conversion) (verb : Char) (value : Int) : ByteArray :=
  let base := match verb with
    | 'o' => 8
    | 'x' => 16
    | 'X' => 16
    | _ => 10
  let digits := Nat.toDigits base value.natAbs
  let digits := if verb = 'X' then digits.map Char.toUpper else digits
  let sign : List Char :=
    if value < 0 then ['-'] else if conversion.plus then ['+'] else if conversion.space then [' ']
    else []
  let count := match conversion.places with
    | some places => places
    | none =>
        if conversion.zeros && !conversion.left then conversion.width - sign.length else 0
  padded conversion
    (String.ofList (sign ++ List.replicate (count - digits.length) '0' ++ digits)).toUTF8

/-- One directive with its argument: what is printed, the complaint about the
argument, and whether printing ends here. -/
private def convert (conversion : Conversion) (verb : Char) (argument : String) :
    Option (ByteArray × String × Bool) :=
  let cut (bytes : ByteArray) : ByteArray := match conversion.places with
    | some places => bytes.extract 0 places
    | none => bytes
  match verb with
  | 's' => some (padded conversion (cut argument.toUTF8), "", false)
  | 'b' =>
      let (bytes, ended) := unescaped argument
      some (padded conversion (cut bytes), "", ended)
  | 'c' => some (padded conversion (String.ofList (argument.toList.take 1)).toUTF8, "", false)
  | 'd' | 'i' | 'u' | 'o' | 'x' | 'X' =>
      let (value, whole) := argumentNumber argument
      let complaint := if whole then ""
        else "printf: ‘" ++ argument ++ "’: expected a numeric value\n"
      some (numberText conversion verb value, complaint, false)
  | _ => none

private structure Printed where
  output : ByteArray := .empty
  errors : String := ""
  /-- What is left of the arguments. -/
  rest : List String
  /-- An argument was taken. -/
  took : Bool := false
  ended : Bool := false

private def printOnce : Nat → List Char → Printed → Printed
  | 0, _, printed => printed
  | _, [], printed => printed
  | fuel + 1, '%' :: '%' :: template, printed =>
      printOnce fuel template { printed with output := printed.output ++ byte 37 }
  | fuel + 1, '%' :: template, printed =>
      let (conversion, template) := readConversion template
      match template with
      | [] =>
          { printed with
            errors := printed.errors ++ "printf: missing conversion\n"
            ended := true }
      | verb :: template =>
          match convert conversion verb (printed.rest.head?.getD "") with
          | none =>
              { printed with
                errors := printed.errors ++ "printf: %" ++ verb.toString
                  ++ ": invalid conversion specification\n"
                ended := true }
          | some (bytes, complaint, ended) =>
              let printed := { printed with
                output := printed.output ++ bytes
                errors := printed.errors ++ complaint
                rest := printed.rest.drop 1
                took := true
                ended := ended }
              if ended then printed else printOnce fuel template printed
  | _ + 1, '\\' :: 'c' :: _, printed => { printed with ended := true }
  | fuel + 1, '\\' :: template, printed =>
      let (bytes, template) := escape false template
      printOnce fuel template { printed with output := printed.output ++ bytes }
  | fuel + 1, character :: template, printed =>
      printOnce fuel template { printed with output := printed.output ++ characterBytes character }

/-- The template is used again as long as arguments are left. -/
private def printAll (template : String) : Nat → Printed → Printed
  | 0, printed => printed
  | fuel + 1, printed =>
      let printed := printOnce (template.length + 1) template.toList { printed with took := false }
      if printed.ended || !printed.took || printed.rest.isEmpty then printed
      else printAll template fuel printed

def printf : List String → Ending
  | [] => .failing 1
      "printf: missing operand\nTry 'printf --help' for more information.\n"
  | "--" :: template :: arguments => print template arguments
  | template :: arguments => print template arguments
where
  print (template : String) (arguments : List String) : Ending :=
    let printed := printAll template (arguments.length + 1) { rest := arguments }
    { output := printed.output
      errors := printed.errors.toUTF8
      status := .code (if printed.errors.isEmpty then 0 else 1) }

/-! `wc` -/

private structure Counts where
  lines : Nat
  words : Nat
  bytes : Nat
  characters : Nat

private def isSpaceByte (byte : UInt8) : Bool := byte == 32 || (9 ≤ byte && byte ≤ 13)

private def Counts.ofBytes (bytes : ByteArray) : Counts :=
  let (words, _) := bytes.data.toList.foldl (fun (words, inside) byte =>
    if isSpaceByte byte then (words, false)
    else (if inside then words else words + 1, true)) (0, false)
  { lines := (bytes.data.toList.filter (· == 10)).length
    words
    bytes := bytes.size
    characters := (bytes.data.toList.filter fun byte => byte < 128 || 192 ≤ byte).length }

private def Counts.add (left right : Counts) : Counts :=
  ⟨left.lines + right.lines, left.words + right.words, left.bytes + right.bytes,
    left.characters + right.characters⟩

private def Counts.chosen (letters : List Char) (counts : Counts) : List Nat :=
  (if letters.contains 'l' then [counts.lines] else [])
    ++ (if letters.contains 'w' then [counts.words] else [])
    ++ (if letters.contains 'm' then [counts.characters] else [])
    ++ (if letters.contains 'c' then [counts.bytes] else [])

private def rightAligned (width : Nat) (value : Nat) : String :=
  let text := toString value
  .ofList (List.replicate (width - text.length) ' ') ++ text

private def countLine (width : Nat) (letters : List Char) (counts : Counts) (name : String) :
    String :=
  " ".intercalate ((counts.chosen letters).map (rightAligned width))
    ++ (if name.isEmpty then "" else " " ++ name) ++ "\n"

variable {m : Type → Type} [Monad m]

private def readAll (store : FileStore m) :
    List String → m (List (String × Except FileFault ByteArray))
  | [] => return []
  | name :: names => do
      let result ← store.read name
      return (name, result) :: (← readAll store names)

private def faultText (fault : FileFault) : String :=
  match fault with
  | .missing => "No such file or directory"
  | .denied => "Permission denied"
  | .notDirectory => "Not a directory"
  | .directory => "Is a directory"
  | .nameTooLong => "File name too long"
  | fault => fault.message

def wc (store : FileStore m) (input : ByteArray) (arguments : List String) : m Ending := do
  let (options, names) := arguments.partition fun argument =>
    argument.startsWith "-" && argument != "-"
  let letters := options.flatMap fun option => option.toList.drop 1
  let letters := if letters.isEmpty then ['l', 'w', 'c'] else letters
  if names.isEmpty then
    let counts := Counts.ofBytes input
    let width := if (counts.chosen letters).length = 1 then 1 else 7
    return .printing (countLine width letters counts "")
  let results ← readAll store names
  let counted := results.filterMap fun (name, result) =>
    result.toOption.map fun bytes => (name, Counts.ofBytes bytes)
  let total := counted.foldl (fun total (_, counts) => total.add counts) ⟨0, 0, 0, 0⟩
  let width := if names.length = 1 && letters.length = 1 then 1
    else (toString total.bytes).length
  let lines := counted.map fun (name, counts) => countLine width letters counts name
  let last := if 1 < names.length then countLine width letters total "total" else ""
  let complaints := results.filterMap fun (name, result) => match result with
    | .error fault => some ("wc: " ++ name ++ ": " ++ faultText fault ++ "\n")
    | .ok _ => none
  return { output := (String.join lines ++ last).toUTF8
           errors := (String.join complaints).toUTF8
           status := .code (if complaints.isEmpty then 0 else 1) }

/-- Print files one behind the other, or the input where a dash or nothing stands. -/
def cat (store : FileStore m) (input : ByteArray) (arguments : List String) : m Ending := do
  if arguments.isEmpty then return { output := input }
  let results ← readAll store (arguments.filter (· != "-"))
  let pieces := arguments.map fun name =>
    if name = "-" then .ok input else (results.lookup name).getD (.error .missing)
  let complaints := results.filterMap fun (name, result) => match result with
    | .error fault => some ("cat: " ++ name ++ ": " ++ faultText fault ++ "\n")
    | .ok _ => none
  let output := pieces.foldl (fun output piece => output ++ (piece.toOption.getD .empty)) .empty
  return { output
           errors := (String.join complaints).toUTF8
           status := .code (if complaints.isEmpty then 0 else 1) }

/-- The program of a name, without the directory it lies in. -/
def plainName (name : String) : String :=
  match ["/bin/", "/usr/bin/"].find? fun directory => name.startsWith directory with
  | some directory => .ofList (name.toList.drop directory.length)
  | none => name

/-- Run a program that is no shell; nothing if there is none of this name. -/
def run (store : FileStore m) (input : ByteArray) (name : String) (arguments : List String) :
    m (Option Ending) := do
  match plainName name with
  | "echo" => return some (echo arguments)
  | "printf" => return some (printf arguments)
  | "true" => return some {}
  | "false" => return some (.failing 1)
  | "wc" => return some (← wc store input arguments)
  | "cat" => return some (← cat store input arguments)
  | _ => return none

end Program

end Stencil
