import Stencil.Address.Basic
import Stencil.Text.Blank

namespace Stencil.Address

/-! Reading. Four decimal numbers with dots between them, none above 255 and
none with a leading zero; or eight groups of at most four hexadecimal digits
with colons between them, where two colons stand for one run of zero groups
and the last two groups may be written as four decimal numbers. -/

def hexadecimalDigit? (character : Char) : Option Nat :=
  if character.isDigit then some (character.toNat - 48)
  else if 'a' ≤ character ∧ character ≤ 'f' then some (character.toNat - 87)
  else if 'A' ≤ character ∧ character ≤ 'F' then some (character.toNat - 55)
  else none

def readOctet? (characters : List Char) : Option (Nat × List Char) :=
  let digits := characters.takeWhile Char.isDigit
  let value := digits.foldl (fun value digit => 10 * value + (digit.toNat - 48)) 0
  if digits.isEmpty || 3 < digits.length || (digits.head? == some '0' && 1 < digits.length)
      || 255 < value then none
  else some (value, characters.dropWhile Char.isDigit)

/-- More octets, each behind a dot. -/
def readOctets? : Nat → Nat → List Char → Option (Nat × List Char)
  | 0, value, characters => some (value, characters)
  | count + 1, value, characters =>
      match characters with
      | '.' :: rest => do
          let (octet, rest) ← readOctet? rest
          readOctets? count (256 * value + octet) rest
      | _ => none

def readFour? (characters : List Char) : Option (Nat × List Char) := do
  let (octet, rest) ← readOctet? characters
  readOctets? 3 octet rest

def readGroup? (characters : List Char) : Option (Nat × List Char) :=
  let digits := characters.takeWhile fun character => (hexadecimalDigit? character).isSome
  if digits.isEmpty || 4 < digits.length then none
  else
    let value := digits.foldl (fun value digit => 16 * value + (hexadecimalDigit? digit).getD 0) 0
    some (value, characters.drop digits.length)

/-- What a group starts from: a colon stands before every group but the first. -/
def behindColon? (first : Bool) (characters : List Char) : Option (List Char) :=
  match first, characters with
  | true, _ => some characters
  | false, ':' :: rest => some rest
  | false, _ => none

/-- The groups at the front, at most `count` of them, whether they end in four
decimal numbers, and what is left. -/
def readGroups : Nat → Bool → List Char → List Nat × Bool × List Char
  | 0, _, characters => ([], false, characters)
  | count + 1, first, characters =>
      let start := behindColon? first characters
      match (if count = 0 then none else start.bind readFour?) with
      | some (value, rest) => ([value / 65536, value % 65536], true, rest)
      | none =>
          match start.bind readGroup? with
          | some (group, rest) =>
              let (groups, decimal, rest) := readGroups count false rest
              (group :: groups, decimal, rest)
          | none => ([], false, characters)

def groupsValue (groups : List Nat) : Nat :=
  groups.foldl (fun value group => 65536 * value + group) 0

def readSix? (characters : List Char) : Option (Nat × List Char) :=
  let (head, decimal, rest) := readGroups 8 true characters
  if head.length = 8 then some (groupsValue head, rest)
  else if decimal then none
  else
    match rest with
    | ':' :: ':' :: rest =>
        let (tail, _, rest) := readGroups (7 - head.length) true rest
        let zeros := List.replicate (8 - head.length - tail.length) 0
        some (groupsValue (head ++ zeros ++ tail), rest)
    | _ => none

/-- The address that the whole text writes. -/
def read? (text : String) : Option Address :=
  match readFour? text.toList with
  | some (value, []) => ofNat? .four value
  | some _ => none
  | none =>
      match readSix? text.toList with
      | some (value, []) => ofNat? .six value
      | _ => none

/-! Printing. The longest run of at least two zero groups, the first of equals,
becomes two colons. Addresses that map the other family end in four decimal
numbers. -/

def fourText (value : Nat) : String :=
  ".".intercalate
    ([value / 16777216, value / 65536 % 256, value / 256 % 256, value % 256].map toString)

def groupText (group : Nat) : String := .ofList (Nat.toDigits 16 group)

def groupsText (groups : List Nat) : String := ":".intercalate (groups.map groupText)

/-- The number's eight groups of sixteen bits, from the top. -/
def groups (value : Nat) : List Nat :=
  (List.range 8).map fun index => value / Nat.pow 65536 (7 - index) % 65536

/-- A stretch of zero groups: where it starts and how long it is. -/
structure Gap where
  start : Nat
  length : Nat

def longestGap : List Nat → Nat → Gap → Gap → Gap
  | [], _, _, longest => longest
  | group :: rest, index, running, longest =>
      if group = 0 then
        let running :=
          if running.length = 0 then ⟨index, 1⟩ else ⟨running.start, running.length + 1⟩
        longestGap rest (index + 1) running
          (if longest.length < running.length then running else longest)
      else longestGap rest (index + 1) ⟨0, 0⟩ longest

def sixText (value : Nat) : String :=
  if value / 4294967296 = 65535 then "::ffff:" ++ fourText (value % 4294967296)
  else
    let groups := groups value
    let gap := longestGap groups 0 ⟨0, 0⟩ ⟨0, 0⟩
    if 1 < gap.length then
      groupsText (groups.take gap.start) ++ "::"
        ++ groupsText (groups.drop (gap.start + gap.length))
    else groupsText groups

def print (address : Address) : String :=
  match address.family with
  | .four => fourText address.value
  | .six => sixText address.value

end Stencil.Address
