import Stencil.Address.Range
import Stencil.Node.Lookup
import Stencil.Node.Text
import Stencil.Number.Word

namespace Stencil

/-! Operators on values. -/

namespace Number

/-- The remainder belongs to a quotient, and there is none where the quotient does
not fit. -/
def arithmetic (operator : Operator) (left right : Int64) : Except Issue Int64 :=
  let fitted (result : Int) : Except Issue Int64 :=
    match word? result with
    | some word => .ok word
    | none => .error .overflow
  match operator with
  | .add => fitted (left.toInt + right.toInt)
  | .subtract => fitted (left.toInt - right.toInt)
  | .multiply => fitted (left.toInt * right.toInt)
  | .divide =>
      if right = 0 then .error .divisionByZero else fitted (left.toInt.tdiv right.toInt)
  | _ =>
      if right = 0 then .error .divisionByZero
      else do
        let _ ← fitted (left.toInt.tdiv right.toInt)
        fitted (left.toInt.tmod right.toInt)

end Number

namespace Value

def orAddressFault (result : Except AddressFault Value) : Except Issue Value :=
  match result with
  | .ok value => .ok value
  | .error fault => .error (.address fault)

def moveAddress (address : String) (distance : Int) : Except Issue Value :=
  orAddressFault ((Address.offset address distance).map fun moved => .text moved.print)

/-- Integers compute. Texts add up, except that an address and an integer give
the address that many places further, and two addresses have a distance. -/
def arithmetic (operator : Operator) (left right : Value) : Except Issue Value :=
  let mismatch := .error (.operands operator left.kind right.kind)
  match left, right with
  | .integer left, .integer right => (Number.arithmetic operator left right).map .integer
  | .text address, .integer distance =>
      if !Address.isAddress address then mismatch
      else
        match operator with
        | .add => moveAddress address distance.toInt
        | .subtract => moveAddress address (-distance.toInt)
        | _ => mismatch
  | .text left, .text right =>
      match operator with
      | .add => .ok (.text (left ++ right))
      | .subtract =>
          if Address.isAddress left && Address.isAddress right then
            orAddressFault ((Address.distance left right).map .integer)
          else mismatch
      | _ => mismatch
  | _, _ => mismatch

def concatenate (left right : Value) : Except Issue Value :=
  match left, right with
  | .text left, .text right => .ok (.text (left ++ right))
  | left, right => .error (.concatenation left.kind right.kind)

/-- Values of one kind are compared by their contents, scalars of different kinds
by their texts. Null equals only itself. -/
def comparesEqual (left right : Value) : Bool :=
  match left, right with
  | .null, .null => true
  | .null, _ | _, .null => false
  | left, right =>
      if left.kind = right.kind then left.equivalent right
      else
        match left.text?, right.text? with
        | some left, some right => left == right
        | _, _ => false

def compare (operator : Operator) (left right : Value) : Except Issue Value :=
  match operator with
  | .equal => .ok (.boolean (comparesEqual left right))
  | .notEqual => .ok (.boolean (!comparesEqual left right))
  | _ =>
      match left, right with
      | .integer left, .integer right =>
          .ok (.boolean (match operator with
            | .less => decide (left < right)
            | .lessOrEqual => decide (left ≤ right)
            | .greater => decide (right < left)
            | _ => decide (right ≤ left)))
      | _, _ => .error .comparison

/-- The operators that evaluate both of their operands beforehand. -/
def operate (operator : Operator) (left right : Value) : Except Issue Value :=
  match operator with
  | .add | .subtract | .multiply | .divide | .modulo => arithmetic operator left right
  | .concatenation => concatenate left right
  | _ => compare operator left right

/-! `-and` and `-or` work on the bits of two integers, and on truth otherwise. -/

/-- The result that the left operand decides alone. -/
def decided? (operator : Operator) (left : Value) : Option Bool :=
  match left with
  | .integer _ => none
  | _ =>
      match operator, left.truthy with
      | .and, false => some false
      | .or, true => some true
      | _, _ => none

def combine (operator : Operator) (left right : Value) : Value :=
  match left, right with
  | .integer left, .integer right =>
      .integer (if operator = .and then left &&& right else left ||| right)
  | left, right =>
      .boolean (if operator = .and then left.truthy && right.truthy
        else left.truthy || right.truthy)

end Value

end Stencil
