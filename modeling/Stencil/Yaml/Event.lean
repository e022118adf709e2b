import Stencil.Yaml.Fault

namespace Stencil.Yaml

/-! A document as a row of events: its values in the order of the text, collections
with a start and an end. An alias goes back to the event of its anchor. -/

inductive Event where
  | alias (number : Nat)
  | scalar (tag : Option String) (plain : Bool) (content : String)
  | sequenceStart (tag : Option String)
  | sequenceEnd
  | mappingStart (tag : Option String)
  | mappingEnd
deriving DecidableEq, Repr

structure Document where
  /-- Each event with its place. -/
  events : Array (Event × Position) := #[]
  /-- The number of the event that an anchor belongs to; the first entry of an anchor counts. -/
  anchored : List (Nat × Nat) := []
  /-- Why the events end before the document does. -/
  fault : Option Fault := none
  /-- More follows the document. -/
  followed : Bool := false

end Stencil.Yaml
