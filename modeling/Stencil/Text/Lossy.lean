namespace Stencil.Text

/-! Text from bytes of which some may be no UTF-8. Every longest start of a
character that does not go on, and every byte that starts none, becomes one
replacement character. -/

/-- A character that has begun: the bytes it still needs, the bounds of the next
one, and its number as far as it is known. -/
private structure Begun where
  needed : Nat
  least : Nat
  most : Nat
  code : Nat

private def replacement : Char := '\uFFFD'

/-- The bounds keep out overlong forms, surrogates and numbers above the last one. -/
private def begin? (byte : Nat) : Option Begun :=
  if 0xC2 ≤ byte ∧ byte ≤ 0xDF then some ⟨1, 0x80, 0xBF, byte % 32⟩
  else if 0xE0 ≤ byte ∧ byte ≤ 0xEF then
    some ⟨2, if byte = 0xE0 then 0xA0 else 0x80, if byte = 0xED then 0x9F else 0xBF, byte % 16⟩
  else if 0xF0 ≤ byte ∧ byte ≤ 0xF4 then
    some ⟨3, if byte = 0xF0 then 0x90 else 0x80, if byte = 0xF4 then 0x8F else 0xBF, byte % 8⟩
  else none

/-- The characters that a byte completes, reversed in front of those before it. -/
private def startByte (written : List Char) (byte : Nat) : List Char × Option Begun :=
  if byte < 0x80 then (Char.ofNat byte :: written, none)
  else
    match begin? byte with
    | some begun => (written, some begun)
    | none => (replacement :: written, none)

private def nextByte : List Char × Option Begun → UInt8 → List Char × Option Begun
  | (written, none), byte => startByte written byte.toNat
  | (written, some begun), byte =>
      if begun.least ≤ byte.toNat ∧ byte.toNat ≤ begun.most then
        let code := 64 * begun.code + byte.toNat % 64
        if begun.needed = 1 then (Char.ofNat code :: written, none)
        else (written, some ⟨begun.needed - 1, 0x80, 0xBF, code⟩)
      else startByte (replacement :: written) byte.toNat

/-- The text that the bytes hold, with replacement characters for what is no text. -/
def ofBytes (bytes : List UInt8) : String :=
  match bytes.foldl nextByte ([], none) with
  | (written, none) => .ofList written.reverse
  | (written, some _) => .ofList (replacement :: written).reverse

example : ofBytes [0x61, 0xC3, 0xA9] = "aé" := by decide +kernel
example : ofBytes [0xFF, 0xE2, 0x82, 0x61] = "\uFFFD\uFFFDa" := by decide +kernel

end Stencil.Text
