/-!
# Text from bytes

A byte that starts no UTF-8 character stands for the replacement character, and reading goes on behind it.
-/

namespace HdlLowering.Text

def continuation? (b : UInt8) : Option Nat := if 0x80 ≤ b ∧ b < 0xc0 then some (b.toNat % 64) else none

/-- The character with a code, which must not be one that fewer bytes can give. -/
def scalar? (least code : Nat) : Option Char :=
  if least ≤ code ∧ code.isValidChar then some (Char.ofNat code) else none

/-- The character at the front of some bytes, and how many bytes behind its first it takes. -/
def firstChar? : List UInt8 → Option (Char × Nat)
  | [] => none
  | a :: rest =>
    if a < 0x80 then some (Char.ofNat a.toNat, 0)
    else if 0xc0 ≤ a ∧ a < 0xe0 then do
      let code ← (rest.take 1).foldlM (fun n b => (continuation? b).map (n * 64 + ·)) (a.toNat % 32)
      return (← scalar? 0x80 code, 1)
    else if 0xe0 ≤ a ∧ a < 0xf0 then do
      let code ← (rest.take 2).foldlM (fun n b => (continuation? b).map (n * 64 + ·)) (a.toNat % 16)
      return (← scalar? 0x800 code, 2)
    else if 0xf0 ≤ a ∧ a < 0xf8 then do
      let code ← (rest.take 3).foldlM (fun n b => (continuation? b).map (n * 64 + ·)) (a.toNat % 8)
      return (← scalar? 0x10000 code, 3)
    else none

/-- The characters of some bytes, of which the first ones have been read already. -/
def charsFrom (read : Nat) : List UInt8 → List Char
  | [] => []
  | b :: rest =>
    match read, firstChar? (b :: rest) with
    | n + 1, _ => charsFrom n rest
    | 0, some (c, n) => c :: charsFrom n rest
    | 0, none => '\ufffd' :: charsFrom 0 rest

def ofBytes (bytes : List UInt8) : String := String.ofList (charsFrom 0 bytes)

end HdlLowering.Text
