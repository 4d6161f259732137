import Mathlib.Data.Vector.Basic
import Mathlib.Tactic

/-!
# 32-byte ids and their hex spelling

Event ids and public keys are 32 bytes, written as 64 hex digits. Two parsers of that spelling
live in the source, and they do not accept the same strings; what they share is here.
-/

namespace NostrSearch.Core

/-- `[u8; 32]`. -/
abbrev Bytes32 := Vector UInt8 32

instance lawfulBEqBytes32 : LawfulBEq Bytes32 := inferInstance

/-- The value of a hex digit of either case. -/
def hexDigit (c : Char) : Option ℕ :=
  if '0' ≤ c ∧ c ≤ '9' then some (c.toNat - 48)
  else if 'a' ≤ c ∧ c ≤ 'f' then some (c.toNat - 87)
  else if 'A' ≤ c ∧ c ≤ 'F' then some (c.toNat - 55)
  else none

/-- Read two characters at a time. -/
def decodePairs (byte : Char → Char → Option UInt8) : List Char → Option (List UInt8)
  | [] => some []
  | [_] => none
  | a :: b :: rest => do
    let x ← byte a b
    let xs ← decodePairs byte rest
    pure (x :: xs)

/-- The characters of a 64-byte string as 32 bytes. A character outside ASCII is part of no
byte's spelling, so that reading pairs of characters and pairs of bytes comes to the same. -/
def decode32 (byte : Char → Char → Option UInt8) (s : String) : Option Bytes32 :=
  if s.utf8ByteSize ≠ 64 then none
  else
    match decodePairs byte s.toList with
    | none => none
    | some bytes => if h : bytes.toArray.size = 32 then some ⟨bytes.toArray, h⟩ else none

end NostrSearch.Core
