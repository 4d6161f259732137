import NostrSearch.Core.Text

/-!
# NIP-19

`npub`, `note`, `nprofile` and `nevent` entities decoded to hex. The last six bytes of the data are
the checksum and are cut off without a look at them; where that cut is in the middle of a character
the slice panics.
-/

namespace NostrSearch.Core

/-- A panic: a slice that does not end at a character boundary. -/
inductive Panic
  | charBoundary
deriving DecidableEq

/-- `&s[..n]`. -/
def sliceTo : ℕ → List Char → Except Panic (List Char)
  | _, [] => .ok []
  | n, c :: cs =>
    if n = 0 then .ok []
    else if c.utf8Size ≤ n then (sliceTo (n - c.utf8Size) cs).map fun out => c :: out
    else .error .charBoundary

/-- Bech32 character set. -/
def charset : List Char := "qpzry9x8gf2tvdw0s3jn54khce6mua7l".toList

/-- The five bits a character stands for. -/
def charsetBits (c : Char) : Option (List ℕ) :=
  (charset.findIdx? fun x => x = c.toLower).map fun v =>
    [v / 16 % 2, v / 8 % 2, v / 4 % 2, v / 2 % 2, v % 2]

/-- `as_chunks::<8>()`, each chunk read as a byte. Bits that fill no chunk are left out. -/
def bytesOfBits : List ℕ → List ℕ
  | a :: b :: c :: d :: e :: f :: g :: h :: rest =>
    [a, b, c, d, e, f, g, h].foldl (fun acc bit => acc * 2 + bit) 0 :: bytesOfBits rest
  | _ => []

/-- First record of type 0 with a 32-byte value. `records` bounds how many are looked at. -/
def tlvSpecialIn : ℕ → List ℕ → Option (List ℕ)
  | 0, _ => none
  | records + 1, t :: l :: rest =>
    if rest.length < l then none
    else if t = 0 ∧ l = 32 then some (rest.take l)
    else tlvSpecialIn records (rest.drop l)
  | _ + 1, _ => none

/-- A record takes two bytes at least. -/
def tlvSpecial (b : List ℕ) : Option (List ℕ) := tlvSpecialIn (b.length / 2 + 1) b

def hexChar (n : ℕ) : Char := "0123456789abcdef".toList.getD n '0'

def hexOf (b : List ℕ) : List Char := b.flatMap fun x => [hexChar (x / 16), hexChar (x % 16)]

/-- The hex of an entity's data, its checksum cut off. -/
def decodePayload (hrp payload : List Char) : Option (List Char) :=
  match payload.mapM charsetBits with
  | none => none
  | some bits =>
    let bytes := bytesOfBits bits.flatten
    if hrp = "npub".toList ∨ hrp = "note".toList then
      if bytes.length = 32 then some (hexOf bytes) else none
    else if hrp = "nprofile".toList ∨ hrp = "nevent".toList then (tlvSpecial bytes).map hexOf
    else none

/-- Decode an entity to lowercase hex, if its prefix is one of `allowed`. -/
def decodeHex (s : List Char) (allowed : List (List Char)) : Except Panic (Option (List Char)) :=
  let s := trim s
  if '1' ∉ s then .ok none
  else
    let data := afterLast '1' s
    let hrp := asciiLower (s.take (s.length - data.length - 1))
    if hrp ∉ allowed then .ok none
    else if byteLen data < 6 then .ok none
    else (sliceTo (byteLen data - 6) data).map (decodePayload hrp)

/-- Strings whose prefix is no allowed one do not decode, and do not get as far as the slice. -/
theorem decodeHex_of_prefix {s : List Char} {allowed : List (List Char)}
    (h : ∀ hrp ∈ allowed, ∃ c ∈ hrp, ∀ x ∈ s, x.toLower ≠ c) : decodeHex s allowed = .ok none := by
  unfold decodeHex
  dsimp only
  split
  · rfl
  · rw [if_pos]
    intro hmem
    obtain ⟨c, hc, hne⟩ := h _ hmem
    unfold asciiLower at hc
    obtain ⟨x, hx, hxc⟩ := List.mem_map.mp hc
    refine hne x ?_ hxc
    have htrim := List.mem_of_mem_take hx
    unfold trim at htrim
    rw [List.mem_reverse] at htrim
    have hdrop := List.mem_reverse.mp ((List.dropWhile_sublist _).subset htrim)
    exact (List.dropWhile_sublist _).subset hdrop

-- a well-known key, and its hex
example : decodeHex "npub1sg6plzptd64u62a878hep2kev88swjh3tw00gjsfl8f237lmu63q0uf63m".toList
    ["npub".toList] =
      .ok (some "82341f882b6eabcd2ba7f1ef90aad961cf074af15b9ef44a09f9d2a8fbfbe6a2".toList) := by
  decide +kernel

end NostrSearch.Core
