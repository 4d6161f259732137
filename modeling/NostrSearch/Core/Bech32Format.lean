import NostrSearch.Core.Bech32
import NostrSearch.Lib.ShiftRegister

/-!
# The bech32 format

What a bech32 string is, apart from what `decode_hex` makes of it: a prefix, the separator, and
symbols of five bits, the last six of which are a checksum. The checksum is a code over the field of
32 elements; the register it is computed in holds six symbols (`NostrSearch.Lib.ShiftRegister`). A
payload of bytes is regrouped into symbols, with zero bits to fill the last one.
-/

namespace NostrSearch.Core

open NostrSearch.Lib

/-! ## Symbols -/

/-- A symbol of the data part: five bits, added bit by bit. -/
structure Symbol where
  bits : BitVec 5
deriving DecidableEq

namespace Symbol

instance : Add Symbol := ⟨fun a b => ⟨a.bits ^^^ b.bits⟩⟩

instance : Zero Symbol := ⟨⟨0⟩⟩

instance : Neg Symbol := ⟨fun a => a⟩

instance : AddCommGroup Symbol where
  add_assoc a b c := congrArg mk (BitVec.xor_assoc a.bits b.bits c.bits)
  zero_add a := congrArg mk BitVec.zero_xor
  add_zero a := congrArg mk BitVec.xor_zero
  neg_add_cancel a := congrArg mk BitVec.xor_self
  add_comm a b := congrArg mk (BitVec.xor_comm a.bits b.bits)
  nsmul := nsmulRec
  zsmul := zsmulRec

theorem bits_add (a b : Symbol) : (a + b).bits = a.bits ^^^ b.bits := rfl

theorem add_self (a : Symbol) : a + a = 0 := congrArg mk BitVec.xor_self

/-- The character of a symbol. -/
def char (v : Symbol) : Char := charset.getD v.bits.toNat 'q'

/-- Its bits, the highest first. -/
def toBits (v : Symbol) : List ℕ :=
  let n := v.bits.toNat
  [n / 16 % 2, n / 8 % 2, n / 4 % 2, n / 2 % 2, n % 2]

def ofNat (n : ℕ) : Symbol := ⟨BitVec.ofNat 5 n⟩

end Symbol

/-! ## The checksum -/

/-- What one bit of the symbol that falls out is fed back as, of all six places. -/
def generators : List ℕ := [0x3b6a57b2, 0x26508e6d, 0x1ea119fa, 0x3d4233dd, 0x2a1462b3]

/-- A place of a generator. -/
def generatorAt (g : ℕ) (i : Fin 6) : Symbol := .ofNat (g / 2 ^ (25 - 5 * i.val))

/-- One bit's part of what is fed back. -/
def bitFeedback (v : Symbol) (bit : ℕ) (g : ℕ) (i : Fin 6) : Symbol :=
  if v.bits.getLsbD bit then generatorAt g i else 0

theorem bitFeedback_add (v w : Symbol) (bit g : ℕ) (i : Fin 6) :
    bitFeedback (v + w) bit g i = bitFeedback v bit g i + bitFeedback w bit g i := by
  unfold bitFeedback
  rw [Symbol.bits_add, BitVec.getLsbD_xor]
  cases v.bits.getLsbD bit <;> cases w.bits.getLsbD bit <;> simp [Symbol.add_self]

/-- What a symbol that falls out of the register is fed back as. -/
def feedback : Symbol →+ (Fin 6 → Symbol) where
  toFun v i := (generators.zipIdx.map fun g => bitFeedback v g.2 g.1 i).sum
  map_zero' := by
    funext i
    simp [generators, bitFeedback, show (0 : Symbol).bits = 0 from rfl]
  map_add' v w := by
    funext i
    simp only [bitFeedback_add, Pi.add_apply]
    exact List.sum_map_add

/-- The register at the start, and after a string whose checksum is right. -/
def one : Fin 6 → Symbol := fun i => if i = 5 then .ofNat 1 else 0

/-- The prefix, as it goes into the checksum. -/
def hrpExpand (hrp : List Char) : List Symbol :=
  hrp.map (fun c => .ofNat (c.toNat / 32)) ++ 0 :: hrp.map fun c => .ofNat (c.toNat % 32)

/-- The register after a prefix and symbols. -/
def polymod (hrp : List Char) (symbols : List Symbol) : Fin 6 → Symbol :=
  feed feedback one (hrpExpand hrp ++ symbols)

/-- The six symbols that make a string's checksum. -/
def checksumOf (hrp : List Char) (data : List Symbol) : List Symbol :=
  List.ofFn (checksum feedback one one (hrpExpand hrp ++ data))

/-! ## Bits and bytes -/

/-- The bits of a byte, the highest first. -/
def byteBits (b : ℕ) : List ℕ :=
  [b / 128 % 2, b / 64 % 2, b / 32 % 2, b / 16 % 2, b / 8 % 2, b / 4 % 2, b / 2 % 2, b % 2]

/-- Bits five by five. Zeros fill up the last symbol. -/
def symbolsOf : List ℕ → List Symbol
  | a :: b :: c :: d :: e :: rest => .ofNat (a * 16 + b * 8 + c * 4 + d * 2 + e) :: symbolsOf rest
  | [a, b, c, d] => [.ofNat (a * 16 + b * 8 + c * 4 + d * 2)]
  | [a, b, c] => [.ofNat (a * 16 + b * 8 + c * 4)]
  | [a, b] => [.ofNat (a * 16 + b * 8)]
  | [a] => [.ofNat (a * 16)]
  | [] => []

/-! ## Strings -/

def asciiUpper (s : List Char) : List Char := s.map Char.toUpper

/-- A bech32 string: its prefix, in lowercase, and the symbols before the checksum. -/
structure Bech32 (s hrp : List Char) (data : List Symbol) : Prop where
  hrp_ne : hrp ≠ []
  hrp_range : ∀ c ∈ hrp, 33 ≤ c.toNat ∧ c.toNat ≤ 126
  one_case : asciiLower s = s ∨ asciiUpper s = s
  checked : ∃ check : List Symbol, check.length = 6 ∧
    asciiLower s = hrp ++ '1' :: (data ++ check).map Symbol.char ∧ polymod hrp (data ++ check) = one

/-- Symbols hold bytes: fewer than five bits are left over, and these are zero. -/
structure Payload (data : List Symbol) (bytes : List ℕ) : Prop where
  byte_lt : ∀ b ∈ bytes, b < 256
  bits_eq : ∃ k < 5, data.flatMap Symbol.toBits = bytes.flatMap byteBits ++ List.replicate k 0

/-- The standard encoding of bytes under a prefix. -/
def encodeBech32 (hrp : List Char) (bytes : List ℕ) : List Char :=
  let data := symbolsOf (bytes.flatMap byteBits)
  hrp ++ '1' :: (data ++ checksumOf hrp data).map Symbol.char

/-! ## Characters of symbols -/

namespace Symbol

theorem eq_ofNat (v : Symbol) : ∃ n < 32, v = ofNat n :=
  ⟨v.bits.toNat, v.bits.isLt, congrArg mk (BitVec.ofNat_toNat 5 v.bits ▸ by simp)⟩

theorem forall_iff {P : Symbol → Prop} : (∀ v, P v) ↔ ∀ n < 32, P (ofNat n) := by
  constructor
  · exact fun h n _ => h (ofNat n)
  · intro h v
    obtain ⟨n, hn, rfl⟩ := v.eq_ofNat
    exact h n hn

/-- A symbol's character is where it stands in the alphabet, lowercase, and not the separator. -/
theorem char_spec : ∀ v : Symbol, (charset.findIdx? fun x => x = v.char) = some v.bits.toNat ∧
    v.char.toLower = v.char ∧ v.char ≠ '1' ∧ isWhitespace v.char = false ∧ v.char.toNat < 128 := by
  rw [forall_iff]
  decide

theorem char_injective : Function.Injective char := by
  intro v w h
  have hv := (char_spec v).1
  rw [h, (char_spec w).1] at hv
  cases v
  cases w
  exact congrArg mk (BitVec.eq_of_toNat_eq (Option.some.inj hv).symm)

end Symbol

/-- A character stands for the bits of its symbol, whatever its case. -/
theorem charsetBits_eq_some {c : Char} {bits : List ℕ} :
    charsetBits c = some bits ↔ ∃ v : Symbol, c.toLower = v.char ∧ v.toBits = bits := by
  unfold charsetBits
  rw [Option.map_eq_some_iff]
  constructor
  · rintro ⟨n, hn, hbits⟩
    obtain ⟨hlen, hchar, -⟩ := List.findIdx?_eq_some_iff_getElem.mp hn
    have hlt : n < 32 := hlen
    have hnat : (Symbol.ofNat n).bits.toNat = n := Nat.mod_eq_of_lt hlt
    refine ⟨.ofNat n, ?_, ?_⟩
    · rw [Symbol.char, hnat, List.getD_eq_getElem _ _ hlen]
      exact (of_decide_eq_true hchar).symm
    · rw [Symbol.toBits, hnat]
      exact hbits
  · rintro ⟨v, hv, rfl⟩
    exact ⟨_, hv ▸ (Symbol.char_spec v).1, rfl⟩

theorem mapM_charsetBits {payload : List Char} {bits : List (List ℕ)} :
    payload.mapM charsetBits = some bits ↔
      ∃ data : List Symbol, asciiLower payload = data.map Symbol.char ∧
        data.map Symbol.toBits = bits := by
  induction payload generalizing bits with
  | nil =>
    constructor
    · rintro ⟨⟩
      exact ⟨[], rfl, rfl⟩
    · rintro ⟨data, hdata, rfl⟩
      rw [List.map_eq_nil_iff.mp hdata.symm]
      rfl
  | cons c payload ih =>
    rw [List.mapM_cons]
    constructor
    · intro h
      obtain ⟨b, hb, h⟩ := Option.bind_eq_some_iff.mp h
      obtain ⟨bs, hbs, h⟩ := Option.bind_eq_some_iff.mp h
      cases h
      obtain ⟨v, hv, rfl⟩ := charsetBits_eq_some.mp hb
      obtain ⟨data, hdata, rfl⟩ := ih.mp hbs
      refine ⟨v :: data, ?_, rfl⟩
      rw [List.map_cons, ← hv, ← hdata]
      rfl
    · rintro ⟨data, hdata, rfl⟩
      cases data with
      | nil => cases hdata
      | cons v data =>
        obtain ⟨hv, hrest⟩ := List.cons.inj hdata
        rw [charsetBits_eq_some.mpr ⟨v, hv, rfl⟩, ih.mpr ⟨data, hrest, rfl⟩]
        rfl

/-! ## Regrouping -/

/-- Numbers that are bits. -/
def AreBits (l : List ℕ) : Prop := ∀ x ∈ l, x < 2

theorem areBits_symbols (data : List Symbol) : AreBits (data.flatMap Symbol.toBits) := by
  intro x hx
  obtain ⟨v, -, hv⟩ := List.mem_flatMap.mp hx
  simp only [Symbol.toBits, List.mem_cons, List.not_mem_nil, or_false] at hv
  omega

theorem areBits_bytes (bytes : List ℕ) : AreBits (bytes.flatMap byteBits) := by
  intro x hx
  obtain ⟨b, -, hb⟩ := List.mem_flatMap.mp hx
  simp only [byteBits, List.mem_cons, List.not_mem_nil, or_false] at hb
  omega

theorem bytesOfBits_short {pad : List ℕ} (h : pad.length < 8) : bytesOfBits pad = [] := by
  match pad with
  | [] | [_] | [_, _] | [_, _, _] | [_, _, _, _] | [_, _, _, _, _] | [_, _, _, _, _, _]
  | [_, _, _, _, _, _, _] => rfl
  | _ :: _ :: _ :: _ :: _ :: _ :: _ :: _ :: _ =>
    simp only [List.length_cons] at h
    omega

theorem foldl_byteBits : ∀ b < 256, (byteBits b).foldl (fun acc bit => acc * 2 + bit) 0 = b := by
  decide +kernel

/-- Bytes come back from their bits, with fewer than eight more behind them. -/
theorem bytesOfBits_append {bytes pad : List ℕ} (hbytes : ∀ b ∈ bytes, b < 256)
    (hpad : pad.length < 8) : bytesOfBits (bytes.flatMap byteBits ++ pad) = bytes := by
  induction bytes with
  | nil => exact bytesOfBits_short hpad
  | cons b bytes ih =>
    obtain ⟨hb, hbytes⟩ := List.forall_mem_cons.mp hbytes
    rw [List.flatMap_cons, List.append_assoc]
    show (byteBits b).foldl _ 0 :: bytesOfBits (bytes.flatMap byteBits ++ pad) = _
    rw [foldl_byteBits b hb, ih hbytes]

/-- Any bits are those of bytes and fewer than eight more. -/
theorem exists_bytes {l : List ℕ} (h : AreBits l) : ∃ bytes pad : List ℕ,
    l = bytes.flatMap byteBits ++ pad ∧ pad.length < 8 ∧ ∀ b ∈ bytes, b < 256 := by
  match l, h with
  | a :: b :: c :: d :: e :: f :: g :: i :: rest, h =>
    have hrest : AreBits rest := fun x hx => h x (by simp [hx])
    obtain ⟨bytes, pad, hl, hpad, hbytes⟩ := exists_bytes hrest
    obtain ⟨byte, hbyte⟩ : ∃ byte, a * 128 + b * 64 + c * 32 + d * 16 + e * 8 + f * 4 + g * 2 + i =
        byte := ⟨_, rfl⟩
    have hlt : ∀ x ∈ [a, b, c, d, e, f, g, i], x < 2 := fun x hx => h x (by
      simp only [List.mem_cons, List.not_mem_nil, or_false] at hx ⊢
      tauto)
    simp only [List.forall_mem_cons, List.not_mem_nil, false_imp_iff, implies_true, and_true] at hlt
    have hbits : byteBits byte = [a, b, c, d, e, f, g, i] := by
      simp only [byteBits, List.cons.injEq, and_true]
      refine ⟨?_, ?_, ?_, ?_, ?_, ?_, ?_, ?_⟩ <;> omega
    refine ⟨byte :: bytes, pad, ?_, hpad, List.forall_mem_cons.mpr ⟨by omega, hbytes⟩⟩
    rw [List.flatMap_cons, List.append_assoc, ← hl, hbits]
    rfl
  | [], _ | [_], _ | [_, _], _ | [_, _, _], _ | [_, _, _, _], _ | [_, _, _, _, _], _
  | [_, _, _, _, _, _], _ | [_, _, _, _, _, _, _], _ => exact ⟨[], _, rfl, by simp, nofun⟩

/-- There is one way to read bits as bytes. -/
theorem bytes_unique {bytes pad bytes' pad' : List ℕ} (hbytes : ∀ b ∈ bytes, b < 256)
    (hbytes' : ∀ b ∈ bytes', b < 256) (hpad : pad.length < 8) (hpad' : pad'.length < 8)
    (h : bytes.flatMap byteBits ++ pad = bytes'.flatMap byteBits ++ pad') :
    bytes = bytes' ∧ pad = pad' := by
  have heq : bytes = bytes' := by
    rw [← bytesOfBits_append hbytes hpad, h, bytesOfBits_append hbytes' hpad']
  subst heq
  exact ⟨rfl, List.append_cancel_left h⟩

theorem toBits_ofNat {a b c d e : ℕ} (ha : a < 2) (hb : b < 2) (hc : c < 2) (hd : d < 2)
    (he : e < 2) : (Symbol.ofNat (a * 16 + b * 8 + c * 4 + d * 2 + e)).toBits = [a, b, c, d, e] := by
  have hnat : (Symbol.ofNat (a * 16 + b * 8 + c * 4 + d * 2 + e)).bits.toNat =
      a * 16 + b * 8 + c * 4 + d * 2 + e := Nat.mod_eq_of_lt (by omega)
  rw [Symbol.toBits, hnat]
  simp only [List.cons.injEq, and_true]
  omega

/-- The symbols of some bits have these bits, and zeros that fill up the last symbol. -/
theorem toBits_symbolsOf {l : List ℕ} (h : AreBits l) :
    ∃ k < 5, (symbolsOf l).flatMap Symbol.toBits = l ++ List.replicate k 0 := by
  induction l using symbolsOf.induct with
  | case1 a b c d e rest ih =>
    obtain ⟨k, hk, hrest⟩ := ih fun x hx => h x (by simp [hx])
    refine ⟨k, hk, ?_⟩
    rw [symbolsOf, List.flatMap_cons, hrest, toBits_ofNat (h a (by simp)) (h b (by simp))
      (h c (by simp)) (h d (by simp)) (h e (by simp))]
    rfl
  | case2 a b c d =>
    have hbits := toBits_ofNat (e := 0) (h a (by simp)) (h b (by simp)) (h c (by simp))
      (h d (by simp)) two_pos
    exact ⟨1, by decide, by simpa [symbolsOf] using hbits⟩
  | case3 a b c =>
    have hbits := toBits_ofNat (d := 0) (e := 0) (h a (by simp)) (h b (by simp)) (h c (by simp))
      two_pos two_pos
    exact ⟨2, by decide, by simpa [symbolsOf] using hbits⟩
  | case4 a b =>
    have hbits := toBits_ofNat (c := 0) (d := 0) (e := 0) (h a (by simp)) (h b (by simp)) two_pos
      two_pos two_pos
    exact ⟨3, by decide, by simpa [symbolsOf] using hbits⟩
  | case5 a =>
    have hbits := toBits_ofNat (b := 0) (c := 0) (d := 0) (e := 0) (h a (by simp)) two_pos two_pos
      two_pos two_pos
    exact ⟨4, by decide, by simpa [symbolsOf] using hbits⟩
  | case6 => exact ⟨0, by decide, rfl⟩

end NostrSearch.Core
