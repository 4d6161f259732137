import NostrSearch.Core.Bech32Format
import NostrSearch.Core.Nip19Slices

/-!
# What `decode_hex` accepts

An entity is a bech32 string under one of four prefixes. Under `npub` and `note` its bytes are a key
or an id; under `nprofile` and `nevent` they are a list of records, and the first of type 0 with 32
bytes has it. `decode_hex` reads more than that: it trims, takes characters of either case, cuts the
checksum off without a look at it, leaves the bits out that fill no byte, and stops at the record it
is after. A `Reading` is what it makes of a string, and it accepts the entities and nothing else if
and only if every reading is sound (`accepts_iff_sound`).
-/

namespace NostrSearch.Core

open NostrSearch.Lib

/-! ## Entities -/

/-- Prefixes whose payload is a key or an id. -/
def keyPrefixes : List (List Char) := ["npub".toList, "note".toList]

/-- Prefixes whose payload is a list of records. -/
def listPrefixes : List (List Char) := ["nprofile".toList, "nevent".toList]

/-- A record of a payload: its type, and its value. -/
structure Record where
  type : ℕ
  value : List ℕ

namespace Record

/-- Type, length, value. -/
def encode (r : Record) : List ℕ := r.type :: r.value.length :: r.value

def isSpecial (r : Record) : Bool := decide (r.type = 0 ∧ r.value.length = 32)

end Record

/-- The bytes under a prefix name a value. -/
def Names (hrp : List Char) (bytes value : List ℕ) : Prop :=
  hrp ∈ keyPrefixes ∧ bytes.length = 32 ∧ value = bytes ∨
    hrp ∈ listPrefixes ∧ ∃ records : List Record, bytes = records.flatMap Record.encode ∧
      (records.find? Record.isSpecial).map Record.value = some value

/-- A well-formed entity under one of the prefixes, and the hex of what it names. -/
def Entity (s : List Char) (allowed : List (List Char)) (hex : List Char) : Prop :=
  ∃ hrp data bytes value, Bech32 s hrp data ∧ hrp ∈ allowed ∧ Payload data bytes ∧
    Names hrp bytes value ∧ hex = hexOf value

/-! ## Readings -/

/-- The bytes under a prefix have a value in them, whatever comes after it. -/
def NamesFirst (hrp : List Char) (bytes value : List ℕ) : Prop :=
  hrp ∈ keyPrefixes ∧ bytes.length = 32 ∧ value = bytes ∨
    hrp ∈ listPrefixes ∧ ∃ (records : List Record) (rest : List ℕ),
      bytes = records.flatMap Record.encode ++ (0 :: 32 :: value ++ rest) ∧ value.length = 32 ∧
        ∀ r ∈ records, r.isSpecial = false

/-- What is read of a string: its parts, the symbols of the payload, the bytes in these and the bits
left over, and the value. -/
structure Reading (s : List Char) (allowed : List (List Char)) where
  hrp : List Char
  payload : List Char
  checksum : List Char
  data : List Symbol
  bytes : List ℕ
  pad : List ℕ
  value : List ℕ
  trim_eq : trim s = hrp ++ '1' :: (payload ++ checksum)
  notMem : '1' ∉ payload ++ checksum
  byteLen_checksum : byteLen checksum = 6
  allowed_hrp : asciiLower hrp ∈ allowed
  payload_eq : asciiLower payload = data.map Symbol.char
  bits_eq : data.flatMap Symbol.toBits = bytes.flatMap byteBits ++ pad
  byte_lt : ∀ b ∈ bytes, b < 256
  pad_lt : pad.length < 8
  names : NamesFirst (asciiLower hrp) bytes value

/-- Nothing is wrong with the string that is read. -/
structure Reading.Sound {s : List Char} {allowed : List (List Char)} (r : Reading s allowed) :
    Prop where
  no_blanks : trim s = s
  one_case : asciiLower s = s ∨ asciiUpper s = s
  checksum : ∃ check : List Symbol, asciiLower r.checksum = check.map Symbol.char ∧
    polymod (asciiLower r.hrp) (r.data ++ check) = one
  padding : r.pad.length < 5 ∧ ∀ x ∈ r.pad, x = 0
  whole_records : asciiLower r.hrp ∈ listPrefixes →
    ∃ records : List Record, r.bytes = records.flatMap Record.encode

/-- The first two bytes of some records and what is behind them are those of a record. -/
theorem records_cases {records : List Record} {t l : ℕ} {tail value rest : List ℕ}
    (hb : t :: l :: tail = records.flatMap Record.encode ++ (0 :: 32 :: value ++ rest)) :
    (records = [] ∧ t = 0 ∧ l = 32 ∧ tail = value ++ rest) ∨
    ∃ r records', records = r :: records' ∧ t = r.type ∧ l = r.value.length ∧
      tail = r.value ++ (records'.flatMap Record.encode ++ (0 :: 32 :: value ++ rest)) := by
  cases records with
  | nil => exact Or.inl ⟨rfl, by simpa using hb⟩
  | cons r records => exact Or.inr ⟨r, records, rfl, by simpa [Record.encode] using hb⟩

/-- The first special record is found in front of whatever follows it. -/
theorem tlvSpecialIn_eq_some {n : ℕ} {b value : List ℕ} (hn : b.length / 2 + 1 ≤ n) :
    tlvSpecialIn n b = some value ↔ ∃ (records : List Record) (rest : List ℕ),
      b = records.flatMap Record.encode ++ (0 :: 32 :: value ++ rest) ∧ value.length = 32 ∧
        ∀ r ∈ records, r.isSpecial = false := by
  induction n generalizing b with
  | zero => omega
  | succ n ih =>
    match b with
    | [] | [_] =>
      refine iff_of_false (by rintro ⟨⟩) ?_
      rintro ⟨records, rest, hb, -, -⟩
      have hlen := congrArg List.length hb
      simp only [List.length_append, List.length_cons, List.length_nil] at hlen
      omega
    | t :: l :: tail =>
      have hfuel : (tail.drop l).length / 2 + 1 ≤ n := by
        simp only [List.length_cons, List.length_drop] at hn ⊢
        omega
      rw [tlvSpecialIn]
      by_cases hshort : tail.length < l
      · rw [if_pos hshort]
        refine iff_of_false (by rintro ⟨⟩) ?_
        rintro ⟨records, rest, hb, hvalue, -⟩
        rcases records_cases hb with ⟨-, -, rfl, rfl⟩ | ⟨r, records, -, -, rfl, rfl⟩
        · rw [List.length_append] at hshort
          omega
        · rw [List.length_append] at hshort
          omega
      · rw [if_neg hshort]
        by_cases hspecial : t = 0 ∧ l = 32
        · rw [if_pos hspecial]
          obtain ⟨rfl, rfl⟩ := hspecial
          constructor
          · intro h
            cases h
            refine ⟨[], tail.drop 32, ?_, by rw [List.length_take]; omega,
              List.forall_mem_nil _⟩
            simp
          · rintro ⟨records, rest, hb, hvalue, hnone⟩
            rcases records_cases hb with ⟨-, -, -, rfl⟩ | ⟨r, records, rfl, htype, hsize, -⟩
            · rw [← hvalue, List.take_left]
            · have hr := hnone r List.mem_cons_self
              rw [Record.isSpecial, ← htype, ← hsize] at hr
              cases hr
        · rw [if_neg hspecial, ih hfuel]
          have hlen : (tail.take l).length = l := by
            rw [List.length_take]
            omega
          constructor
          · rintro ⟨records, rest, hb, hvalue, hnone⟩
            refine ⟨⟨t, tail.take l⟩ :: records, rest, ?_, hvalue, ?_⟩
            · rw [List.flatMap_cons, List.append_assoc, ← hb, Record.encode, hlen]
              simp
            · refine List.forall_mem_cons.mpr ⟨?_, hnone⟩
              rw [Record.isSpecial, hlen]
              exact decide_eq_false hspecial
          · rintro ⟨records, rest, hb, hvalue, hnone⟩
            rcases records_cases hb with ⟨-, rfl, rfl, -⟩ | ⟨r, records, rfl, -, rfl, rfl⟩
            · exact absurd ⟨rfl, rfl⟩ hspecial
            · rw [List.drop_left]
              exact ⟨records, rest, rfl, hvalue, fun r hr => hnone r (List.mem_cons_of_mem _ hr)⟩

/-! ## What is read -/

theorem decodeHex_eq_some_iff {s hex : List Char} {allowed : List (List Char)} :
    decodeHex s allowed = .ok (some hex) ↔ ∃ hrp payload checksum,
      trim s = hrp ++ '1' :: (payload ++ checksum) ∧ '1' ∉ payload ++ checksum ∧
        byteLen checksum = 6 ∧ asciiLower hrp ∈ allowed ∧
        decodePayload (asciiLower hrp) payload = some hex := by
  rcases decodeHex_cases s allowed with ⟨hnone, hshort⟩ | ⟨hpanic, hcuts⟩ |
    ⟨hrp, payload, checksum, hs, hnot, hsix, hmem, hvalue⟩
  · rw [hnone]
    refine iff_of_false nofun ?_
    rintro ⟨hrp, payload, checksum, hs, hnot, hsix, hmem, -⟩
    have hlen := hshort hrp _ hs hnot hmem
    rw [byteLen_append] at hlen
    omega
  · refine iff_of_false (fun h => hpanic ⟨_, h⟩) ?_
    obtain ⟨hrp, data, hs, hnot, -, -, hcut⟩ := hcuts
    rintro ⟨hrp', payload, checksum, hs', hnot', hsix, -⟩
    obtain ⟨-, rfl⟩ := last_unique hnot hnot' (hs.symm.trans hs')
    exact hcut payload checksum rfl hsix
  · rw [hvalue]
    constructor
    · exact fun h => ⟨hrp, payload, checksum, hs, hnot, hsix, hmem, Except.ok.inj h⟩
    · rintro ⟨hrp', payload', checksum', hs', hnot', hsix', -, hvalue'⟩
      obtain ⟨rfl, hdata⟩ := last_unique hnot hnot' (hs.symm.trans hs')
      rw [(append_inj_of_byteLen hdata (hsix.trans hsix'.symm)).1, hvalue']

theorem mem_keyPrefixes {hrp : List Char} :
    hrp ∈ keyPrefixes ↔ hrp = "npub".toList ∨ hrp = "note".toList := by simp [keyPrefixes]

theorem mem_listPrefixes {hrp : List Char} :
    hrp ∈ listPrefixes ↔ hrp = "nprofile".toList ∨ hrp = "nevent".toList := by simp [listPrefixes]

/-- What is done with the bytes under a prefix comes to their value. -/
theorem named_iff {hrp hex : List Char} {bytes : List ℕ} :
    (if hrp = "npub".toList ∨ hrp = "note".toList then
      if bytes.length = 32 then some (hexOf bytes) else none
    else if hrp = "nprofile".toList ∨ hrp = "nevent".toList then (tlvSpecial bytes).map hexOf
    else none) = some hex ↔ ∃ value, NamesFirst hrp bytes value ∧ hexOf value = hex := by
  have hdisjoint : ∀ x ∈ keyPrefixes, x ∉ listPrefixes := by decide
  unfold NamesFirst
  by_cases hkey : hrp ∈ keyPrefixes
  · rw [if_pos (mem_keyPrefixes.mp hkey)]
    constructor
    · intro h
      split at h
      case isTrue hlen =>
        cases h
        exact ⟨bytes, Or.inl ⟨hkey, hlen, rfl⟩, rfl⟩
      case isFalse => cases h
    · rintro ⟨value, ⟨-, hlen, rfl⟩ | ⟨hlist, -⟩, rfl⟩
      · rw [if_pos hlen]
      · exact absurd hlist (hdisjoint hrp hkey)
  · rw [if_neg fun h => hkey (mem_keyPrefixes.mpr h)]
    by_cases hlist : hrp ∈ listPrefixes
    · rw [if_pos (mem_listPrefixes.mp hlist), Option.map_eq_some_iff]
      refine exists_congr fun value => and_congr_left fun _ => ?_
      rw [tlvSpecial, tlvSpecialIn_eq_some le_rfl]
      simp [hkey, hlist]
    · rw [if_neg fun h => hlist (mem_listPrefixes.mpr h)]
      refine iff_of_false nofun ?_
      rintro ⟨value, ⟨hkey', -⟩ | ⟨hlist', -⟩, -⟩
      · exact hkey hkey'
      · exact hlist hlist'

theorem decodePayload_eq_some_iff {hrp payload hex : List Char} :
    decodePayload hrp payload = some hex ↔ ∃ (data : List Symbol) (bytes pad value : List ℕ),
      asciiLower payload = data.map Symbol.char ∧
        data.flatMap Symbol.toBits = bytes.flatMap byteBits ++ pad ∧ (∀ b ∈ bytes, b < 256) ∧
        pad.length < 8 ∧ NamesFirst hrp bytes value ∧ hexOf value = hex := by
  unfold decodePayload
  constructor
  · intro h
    cases hbits : payload.mapM charsetBits with
    | none =>
      rw [hbits] at h
      cases h
    | some bits =>
      rw [hbits] at h
      obtain ⟨data, hdata, rfl⟩ := mapM_charsetBits.mp hbits
      dsimp only at h
      rw [← List.flatMap_def] at h
      obtain ⟨bytes, pad, hl, hpad, hbytes⟩ := exists_bytes (areBits_symbols data)
      rw [hl, bytesOfBits_append hbytes hpad] at h
      obtain ⟨value, hnames, hhex⟩ := named_iff.mp h
      exact ⟨data, bytes, pad, value, hdata, hl, hbytes, hpad, hnames, hhex⟩
  · rintro ⟨data, bytes, pad, value, hdata, hl, hbytes, hpad, hnames, hhex⟩
    rw [mapM_charsetBits.mpr ⟨data, hdata, rfl⟩]
    dsimp only
    rw [← List.flatMap_def, hl, bytesOfBits_append hbytes hpad]
    exact named_iff.mpr ⟨value, hnames, hhex⟩

/-- `decode_hex` returns what it reads. -/
theorem decodeHex_iff_reading {s hex : List Char} {allowed : List (List Char)} :
    decodeHex s allowed = .ok (some hex) ↔ ∃ r : Reading s allowed, hexOf r.value = hex := by
  rw [decodeHex_eq_some_iff]
  constructor
  · rintro ⟨hrp, payload, checksum, hs, hnot, hsix, hmem, hvalue⟩
    obtain ⟨data, bytes, pad, value, hdata, hl, hbytes, hpad, hnames, hhex⟩ :=
      decodePayload_eq_some_iff.mp hvalue
    exact ⟨⟨hrp, payload, checksum, data, bytes, pad, value, hs, hnot, hsix, hmem, hdata, hl, hbytes,
      hpad, hnames⟩, hhex⟩
  · rintro ⟨r, hhex⟩
    exact ⟨r.hrp, r.payload, r.checksum, r.trim_eq, r.notMem, r.byteLen_checksum, r.allowed_hrp,
      decodePayload_eq_some_iff.mpr ⟨r.data, r.bytes, r.pad, r.value, r.payload_eq, r.bits_eq,
        r.byte_lt, r.pad_lt, r.names, hhex⟩⟩

/-! ## Sound readings -/

theorem tlvSpecialIn_encode {n : ℕ} {records : List Record}
    (hn : (records.flatMap Record.encode).length / 2 + 1 ≤ n) :
    tlvSpecialIn n (records.flatMap Record.encode) =
      (records.find? Record.isSpecial).map Record.value := by
  induction records generalizing n with
  | nil =>
    obtain ⟨n, rfl⟩ := Nat.exists_eq_add_of_le' hn
    rfl
  | cons r records ih =>
    have hcons : (r :: records).flatMap Record.encode =
        r.type :: r.value.length :: (r.value ++ records.flatMap Record.encode) := rfl
    rw [hcons] at hn ⊢
    simp only [List.length_cons, List.length_append] at hn
    obtain ⟨n, rfl⟩ := Nat.exists_eq_add_of_le' (Nat.one_le_iff_ne_zero.mpr (by omega : n ≠ 0))
    have hfits : ¬ (r.value ++ records.flatMap Record.encode).length < r.value.length := by
      rw [List.length_append]
      omega
    rw [tlvSpecialIn, if_neg hfits, List.take_left, List.drop_left, ih (by omega)]
    by_cases hspecial : r.type = 0 ∧ r.value.length = 32
    · rw [if_pos hspecial, List.find?_cons_of_pos (by exact decide_eq_true hspecial)]
      rfl
    · rw [if_neg hspecial, List.find?_cons_of_neg (by simpa [Record.isSpecial] using hspecial)]

/-- Where the records end with the bytes, the first special one is the value. -/
theorem names_iff {hrp : List Char} {bytes value : List ℕ} :
    Names hrp bytes value ↔ NamesFirst hrp bytes value ∧
      (hrp ∈ listPrefixes → ∃ records : List Record, bytes = records.flatMap Record.encode) := by
  have hdisjoint : ∀ x ∈ keyPrefixes, x ∉ listPrefixes := by decide
  unfold Names NamesFirst
  constructor
  · rintro (⟨hkey, hlen⟩ | ⟨hlist, records, rfl, hvalue⟩)
    · exact ⟨Or.inl ⟨hkey, hlen⟩, fun hlist => absurd hlist (hdisjoint hrp hkey)⟩
    · rw [← tlvSpecialIn_encode le_rfl] at hvalue
      exact ⟨Or.inr ⟨hlist, (tlvSpecialIn_eq_some le_rfl).mp hvalue⟩, fun _ => ⟨records, rfl⟩⟩
  · rintro ⟨⟨hkey, hlen⟩ | ⟨hlist, hfirst⟩, hwhole⟩
    · exact Or.inl ⟨hkey, hlen⟩
    · obtain ⟨records, rfl⟩ := hwhole hlist
      have hvalue := (tlvSpecialIn_eq_some le_rfl).mpr hfirst
      rw [tlvSpecialIn_encode le_rfl] at hvalue
      exact Or.inr ⟨hlist, records, rfl, hvalue⟩

/-- The names are lowercase letters. -/
theorem prefix_spec {hrp : List Char} (h : hrp ∈ keyPrefixes ∨ hrp ∈ listPrefixes) :
    hrp ≠ [] ∧ ∀ c ∈ hrp, 33 ≤ c.toNat ∧ c.toNat ≤ 126 ∧ isWhitespace c = false := by
  have hall : ∀ x ∈ keyPrefixes ++ listPrefixes, x ≠ [] ∧ (x.all fun c =>
      decide (33 ≤ c.toNat ∧ c.toNat ≤ 126 ∧ isWhitespace c = false)) = true := by decide
  obtain ⟨hne, hletters⟩ := hall hrp (List.mem_append.mpr h)
  exact ⟨hne, List.all_iff_forall_prop.mp hletters⟩

theorem NamesFirst.hrp_mem {hrp : List Char} {bytes value : List ℕ}
    (h : NamesFirst hrp bytes value) : hrp ∈ keyPrefixes ∨ hrp ∈ listPrefixes :=
  h.imp And.left And.left

/-- A character whose lowercase is ASCII and no blank is ASCII and no blank. -/
theorem no_blank_of_toLower {c : Char} (hascii : c.toLower.toNat < 128)
    (h : isWhitespace c.toLower = false) : c.toNat < 128 ∧ isWhitespace c = false := by
  have hc := toNat_of_toLower hascii
  refine ⟨hc, ?_⟩
  have hall : ∀ n < 128, isWhitespace (Char.ofNat n).toLower = false →
      isWhitespace (Char.ofNat n) = false := by decide
  exact of_ascii (P := fun c => isWhitespace c.toLower = false → isWhitespace c = false) hall hc h

theorem eq_one_of_toLower {c : Char} (h : c.toLower = '1') : c = '1' := by
  have hall : ∀ n < 128, (Char.ofNat n).toLower = '1' → Char.ofNat n = '1' := by decide
  have hc := toNat_of_toLower (c := c) (h ▸ by decide)
  exact of_ascii (P := fun c => c.toLower = '1' → c = '1') hall hc h

/-- Characters of symbols, of either case. -/
theorem byteLen_of_symbols {s : List Char} {l : List Symbol}
    (h : asciiLower s = l.map Symbol.char) : byteLen s = l.length := by
  have hascii : ∀ c ∈ s, c.toNat < 128 := by
    intro c hc
    have hmem : c.toLower ∈ l.map Symbol.char := h ▸ List.mem_map_of_mem hc
    obtain ⟨v, -, hv⟩ := List.mem_map.mp hmem
    exact toNat_of_toLower (hv ▸ (Symbol.char_spec v).2.2.2.2)
  rw [byteLen_of_ascii hascii, ← List.length_map Symbol.char, ← h]
  exact (List.length_map _).symm

theorem notMem_of_symbols {s : List Char} {l : List Symbol}
    (h : asciiLower s = l.map Symbol.char) : '1' ∉ s := by
  intro hmem
  have hone : '1' ∈ l.map Symbol.char := h ▸ List.mem_map_of_mem (f := Char.toLower) hmem
  obtain ⟨v, -, hv⟩ := List.mem_map.mp hone
  exact (Symbol.char_spec v).2.2.1 hv

/-- What a sound string is in lowercase. -/
theorem Reading.Sound.exists_check {s : List Char} {allowed : List (List Char)}
    {r : Reading s allowed} (h : r.Sound) : ∃ check : List Symbol, check.length = 6 ∧
      asciiLower s = asciiLower r.hrp ++ '1' :: (r.data ++ check).map Symbol.char ∧
        polymod (asciiLower r.hrp) (r.data ++ check) = one := by
  obtain ⟨check, hcheck, hone⟩ := h.checksum
  refine ⟨check, by rw [← byteLen_of_symbols hcheck, r.byteLen_checksum], ?_, hone⟩
  calc asciiLower s = asciiLower (trim s) := by rw [h.no_blanks]
    _ = asciiLower r.hrp ++ '1' :: (asciiLower r.payload ++ asciiLower r.checksum) := by
      rw [r.trim_eq]
      simp [asciiLower]
    _ = _ := by rw [r.payload_eq, hcheck, List.map_append]

/-- The entities are what is read soundly. -/
theorem entity_iff_sound {s hex : List Char} {allowed : List (List Char)} :
    Entity s allowed hex ↔ ∃ r : Reading s allowed, r.Sound ∧ hexOf r.value = hex := by
  constructor
  · rintro ⟨hrp, data, bytes, value, hs, hmem, hpay, hnames, rfl⟩
    obtain ⟨hfirst, hwhole⟩ := names_iff.mp hnames
    obtain ⟨check, hsix, hlower, hone⟩ := hs.checked
    obtain ⟨front, back, rfl, rfl, hback⟩ := List.map_eq_append_iff.mp hlower
    obtain ⟨sep, tail, rfl, hsep, htail⟩ := List.map_eq_cons_iff.mp hback
    obtain rfl := eq_one_of_toLower hsep
    rw [List.map_append] at htail
    obtain ⟨payload, checksum, rfl, hpayload, hchecksum⟩ := List.map_eq_append_iff.mp htail
    obtain ⟨-, hrange⟩ := prefix_spec hfirst.hrp_mem
    have hno_blank : ∀ c ∈ asciiLower (front ++ '1' :: (payload ++ checksum)),
        c.toNat < 128 ∧ isWhitespace c = false := by
      intro c hc
      rw [hlower] at hc
      rcases List.mem_append.mp hc with hc | hc
      · exact ⟨by have := (hrange c hc).2.1; omega, (hrange c hc).2.2⟩
      · rcases List.mem_cons.mp hc with rfl | hc
        · decide
        · obtain ⟨v, -, rfl⟩ := List.mem_map.mp hc
          exact ⟨(Symbol.char_spec v).2.2.2.2, (Symbol.char_spec v).2.2.2.1⟩
    have htrim : trim (front ++ '1' :: (payload ++ checksum)) =
        front ++ '1' :: (payload ++ checksum) := by
      refine trim_of_no_blank fun c hc => ?_
      obtain ⟨hascii, hblank⟩ := hno_blank c.toLower (List.mem_map_of_mem hc)
      exact (no_blank_of_toLower hascii hblank).2
    obtain ⟨k, hk, hbits⟩ := hpay.bits_eq
    refine ⟨⟨front, payload, checksum, data, bytes, List.replicate k 0, value, htrim, ?_, ?_, hmem,
      hpayload, hbits, hpay.byte_lt, ?_, hfirst⟩, ⟨htrim, hs.one_case, ⟨check, hchecksum, hone⟩,
      ⟨?_, ?_⟩, hwhole⟩, rfl⟩
    · rw [List.mem_append, not_or]
      exact ⟨notMem_of_symbols hpayload, notMem_of_symbols hchecksum⟩
    · rw [byteLen_of_symbols hchecksum, hsix]
    · rw [List.length_replicate]
      omega
    · rwa [List.length_replicate]
    · exact fun x hx => List.eq_of_mem_replicate hx
  · rintro ⟨r, hsound, rfl⟩
    obtain ⟨check, hsix, hlower, hone⟩ := hsound.exists_check
    obtain ⟨hne, hrange⟩ := prefix_spec r.names.hrp_mem
    refine ⟨asciiLower r.hrp, r.data, r.bytes, r.value, ⟨hne, fun c hc =>
      ⟨(hrange c hc).1, (hrange c hc).2.1⟩, hsound.one_case, check, hsix, hlower, hone⟩,
      r.allowed_hrp, ⟨r.byte_lt, r.pad.length, hsound.padding.1, ?_⟩,
      names_iff.mpr ⟨r.names, hsound.whole_records⟩, rfl⟩
    rw [r.bits_eq, ← List.eq_replicate_of_mem hsound.padding.2]

/-! ## One reading -/

theorem append_unique {a b a' b' : List Char} (hlen : byteLen b = byteLen b')
    (h : a ++ b = a' ++ b') : a = a' ∧ b = b' := by
  have htotal := congrArg byteLen h
  rw [byteLen_append, byteLen_append, hlen, Nat.add_right_cancel_iff] at htotal
  have hsplit := splitAtByte_append a b
  rw [h, htotal, splitAtByte_append] at hsplit
  cases hsplit
  exact ⟨rfl, rfl⟩

theorem NamesFirst.unique {hrp : List Char} {bytes value value' : List ℕ}
    (h : NamesFirst hrp bytes value) (h' : NamesFirst hrp bytes value') : value = value' := by
  have hdisjoint : ∀ x ∈ keyPrefixes, x ∉ listPrefixes := by decide
  rcases h with ⟨hkey, -, rfl⟩ | ⟨hlist, hfirst⟩
  · rcases h' with ⟨-, -, rfl⟩ | ⟨hlist, -⟩
    · rfl
    · exact absurd hlist (hdisjoint hrp hkey)
  · rcases h' with ⟨hkey, -⟩ | ⟨-, hfirst'⟩
    · exact absurd hlist (hdisjoint hrp hkey)
    · have hvalue := (tlvSpecialIn_eq_some le_rfl).mpr hfirst
      rw [(tlvSpecialIn_eq_some le_rfl).mpr hfirst'] at hvalue
      exact (Option.some.inj hvalue).symm

/-- A string is read in one way. -/
theorem Reading.unique {s : List Char} {allowed : List (List Char)} (r r' : Reading s allowed) :
    r = r' := by
  obtain ⟨hrp, payload, checksum, data, bytes, pad, value, hs, hnot, hsix, hmem, hdata, hl, hbytes,
    hpad, hnames⟩ := r
  obtain ⟨hrp', payload', checksum', data', bytes', pad', value', hs', hnot', hsix', hmem', hdata',
    hl', hbytes', hpad', hnames'⟩ := r'
  obtain ⟨rfl, hafter⟩ := last_unique hnot hnot' (hs.symm.trans hs')
  obtain ⟨rfl, rfl⟩ := append_unique (hsix.trans hsix'.symm) hafter
  obtain rfl := List.map_injective_iff.mpr Symbol.char_injective (hdata.symm.trans hdata')
  obtain ⟨rfl, rfl⟩ := bytes_unique hbytes hbytes' hpad hpad' (hl.symm.trans hl')
  obtain rfl := hnames.unique hnames'
  rfl

theorem accepts_iff_sound {s : List Char} {allowed : List (List Char)} :
    (∀ hex, decodeHex s allowed = .ok (some hex) ↔ Entity s allowed hex) ↔
      ∀ r : Reading s allowed, r.Sound := by
  constructor
  · intro h r
    have hread := (h (hexOf r.value)).mp (decodeHex_iff_reading.mpr ⟨r, rfl⟩)
    obtain ⟨r', hsound, -⟩ := entity_iff_sound.mp hread
    exact r.unique r' ▸ hsound
  · intro h hex
    rw [decodeHex_iff_reading, entity_iff_sound]
    exact exists_congr fun r => (and_iff_right (h r)).symm

end NostrSearch.Core
