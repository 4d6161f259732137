import NostrSearch.Core.Nip19Entities

/-!
# Encodings, and what is close to them

The standard encoding of a key decodes to that key. So does every string with the same payload and
six other symbols behind it, and one bit of the payload away there is the encoding of another key
with a checksum that is not its own, which decodes to the other key. A string whose checksum is right
is never that close to an encoding.
-/

namespace NostrSearch.Core

open NostrSearch.Lib

/-- At most one character is another. -/
def OneChanged (s t : List Char) : Prop :=
  t.length = s.length ∧ ∃ i : ℕ, ∀ j, j ≠ i → t[j]? = s[j]?

/-! ## Hex -/

theorem hexChar_inj : ∀ m < 16, ∀ n < 16, hexChar m = hexChar n → m = n := by decide

theorem hexOf_inj {a b : List ℕ} (ha : ∀ x ∈ a, x < 256) (hb : ∀ x ∈ b, x < 256)
    (h : hexOf a = hexOf b) : a = b := by
  induction a generalizing b with
  | nil =>
    cases b with
    | nil => rfl
    | cons y b => cases h
  | cons x a ih =>
    cases b with
    | nil => cases h
    | cons y b =>
      obtain ⟨hx, ha⟩ := List.forall_mem_cons.mp ha
      obtain ⟨hy, hb⟩ := List.forall_mem_cons.mp hb
      obtain ⟨hhigh, hrest⟩ := List.cons.inj h
      obtain ⟨hlow, hrest⟩ := List.cons.inj hrest
      have hdiv := hexChar_inj _ (by omega) _ (by omega) hhigh
      have hmod := hexChar_inj _ (Nat.mod_lt _ (by decide)) _ (Nat.mod_lt _ (by decide)) hlow
      rw [ih ha hb hrest, show x = y by omega]

/-! ## Encodings -/

/-- A prefix, bytes, and any six symbols behind them. -/
def symbolString (hrp : List Char) (data check : List Symbol) : List Char :=
  hrp ++ '1' :: (data ++ check).map Symbol.char

theorem asciiLower_symbols (l : List Symbol) :
    asciiLower (l.map Symbol.char) = l.map Symbol.char := by
  rw [asciiLower, List.map_map]
  exact List.map_congr_left fun v _ => (Symbol.char_spec v).2.1

theorem asciiLower_hrp {hrp : List Char} (h : hrp ∈ keyPrefixes ∨ hrp ∈ listPrefixes) :
    asciiLower hrp = hrp := by
  have hall : ∀ x ∈ keyPrefixes ++ listPrefixes, asciiLower x = x := by decide
  exact hall hrp (List.mem_append.mpr h)

/-- The symbols of bytes, and any six behind them, are read as the bytes. -/
theorem decodeHex_symbolString {hrp : List Char} {allowed : List (List Char)} {bytes value : List ℕ}
    {check : List Symbol} (hmem : hrp ∈ allowed) (hbytes : ∀ b ∈ bytes, b < 256)
    (hnames : NamesFirst hrp bytes value) (hsix : check.length = 6) :
    decodeHex (symbolString hrp (symbolsOf (bytes.flatMap byteBits)) check) allowed =
      .ok (some (hexOf value)) := by
  obtain ⟨k, hk, hbits⟩ := toBits_symbolsOf (areBits_bytes bytes)
  obtain ⟨-, hrange⟩ := prefix_spec hnames.hrp_mem
  have hlower := asciiLower_hrp hnames.hrp_mem
  have hdata := asciiLower_symbols (symbolsOf (bytes.flatMap byteBits))
  have hcheck := asciiLower_symbols check
  have htrim : trim (symbolString hrp (symbolsOf (bytes.flatMap byteBits)) check) =
      symbolString hrp (symbolsOf (bytes.flatMap byteBits)) check := by
    refine trim_of_no_blank fun c hc => ?_
    rcases List.mem_append.mp hc with hc | hc
    · exact (hrange c hc).2.2
    · rcases List.mem_cons.mp hc with rfl | hc
      · decide
      · obtain ⟨v, -, rfl⟩ := List.mem_map.mp hc
        exact (Symbol.char_spec v).2.2.2.1
  have hparts : trim (symbolString hrp (symbolsOf (bytes.flatMap byteBits)) check) =
      hrp ++ '1' :: ((symbolsOf (bytes.flatMap byteBits)).map Symbol.char ++
        check.map Symbol.char) := by
    rw [htrim, symbolString, List.map_append]
  refine decodeHex_iff_reading.mpr ⟨⟨hrp, _, _, _, bytes, List.replicate k 0, value, hparts, ?_, ?_,
    hlower.symm ▸ hmem, hdata, hbits, hbytes, ?_, hlower.symm ▸ hnames⟩, rfl⟩
  · rw [List.mem_append, not_or]
    exact ⟨notMem_of_symbols hdata, notMem_of_symbols hcheck⟩
  · rw [byteLen_of_symbols hcheck, hsix]
  · rw [List.length_replicate]
    omega

theorem length_checksumOf (hrp : List Char) (data : List Symbol) :
    (checksumOf hrp data).length = 6 := List.length_ofFn

theorem polymod_checksumOf (hrp : List Char) (data : List Symbol) :
    polymod hrp (data ++ checksumOf hrp data) = one := by
  rw [polymod, ← List.append_assoc]
  exact feed_eq_iff.mpr rfl

/-- The five high bits of the first byte are in the first symbol, and in no other. -/
theorem symbolsOf_cons (b : ℕ) (bytes : List ℕ) : ∃ rest : List Symbol, ∀ b', b' % 8 = b % 8 →
    symbolsOf ((b' :: bytes).flatMap byteBits) = .ofNat (b' / 8 % 32) :: rest := by
  refine ⟨symbolsOf ([b / 4 % 2, b / 2 % 2, b % 2] ++ bytes.flatMap byteBits), fun b' hb => ?_⟩
  rw [List.flatMap_cons]
  show _ :: symbolsOf ([b' / 4 % 2, b' / 2 % 2, b' % 2] ++ bytes.flatMap byteBits) = _
  rw [show b' / 4 % 2 = b / 4 % 2 by omega, show b' / 2 % 2 = b / 2 % 2 by omega,
    show b' % 2 = b % 2 by omega]
  congr 2
  omega

theorem oneChanged_cons (a b : List Char) (c c' : Char) : OneChanged (a ++ c :: b) (a ++ c' :: b) := by
  refine ⟨by simp, a.length, fun j hj => ?_⟩
  rcases Nat.lt_or_gt_of_ne hj with hlt | hgt
  · rw [List.getElem?_append_left hlt, List.getElem?_append_left hlt]
  · rw [List.getElem?_append_right hgt.le, List.getElem?_append_right hgt.le]
    obtain ⟨k, hk⟩ : ∃ k, j - a.length = k + 1 := ⟨j - a.length - 1, by omega⟩
    rw [hk, List.getElem?_cons_succ, List.getElem?_cons_succ]

/-- One character away from a key's encoding there is a string that is read as another key. -/
theorem exists_other_key {hrp : List Char} {allowed : List (List Char)} {key : List ℕ}
    (hhrp : hrp ∈ keyPrefixes) (hmem : hrp ∈ allowed) (hlen : key.length = 32)
    (hkey : ∀ b ∈ key, b < 256) : ∃ t other, OneChanged (encodeBech32 hrp key) t ∧
      decodeHex t allowed = .ok (some (hexOf other)) ∧ hexOf other ≠ hexOf key := by
  cases key with
  | nil => cases hlen
  | cons b key =>
    obtain ⟨hb, hrest⟩ := List.forall_mem_cons.mp hkey
    obtain ⟨rest, hsymbols⟩ := symbolsOf_cons b key
    -- the bit that is flipped is the last of the first symbol
    obtain ⟨b', hlt, hlow, hne⟩ : ∃ b' < 256, b' % 8 = b % 8 ∧ b' ≠ b :=
      ⟨if b < 8 then b + 8 else b - 8, by split <;> omega, by split <;> omega, by split <;> omega⟩
    have hother : ∀ x ∈ b' :: key, x < 256 := List.forall_mem_cons.mpr ⟨hlt, hrest⟩
    refine ⟨symbolString hrp (symbolsOf ((b' :: key).flatMap byteBits))
      (checksumOf hrp (symbolsOf ((b :: key).flatMap byteBits))), b' :: key, ?_,
      decodeHex_symbolString hmem hother (Or.inl ⟨hhrp, hlen, rfl⟩) (length_checksumOf _ _), ?_⟩
    · show OneChanged (symbolString hrp (symbolsOf ((b :: key).flatMap byteBits)) _) _
      rw [hsymbols b rfl, hsymbols b' hlow, symbolString, symbolString, List.cons_append,
        List.cons_append, List.map_cons, List.map_cons, List.append_cons hrp '1' (_ :: _),
        List.append_cons hrp '1' (_ :: _)]
      exact oneChanged_cons _ _ _ _
    · intro h
      exact hne (List.cons.inj (hexOf_inj hother hkey h)).1

/-! ## Sound strings around an encoding -/

/-- Two prefixes that differ in one place at most are one prefix. -/
theorem prefix_of_oneChanged {hrp hrp' : List Char} {i : ℕ}
    (h : hrp ∈ keyPrefixes ∨ hrp ∈ listPrefixes) (h' : hrp' ∈ keyPrefixes ∨ hrp' ∈ listPrefixes)
    (heq : ∀ j < 4, j ≠ i → hrp'[j]? = hrp[j]?) : hrp' = hrp := by
  have hall : ∀ x ∈ keyPrefixes ++ listPrefixes, ∀ y ∈ keyPrefixes ++ listPrefixes, ∀ k < 5,
      (∀ j < 4, j ≠ k → y[j]? = x[j]?) → y = x := by decide
  refine hall hrp (List.mem_append.mpr h) hrp' (List.mem_append.mpr h') (min i 4) (by omega) ?_
  exact fun j hj hne => heq j hj (by omega)

/-- Words of one length that differ in one place at most: either they are the same, or they differ
in that place. -/
theorem exists_changed {α : Type} {l l' : List α} {i : ℕ} (hlen : l'.length = l.length)
    (heq : ∀ j, j ≠ i → l'[j]? = l[j]?) :
    l' = l ∨ ∃ front back v v', v ≠ v' ∧ l = front ++ v :: back ∧ l' = front ++ v' :: back := by
  by_cases hi : i < l.length
  · have hi' : i < l'.length := hlen ▸ hi
    have hfront : l'.take i = l.take i := by
      refine List.ext_getElem? fun j => ?_
      rw [List.getElem?_take, List.getElem?_take]
      split
      · exact heq j (by omega)
      · rfl
    have hback : l'.drop (i + 1) = l.drop (i + 1) := by
      refine List.ext_getElem? fun j => ?_
      rw [List.getElem?_drop, List.getElem?_drop]
      exact heq _ (by omega)
    have hl : l = l.take i ++ l[i] :: l.drop (i + 1) := by
      rw [← List.drop_eq_getElem_cons hi, List.take_append_drop]
    have hl' : l' = l.take i ++ l'[i] :: l.drop (i + 1) := by
      rw [← hfront, ← hback, ← List.drop_eq_getElem_cons hi', List.take_append_drop]
    by_cases hsame : l[i] = l'[i]
    · left
      rw [hl', ← hsame, ← hl]
    · exact Or.inr ⟨_, _, _, _, hsame, hl, hl'⟩
  · left
    refine List.ext_getElem? fun j => ?_
    by_cases hj : j = i
    · rw [List.getElem?_eq_none (by omega), List.getElem?_eq_none (by omega)]
    · exact heq j hj

theorem generator_last : ∀ x : Symbol, feedback x (Fin.last 5) = 0 → x = 0 := by
  rw [Symbol.forall_iff]
  decide

/-- The letters of a prefix are lowercase, and there are four of them or more. -/
theorem prefix_letters {hrp : List Char} (h : hrp ∈ keyPrefixes ∨ hrp ∈ listPrefixes) :
    4 ≤ hrp.length ∧ ∀ c ∈ hrp, c.toUpper ≠ c := by
  have hall : ∀ x ∈ keyPrefixes ++ listPrefixes,
      4 ≤ x.length ∧ (x.all fun c => decide (c.toUpper ≠ c)) = true := by decide
  obtain ⟨hlength, hupper⟩ := hall hrp (List.mem_append.mpr h)
  exact ⟨hlength, List.all_iff_forall_prop.mp hupper⟩

/-- A string of one case with a lowercase letter in it is lowercase. -/
theorem asciiLower_of_one_case {t : List Char} (h : asciiLower t = t ∨ asciiUpper t = t) {c : Char}
    (hmem : c ∈ t) (hc : c.toUpper ≠ c) : asciiLower t = t := by
  refine h.resolve_right fun hupper => hc ?_
  have hmap : t.map Char.toUpper = t.map id := by rwa [List.map_id]
  exact List.map_inj_left.mp hmap c hmem

/-- What is read under the prefix and with the data of an encoding is what was encoded. -/
theorem value_of_data {hrp t : List Char} {allowed : List (List Char)} {bytes value : List ℕ}
    (hbytes : ∀ b ∈ bytes, b < 256) (hnames : NamesFirst hrp bytes value)
    {r : Reading t allowed} (hhrp : asciiLower r.hrp = hrp)
    (hdata : r.data = symbolsOf (bytes.flatMap byteBits)) : r.value = value := by
  obtain ⟨k, hk, hbits⟩ := toBits_symbolsOf (areBits_bytes bytes)
  have hr := r.bits_eq
  rw [hdata, hbits] at hr
  obtain ⟨hbytes', -⟩ := bytes_unique hbytes r.byte_lt (by rw [List.length_replicate]; omega)
    r.pad_lt hr
  have hnames' := r.names
  rw [hhrp, ← hbytes'] at hnames'
  exact hnames'.unique hnames

/-- What is read soundly of a string that is one character away from an encoding is what was
encoded. -/
theorem value_of_oneChanged {hrp t : List Char} {allowed : List (List Char)} {bytes value : List ℕ}
    (hbytes : ∀ b ∈ bytes, b < 256) (hnames : NamesFirst hrp bytes value)
    (hchanged : OneChanged (encodeBech32 hrp bytes) t) {r : Reading t allowed} (hsound : r.Sound) :
    r.value = value := by
  obtain ⟨check', hsix', hlower', hone'⟩ := hsound.exists_check
  obtain ⟨hlen, i, heq⟩ := hchanged
  obtain ⟨data, hdata⟩ : ∃ data, symbolsOf (bytes.flatMap byteBits) = data := ⟨_, rfl⟩
  have hs : encodeBech32 hrp bytes = hrp ++ '1' :: (data ++ checksumOf hrp data).map Symbol.char := by
    rw [encodeBech32, hdata]
  have hone := polymod_checksumOf hrp data
  have hsix := length_checksumOf hrp data
  obtain ⟨check, hcheck⟩ : ∃ check, checksumOf hrp data = check := ⟨_, rfl⟩
  rw [hcheck] at hs hone hsix
  rw [hs] at hlen heq
  obtain ⟨hfour, hletters⟩ := prefix_letters hnames.hrp_mem
  obtain ⟨hfour', -⟩ := prefix_letters r.names.hrp_mem
  -- one of the first two letters is as it was
  have ht : asciiLower t = t := by
    obtain ⟨j, hj, hne⟩ : ∃ j < 2, j ≠ i := ⟨if i = 0 then 1 else 0, by split <;> omega,
      by split <;> omega⟩
    have hj' : j < hrp.length := by omega
    have hletter := heq j hne
    rw [List.getElem?_append_left hj', List.getElem?_eq_getElem hj'] at hletter
    exact asciiLower_of_one_case hsound.one_case (List.mem_of_getElem? hletter)
      (hletters _ (List.getElem_mem hj'))
  rw [ht] at hlower'
  have hhrp : asciiLower r.hrp = hrp := by
    refine prefix_of_oneChanged (i := i) hnames.hrp_mem r.names.hrp_mem fun j hj hne => ?_
    have hletter := heq j hne
    rwa [hlower', List.getElem?_append_left (by omega), List.getElem?_append_left (by omega)]
      at hletter
  rw [hhrp] at hlower' hone'
  rw [hlower'] at hlen heq
  have hword : ∀ j, j ≠ i - (hrp.length + 1) → (r.data ++ check')[j]? = (data ++ check)[j]? := by
    intro j hj
    have hchar := heq (hrp.length + (j + 1)) (by omega)
    rw [List.getElem?_append_right (by omega), List.getElem?_append_right (by omega),
      Nat.add_sub_cancel_left, List.getElem?_cons_succ, List.getElem?_cons_succ,
      List.getElem?_map, List.getElem?_map] at hchar
    exact Option.map_injective Symbol.char_injective hchar
  simp only [List.length_append, List.length_cons, List.length_map] at hlen
  rcases exists_changed (by simp only [List.length_append]; omega) hword with
    hsame | ⟨front, back, v, v', hne, hl, hl'⟩
  · obtain ⟨hdata', -⟩ := List.append_inj' hsame (hsix'.trans hsix.symm)
    exact value_of_data hbytes hnames hhrp (hdata'.trans hdata.symm)
  · exfalso
    rw [hl, polymod, ← List.append_assoc] at hone
    rw [hl', polymod, ← List.append_assoc] at hone'
    exact feed_ne_of_one_changed generator_last one _ back hne (hone.trans hone'.symm)

/-- **What `decode_hex` accepts.** The entities and nothing else, if and only if nothing is wrong
with the string that is read. Encodings decode to what they encode. One character away from a key's
encoding a string decodes to another key, but none that is read without a fault does. -/
theorem decodes_entities_iff (s : List Char) (allowed : List (List Char)) :
    ((∀ hex, decodeHex s allowed = .ok (some hex) ↔ Entity s allowed hex) ↔
      ∀ r : Reading s allowed, r.Sound) ∧
    (∀ hrp ∈ allowed, ∀ bytes value, (∀ b ∈ bytes, b < 256) → Names hrp bytes value →
      decodeHex (encodeBech32 hrp bytes) allowed = .ok (some (hexOf value)) ∧
      ∀ t, OneChanged (encodeBech32 hrp bytes) t → (∀ r : Reading t allowed, r.Sound) →
        ∀ hex, decodeHex t allowed = .ok (some hex) → hex = hexOf value) ∧
    ∀ hrp ∈ keyPrefixes, hrp ∈ allowed → ∀ key : List ℕ, key.length = 32 →
      (∀ b ∈ key, b < 256) → ∃ t other, OneChanged (encodeBech32 hrp key) t ∧
        decodeHex t allowed = .ok (some (hexOf other)) ∧ hexOf other ≠ hexOf key := by
  refine ⟨accepts_iff_sound, fun hrp hmem bytes value hbytes hnames => ?_,
    fun hrp hhrp hmem key hlen hkey => exists_other_key hhrp hmem hlen hkey⟩
  have hfirst := (names_iff.mp hnames).1
  refine ⟨decodeHex_symbolString hmem hbytes hfirst (length_checksumOf _ _), ?_⟩
  intro t hchanged hsound hex hdecode
  obtain ⟨r, rfl⟩ := decodeHex_iff_reading.mp hdecode
  rw [value_of_oneChanged hbytes hfirst hchanged (hsound r)]

/-- The key of the test. -/
def knownKey : List ℕ :=
  [130, 52, 31, 136, 43, 110, 171, 205, 43, 167, 241, 239, 144, 170, 217, 97, 207, 7, 74, 241, 91,
    158, 244, 74, 9, 249, 210, 168, 251, 251, 230, 162]

theorem encode_knownKey : encodeBech32 "npub".toList knownKey =
    "npub1".toList ++ 's' :: "g6plzptd64u62a878hep2kev88swjh3tw00gjsfl8f237lmu63q0uf63m".toList := by
  decide +kernel

/-- One character of the test's `npub` changed, and it is another key. -/
theorem changed_npub_decodes :
    decodeHex "npub13g6plzptd64u62a878hep2kev88swjh3tw00gjsfl8f237lmu63q0uf63m".toList
        ["npub".toList] =
      .ok (some "8a341f882b6eabcd2ba7f1ef90aad961cf074af15b9ef44a09f9d2a8fbfbe6a2".toList) ∧
    ¬ Entity "npub13g6plzptd64u62a878hep2kev88swjh3tw00gjsfl8f237lmu63q0uf63m".toList
        ["npub".toList] "8a341f882b6eabcd2ba7f1ef90aad961cf074af15b9ef44a09f9d2a8fbfbe6a2".toList ∧
    OneChanged (encodeBech32 "npub".toList knownKey)
        "npub13g6plzptd64u62a878hep2kev88swjh3tw00gjsfl8f237lmu63q0uf63m".toList := by
  have hchanged := oneChanged_cons "npub1".toList
    "g6plzptd64u62a878hep2kev88swjh3tw00gjsfl8f237lmu63q0uf63m".toList 's' '3'
  rw [← encode_knownKey] at hchanged
  have hstring : "npub1".toList ++ '3' ::
      "g6plzptd64u62a878hep2kev88swjh3tw00gjsfl8f237lmu63q0uf63m".toList =
        "npub13g6plzptd64u62a878hep2kev88swjh3tw00gjsfl8f237lmu63q0uf63m".toList := by
    decide +kernel
  rw [hstring] at hchanged
  refine ⟨by decide +kernel, fun hentity => ?_, hchanged⟩
  obtain ⟨r, hsound, hhex⟩ := entity_iff_sound.mp hentity
  rw [value_of_oneChanged (by decide) (Or.inl ⟨by decide, rfl, rfl⟩) hchanged hsound] at hhex
  revert hhex
  decide +kernel

end NostrSearch.Core
