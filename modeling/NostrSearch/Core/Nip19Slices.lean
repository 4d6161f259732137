import NostrSearch.Core.Bech32
import NostrSearch.Core.Dates
import NostrSearch.Core.Trim

/-!
# The slices of `decode_hex`

`decode_hex` splits a string at byte positions and walks a list of records whose lengths the string
gives. `decodeHexSlices` is that function with each slice and each index checked the way the language
checks it. Only one of them can fail: the cut before the last six bytes of the data, where these
begin inside a character (`decodeHexSlices_returns_iff`).
-/

namespace NostrSearch.Core

/-- What a slice or an index panics of. -/
inductive SliceFault
  | charBoundary
  | outOfBounds
deriving DecidableEq

/-! ## Strings -/

/-- `split_at(n)`, and with it `&s[..n]` and `&s[n..]`. -/
def splitAtByte : ℕ → List Char → Except SliceFault (List Char × List Char)
  | 0, cs => .ok ([], cs)
  | _ + 1, [] => .error .outOfBounds
  | n + 1, c :: cs =>
    if c.utf8Size ≤ n + 1 then
      (splitAtByte (n + 1 - c.utf8Size) cs).map fun parts => (c :: parts.1, parts.2)
    else .error .charBoundary

/-- `rfind(c)`: the byte the last `c` begins at. -/
def rfind (c : Char) (s : List Char) : Option ℕ :=
  ((charIndices 0 s).reverse.find? fun x => x.2 = c).map Prod.fst

/-! ## Bytes -/

/-- `b[i]` -/
def indexByte (b : List ℕ) (i : ℕ) : Except SliceFault ℕ :=
  match b[i]? with
  | some x => .ok x
  | none => .error .outOfBounds

/-- `&b[n..]` -/
def sliceFrom (b : List ℕ) (n : ℕ) : Except SliceFault (List ℕ) :=
  if n ≤ b.length then .ok (b.drop n) else .error .outOfBounds

/-- `b.get(n..)` -/
def getFrom (b : List ℕ) (n : ℕ) : Option (List ℕ) :=
  if n ≤ b.length then some (b.drop n) else none

/-- `b.get(..n)` -/
def getTo (b : List ℕ) (n : ℕ) : Option (List ℕ) :=
  if n ≤ b.length then some (b.take n) else none

/-- The loop of `tlv_special`, in at most so many rounds. -/
def tlvSlicesIn : ℕ → List ℕ → Except SliceFault (Option (List ℕ))
  | 0, _ => .ok none
  | records + 1, b =>
    if b.length < 2 then .ok none
    else do
      let t ← indexByte b 0
      let l ← indexByte b 1
      match getFrom b 2 with
      | none => .ok none
      | some rest =>
        match getTo rest l with
        | none => .ok none
        | some val =>
          if t = 0 ∧ l = 32 then .ok (some val)
          else do
            let b ← sliceFrom rest l
            tlvSlicesIn records b

/-- `tlv_special` -/
def tlvSlices (b : List ℕ) : Except SliceFault (Option (List ℕ)) := tlvSlicesIn (b.length / 2 + 1) b

/-! ## The decoder -/

/-- The last part of `decode_hex`: the payload's characters, bits and bytes, and the value. -/
def payloadSlices (hrp payload : List Char) : Except SliceFault (Option (List Char)) :=
  match payload.mapM charsetBits with
  | none => .ok none
  | some bits =>
    let bytes := bytesOfBits bits.flatten
    if hrp = "npub".toList ∨ hrp = "note".toList then
      .ok (if bytes.length = 32 then some (hexOf bytes) else none)
    else if hrp = "nprofile".toList ∨ hrp = "nevent".toList then
      (tlvSlices bytes).map fun val => val.map hexOf
    else .ok none

/-- `decode_hex`, slice by slice. -/
def decodeHexSlices (s : List Char) (allowed : List (List Char)) :
    Except SliceFault (Option (List Char)) :=
  let s := trim s
  match rfind '1' s with
  | none => .ok none
  | some sep => do
    let (hrp, data) ← splitAtByte sep s
    let hrp := asciiLower hrp
    if hrp ∉ allowed then .ok none
    else
      let (_, data) ← splitAtByte 1 data
      if byteLen data < 6 then .ok none
      else
        let (payload, _) ← splitAtByte (byteLen data - 6) data
        payloadSlices hrp payload

/-! ## Where strings are split -/

theorem splitAtByte_append (a b : List Char) : splitAtByte (byteLen a) (a ++ b) = .ok (a, b) := by
  induction a with
  | nil =>
    show splitAtByte 0 b = _
    rw [splitAtByte]
  | cons c a ih =>
    have hpos : 0 < c.utf8Size := Char.utf8Size_pos c
    obtain ⟨n, hn⟩ : ∃ n, byteLen (c :: a) = n + 1 := ⟨c.utf8Size + byteLen a - 1, by
      rw [byteLen_cons]
      omega⟩
    have hrest : n + 1 - c.utf8Size = byteLen a := by
      rw [byteLen_cons] at hn
      omega
    have hfits : c.utf8Size ≤ n + 1 := by
      rw [byteLen_cons] at hn
      omega
    rw [hn, List.cons_append, splitAtByte, if_pos hfits, hrest, ih]
    rfl

/-- There is one cut in front of so many bytes. -/
theorem append_inj_of_byteLen {a b a' b' : List Char} (h : a ++ b = a' ++ b')
    (hb : byteLen b = byteLen b') : a = a' ∧ b = b' := by
  have hlen : byteLen (a ++ b) = byteLen (a' ++ b') := by rw [h]
  rw [byteLen_append, byteLen_append, hb, Nat.add_right_cancel_iff] at hlen
  have hcut := splitAtByte_append a b
  rw [h, hlen, splitAtByte_append a' b'] at hcut
  exact ⟨(congrArg Prod.fst (Except.ok.inj hcut)).symm, (congrArg Prod.snd (Except.ok.inj hcut)).symm⟩

theorem of_splitAtByte {n : ℕ} {s a b : List Char} (h : splitAtByte n s = .ok (a, b)) :
    s = a ++ b ∧ byteLen a = n := by
  induction s generalizing n a b with
  | nil =>
    cases n with
    | zero =>
      rw [splitAtByte] at h
      cases h
      exact ⟨rfl, rfl⟩
    | succ n => cases h
  | cons c cs ih =>
    cases n with
    | zero =>
      rw [splitAtByte] at h
      cases h
      exact ⟨rfl, rfl⟩
    | succ n =>
      rw [splitAtByte] at h
      split at h
      case isTrue hfits =>
        cases hrest : splitAtByte (n + 1 - c.utf8Size) cs with
        | error e =>
          rw [hrest] at h
          cases h
        | ok parts =>
          rw [hrest] at h
          cases h
          obtain ⟨hcs, hlen⟩ := ih hrest
          refine ⟨congrArg (c :: ·) hcs, ?_⟩
          rw [byteLen_cons, hlen]
          omega
      case isFalse => cases h

/-- A split inside the string can only fail in the middle of a character. -/
theorem splitAtByte_error {n : ℕ} {s : List Char} {e : SliceFault} (hn : n ≤ byteLen s)
    (h : splitAtByte n s = .error e) : e = .charBoundary := by
  induction s generalizing n with
  | nil =>
    cases n with
    | zero => cases h
    | succ n => exact absurd hn (Nat.not_succ_le_zero n)
  | cons c cs ih =>
    cases n with
    | zero => cases h
    | succ n =>
      rw [splitAtByte] at h
      split at h
      case isTrue hfits =>
        cases hrest : splitAtByte (n + 1 - c.utf8Size) cs with
        | error e' =>
          rw [hrest] at h
          cases h
          refine ih ?_ hrest
          rw [byteLen_cons] at hn
          omega
        | ok parts =>
          rw [hrest] at h
          cases h
      case isFalse =>
        cases h
        rfl

theorem sliceTo_eq {n : ℕ} {s : List Char} (hn : n ≤ byteLen s) :
    sliceTo n s = ((splitAtByte n s).map Prod.fst).mapError fun _ => .charBoundary := by
  induction s generalizing n with
  | nil =>
    have hzero : n = 0 := Nat.le_zero.mp hn
    rw [hzero, splitAtByte]
    rfl
  | cons c cs ih =>
    cases n with
    | zero =>
      rw [splitAtByte, sliceTo, if_pos rfl]
      rfl
    | succ n =>
      rw [splitAtByte, sliceTo, if_neg (Nat.succ_ne_zero n)]
      by_cases hfits : c.utf8Size ≤ n + 1
      · rw [if_pos hfits, if_pos hfits, ih (by rw [byteLen_cons] at hn; omega)]
        cases splitAtByte (n + 1 - c.utf8Size) cs <;> rfl
      · rw [if_neg hfits, if_neg hfits]
        rfl

theorem charIndices_append (pos : ℕ) (a b : List Char) :
    charIndices pos (a ++ b) = charIndices pos a ++ charIndices (pos + byteLen a) b := by
  induction a generalizing pos with
  | nil => rfl
  | cons c a ih => rw [List.cons_append, charIndices, ih, charIndices, byteLen_cons, ← Nat.add_assoc,
      List.cons_append]

theorem mem_of_mem_charIndices {pos : ℕ} {s : List Char} {x : ℕ × Char}
    (h : x ∈ charIndices pos s) : x.2 ∈ s := by
  induction s generalizing pos with
  | nil => cases h
  | cons c s ih =>
    rw [charIndices] at h
    rcases List.mem_cons.mp h with rfl | h
    · exact List.mem_cons_self
    · exact List.mem_cons_of_mem c (ih h)

theorem rfind_of_notMem {c : Char} {s : List Char} (h : c ∉ s) : rfind c s = none := by
  rw [rfind, Option.map_eq_none_iff, List.find?_eq_none]
  intro x hx heq
  have hmem := mem_of_mem_charIndices (List.mem_reverse.mp hx)
  rw [of_decide_eq_true heq] at hmem
  exact h hmem

theorem rfind_append {c : Char} {a d : List Char} (h : c ∉ d) :
    rfind c (a ++ c :: d) = some (byteLen a) := by
  have hnone : (charIndices (byteLen a + c.utf8Size) d).reverse.find? (fun x => x.2 = c) = none := by
    rw [List.find?_eq_none]
    intro x hx heq
    have hmem := mem_of_mem_charIndices (List.mem_reverse.mp hx)
    rw [of_decide_eq_true heq] at hmem
    exact h hmem
  rw [rfind, charIndices_append, Nat.zero_add, charIndices, List.reverse_append, List.reverse_cons,
    List.append_assoc, List.find?_append, hnone, Option.none_or, List.singleton_append,
    List.find?_cons_of_pos (by exact decide_eq_true rfl)]
  rfl

/-- The last separator, and what stands before and after it. -/
theorem exists_last {c : Char} {s : List Char} (h : c ∈ s) :
    ∃ a d, s = a ++ c :: d ∧ c ∉ d ∧ afterLast c s = d ∧ s.take (s.length - d.length - 1) = a := by
  obtain ⟨b, d, hs, hnot⟩ := List.eq_append_cons_of_mem (List.mem_reverse.mpr h)
  have hrev : s = d.reverse ++ c :: b.reverse := by
    rw [← List.reverse_reverse s, hs, List.reverse_append, List.reverse_cons, List.append_assoc,
      List.singleton_append]
  refine ⟨d.reverse, b.reverse, hrev, fun hmem => hnot (List.mem_reverse.mp hmem), ?_, ?_⟩
  · have htake : (b ++ c :: d).takeWhile (fun x => x ≠ c) = b := by
      rw [List.takeWhile_append_of_pos fun x hx => ?_, List.takeWhile_cons_of_neg (by simp),
        List.append_nil]
      rw [decide_eq_true_eq]
      rintro rfl
      exact hnot hx
    rw [afterLast, hs, htake]
  · rw [hrev]
    have hlen : (d.reverse ++ c :: b.reverse).length - b.reverse.length - 1 = d.reverse.length := by
      rw [List.length_append, List.length_cons]
      omega
    rw [hlen, List.take_left]

/-- A string has one last separator. -/
theorem last_unique {c : Char} {a d a' d' : List Char} (hd : c ∉ d) (hd' : c ∉ d')
    (h : a ++ c :: d = a' ++ c :: d') : a = a' ∧ d = d' := by
  have heq : d.reverse ++ c :: a.reverse = d'.reverse ++ c :: a'.reverse := by
    simpa using congrArg List.reverse h
  obtain ⟨hdata, hfront⟩ := split_at_first (by simpa using hd) (by simpa using hd') heq
  exact ⟨List.reverse_injective hfront, List.reverse_injective hdata⟩

/-! ## The walk over the records -/

theorem tlvSlicesIn_eq (records : ℕ) (b : List ℕ) :
    tlvSlicesIn records b = .ok (tlvSpecialIn records b) := by
  induction records generalizing b with
  | zero => rfl
  | succ records ih =>
    match b with
    | [] => rfl
    | [_] => rfl
    | t :: l :: rest =>
      have hlen : ¬ (t :: l :: rest).length < 2 := by simp
      have htype : indexByte (t :: l :: rest) 0 = .ok t := rfl
      have hsize : indexByte (t :: l :: rest) 1 = .ok l := rfl
      have hfrom : getFrom (t :: l :: rest) 2 = some rest := if_pos (by simp)
      rw [tlvSlicesIn, if_neg hlen, tlvSpecialIn, htype, hsize, hfrom]
      show (match getTo rest l with
        | none => Except.ok none
        | some val => _) = _
      by_cases hl : l ≤ rest.length
      · have hto : getTo rest l = some (rest.take l) := if_pos hl
        rw [hto, if_neg (by omega)]
        dsimp only
        split
        · rfl
        · rw [sliceFrom, if_pos hl]
          exact ih _
      · have hto : getTo rest l = none := if_neg hl
        rw [hto, if_pos (by omega)]

theorem payloadSlices_eq (hrp payload : List Char) :
    payloadSlices hrp payload = .ok (decodePayload hrp payload) := by
  unfold payloadSlices decodePayload
  cases payload.mapM charsetBits with
  | none => rfl
  | some bits =>
    dsimp only
    split
    · rfl
    · split
      · rw [tlvSlices, tlvSlicesIn_eq]
        rfl
      · rfl

/-- Of all its slices `decode_hex` can fail at one, the cut before the checksum, and only inside a
character. -/
theorem decodeHexSlices_eq (s : List Char) (allowed : List (List Char)) :
    decodeHexSlices s allowed = (decodeHex s allowed).mapError fun _ => .charBoundary := by
  unfold decodeHexSlices decodeHex
  dsimp only
  by_cases hsep : '1' ∈ trim s
  · obtain ⟨hrp, data, hs, hnot, hafter, htake⟩ := exists_last hsep
    rw [if_neg (not_not.mpr hsep), hafter, htake, hs, rfind_append hnot]
    dsimp only
    rw [splitAtByte_append]
    show (if asciiLower hrp ∉ allowed then _ else _) = _
    by_cases hmem : asciiLower hrp ∈ allowed
    · rw [if_neg (not_not.mpr hmem), if_neg (not_not.mpr hmem)]
      have hone : splitAtByte 1 ('1' :: data) = .ok (['1'], data) := splitAtByte_append ['1'] data
      rw [hone]
      show (if byteLen data < 6 then _ else _) = _
      by_cases hlen : byteLen data < 6
      · rw [if_pos hlen, if_pos hlen]
        rfl
      · rw [if_neg hlen, if_neg hlen, sliceTo_eq (Nat.sub_le _ _)]
        cases hcut : splitAtByte (byteLen data - 6) data with
        | error e =>
          rw [splitAtByte_error (Nat.sub_le _ _) hcut]
          rfl
        | ok parts => exact payloadSlices_eq _ _
    · rw [if_pos hmem, if_pos hmem]
      rfl
  · rw [if_pos hsep, rfind_of_notMem hsep]
    rfl

/-! ## When it panics -/

/-- A result is there. -/
def Returns {ε α : Type} (r : Except ε α) : Prop := ∃ a, r = .ok a

theorem returns_mapError {ε ε' α : Type} {r : Except ε α} (f : ε → ε') :
    Returns (r.mapError f) ↔ Returns r := by
  cases r with
  | error e => exact iff_of_false nofun nofun
  | ok a => exact iff_of_true ⟨a, rfl⟩ ⟨a, rfl⟩

/-- The data after the last separator has six bytes or more, and the last six begin inside a
character: no end of the data is six bytes long. -/
def CutsChar (s : List Char) (allowed : List (List Char)) : Prop :=
  ∃ hrp data, trim s = hrp ++ '1' :: data ∧ '1' ∉ data ∧ asciiLower hrp ∈ allowed ∧
    6 ≤ byteLen data ∧ ∀ payload checksum, data = payload ++ checksum → byteLen checksum ≠ 6

/-- **What `decode_hex` does**: there is no allowed prefix with enough behind it, or the cut is inside
a character, or the string is taken apart. -/
theorem decodeHex_cases (s : List Char) (allowed : List (List Char)) :
    (decodeHex s allowed = .ok none ∧ ∀ hrp data, trim s = hrp ++ '1' :: data → '1' ∉ data →
      asciiLower hrp ∈ allowed → byteLen data < 6) ∨
    (¬ Returns (decodeHex s allowed) ∧ CutsChar s allowed) ∨
    ∃ hrp payload checksum, trim s = hrp ++ '1' :: (payload ++ checksum) ∧
      '1' ∉ payload ++ checksum ∧ byteLen checksum = 6 ∧ asciiLower hrp ∈ allowed ∧
      decodeHex s allowed = .ok (decodePayload (asciiLower hrp) payload) := by
  unfold decodeHex
  dsimp only
  by_cases hsep : '1' ∈ trim s
  · obtain ⟨hrp, data, hs, hnot, hafter, htake⟩ := exists_last hsep
    rw [if_neg (not_not.mpr hsep), hafter, htake]
    by_cases hmem : asciiLower hrp ∈ allowed
    · rw [if_neg (not_not.mpr hmem)]
      by_cases hlen : byteLen data < 6
      · rw [if_pos hlen]
        refine Or.inl ⟨rfl, fun hrp' data' hs' hnot' _ => ?_⟩
        obtain ⟨-, rfl⟩ := last_unique hnot hnot' (hs.symm.trans hs')
        exact hlen
      · rw [if_neg hlen, sliceTo_eq (Nat.sub_le _ _)]
        cases hcut : splitAtByte (byteLen data - 6) data with
        | error e =>
          refine Or.inr (Or.inl ⟨nofun, hrp, data, hs, hnot, hmem, by omega, ?_⟩)
          rintro payload checksum rfl hsix
          have hsplit := splitAtByte_append payload checksum
          rw [byteLen_append, hsix, Nat.add_sub_cancel, hsplit] at hcut
          cases hcut
        | ok parts =>
          obtain ⟨rfl, hfront⟩ := of_splitAtByte hcut
          have htotal := byteLen_append parts.1 parts.2
          exact Or.inr (Or.inr ⟨hrp, parts.1, parts.2, hs, hnot, by omega, hmem, rfl⟩)
    · rw [if_pos hmem]
      refine Or.inl ⟨rfl, fun hrp' data' hs' hnot' hmem' => ?_⟩
      obtain ⟨rfl, -⟩ := last_unique hnot hnot' (hs.symm.trans hs')
      exact absurd hmem' hmem
  · rw [if_pos hsep]
    refine Or.inl ⟨rfl, fun hrp data hs => ?_⟩
    rw [hs] at hsep
    exact absurd (List.mem_append_right _ List.mem_cons_self) hsep

theorem decodeHex_returns_iff (s : List Char) (allowed : List (List Char)) :
    Returns (decodeHex s allowed) ↔ ¬ CutsChar s allowed := by
  rcases decodeHex_cases s allowed with ⟨hnone, hshort⟩ | ⟨hpanic, hcuts⟩ |
    ⟨hrp, payload, checksum, hs, hnot, hsix, -, hvalue⟩
  · refine iff_of_true ⟨none, hnone⟩ ?_
    rintro ⟨hrp, data, hs, hnot, hmem, hlong, -⟩
    exact absurd (hshort hrp data hs hnot hmem) (Nat.not_lt.mpr hlong)
  · exact iff_of_false hpanic (not_not.mpr hcuts)
  · refine iff_of_true ⟨_, hvalue⟩ ?_
    rintro ⟨hrp', data, hs', hnot', -, -, hcut⟩
    obtain ⟨-, rfl⟩ := last_unique hnot hnot' (hs.symm.trans hs')
    exact hcut payload checksum rfl hsix

/-- **When `decode_hex` returns.** -/
theorem decodeHexSlices_returns_iff (s : List Char) (allowed : List (List Char)) :
    Returns (decodeHexSlices s allowed) ↔ ¬ CutsChar s allowed := by
  rw [decodeHexSlices_eq, returns_mapError, decodeHex_returns_iff]

end NostrSearch.Core
