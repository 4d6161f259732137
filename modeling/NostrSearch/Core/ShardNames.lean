import NostrSearch.Core.Dates
import NostrSearch.Core.ShardBounds
import NostrSearch.Core.Text

/-!
# Shard names

A shard's directory has its name, and the name is read back with the parsers of machine integers.
These take a plus sign and any number of zeros in front, and months of any size, so that names are
accepted that no shard has (`ShardId.parse_canonical_iff`). `discover` records the least shard it
reads. From what it has recorded a range is walked to its end, through four billion months at worst,
but there may be no first second of it.
-/

namespace NostrSearch.Core

open NostrSearch.Lib

namespace ShardId

/-- `{:04}` of a year. The sign is one of the four. -/
def yearText (y : ℤ) : List Char := if 0 ≤ y then padZero 4 y.toNat else '-' :: padZero 3 y.natAbs

/-- `name` -/
def name (id : ShardId) : List Char := yearText id.year ++ '-' :: padZero 2 id.month

end ShardId

/-- `split_once(sep)` -/
def splitOnce (sep : Char) : List Char → Option (List Char × List Char)
  | [] => none
  | c :: cs => if c = sep then some ([], cs) else (splitOnce sep cs).map fun p => (c :: p.1, p.2)

/-- `parse::<i32>()` -/
def parseI32 : List Char → Option ℤ
  | '-' :: ds =>
    if ds ≠ [] ∧ ds.all Char.isDigit then
      let n := Nat.ofDigitChars 10 ds 0
      if n ≤ 2 ^ 31 then some (-n) else none
    else none
  | cs => (parseUnsigned 31 cs).map fun n : ℕ => (n : ℤ)

/-- `ShardId::parse` -/
def ShardId.parse (name : List Char) : Option ShardId :=
  match splitOnce '-' name with
  | none => none
  | some (y, m) =>
    match parseI32 y with
    | none => none
    | some year =>
      match parseUnsigned 32 m with
      | none => none
      | some month => some { year := year, month := month }

/-- `discover`: the least shard among the names under the root. -/
def discoverEarliest (names : List (List Char)) : Option ShardId :=
  names.foldl (fun earliest name =>
    match ShardId.parse name with
    | some id =>
      some (match earliest with
        | some e => min e id
        | none => id)
    | none => earliest) none

/-- `next`, with the month in 32 bits. -/
def ShardId.nextU32 (id : ShardId) : ShardId :=
  if id.month = 12 then { year := id.year + 1, month := 1 }
  else { id with month := (id.month + 1) % 2 ^ 32 }

/-- The loop of `shards_in_range`, in at most so many rounds. -/
def pushMonths (stop : ShardId) : ℕ → ShardId → Option (List ShardId)
  | 0, _ => none
  | rounds + 1, cur =>
    if cur = stop then some [cur]
    else (pushMonths stop rounds cur.nextU32).map fun out => cur :: out

/-- The shards pushed between two months, in at most so many rounds. -/
def pushRange (rounds : ℕ) (start stop : ShardId) : Option (List ShardId) :=
  if stop < start then some [] else pushMonths stop rounds start

example : ShardId.parse "2024-13".toList = some { year := 2024, month := 13 } := by decide

/-! ## Names -/

theorem splitOnce_append {c : Char} {a b : List Char} (h : c ∉ a) :
    splitOnce c (a ++ c :: b) = some (a, b) := by
  induction a with
  | nil => exact if_pos rfl
  | cons x a ih =>
    rw [List.cons_append, splitOnce, if_neg fun hx => h (by rw [hx]; exact List.mem_cons_self),
      ih fun hmem => h (List.mem_cons_of_mem x hmem)]
    rfl

theorem of_splitOnce {c : Char} {s a b : List Char} (h : splitOnce c s = some (a, b)) :
    s = a ++ c :: b ∧ c ∉ a := by
  induction s generalizing a b with
  | nil => cases h
  | cons x s ih =>
    rw [splitOnce] at h
    split at h
    case isTrue hx =>
      cases h
      exact ⟨congrArg (· :: s) hx, List.not_mem_nil⟩
    case isFalse hx =>
      obtain ⟨p, hp, heq⟩ := Option.map_eq_some_iff.mp h
      cases heq
      obtain ⟨rfl, hnot⟩ := ih hp
      exact ⟨rfl, List.not_mem_cons_of_ne_of_not_mem (fun heq => hx heq.symm) hnot⟩

/-- Digits, with a plus sign allowed in front, for a number of so many bits. -/
def Reads (bits : ℕ) (s : List Char) (n : ℕ) : Prop :=
  ∃ ds, (s = ds ∨ s = '+' :: ds) ∧ IsNumeral ds ∧ numeralValue ds = n ∧ n < 2 ^ bits

theorem notMem_of_isNumeral {c : Char} (hc : c.isDigit = false) {ds : List Char}
    (h : IsNumeral ds) : c ∉ ds := by
  intro hmem
  rw [h.2 c hmem] at hc
  cases hc

theorem parseUnsigned_eq_some_iff {bits : ℕ} {s : List Char} {n : ℕ} :
    parseUnsigned bits s = some n ↔ Reads bits s n := by
  have hdigits : ∀ ds : List Char, (if ds ≠ [] ∧ ds.all Char.isDigit then
      let n := Nat.ofDigitChars 10 ds 0
      if n < 2 ^ bits then some n else none
    else none) = some n ↔ IsNumeral ds ∧ numeralValue ds = n ∧ n < 2 ^ bits := by
    intro ds
    rw [IsNumeral, ← List.all_eq_true]
    by_cases h : ds ≠ [] ∧ ds.all Char.isDigit
    · rw [if_pos h, and_iff_right h]
      dsimp only
      by_cases hlt : numeralValue ds < 2 ^ bits
      · rw [if_pos hlt]
        constructor
        · intro heq
          cases heq
          exact ⟨rfl, hlt⟩
        · rintro ⟨rfl, -⟩
          rfl
      · rw [if_neg hlt]
        refine iff_of_false nofun ?_
        rintro ⟨rfl, hlt'⟩
        exact hlt hlt'
    · rw [if_neg h]
      exact iff_of_false nofun fun hand => h hand.1
  unfold parseUnsigned
  dsimp only
  split
  case h_1 cs =>
    rw [hdigits]
    constructor
    · exact fun h => ⟨cs, Or.inr rfl, h⟩
    · rintro ⟨ds, rfl | hcons, h⟩
      · exact absurd List.mem_cons_self (notMem_of_isNumeral (by decide) h.1)
      · cases hcons
        exact h
  case h_2 hplus =>
    rw [hdigits]
    constructor
    · exact fun h => ⟨s, Or.inl rfl, h⟩
    · rintro ⟨ds, rfl | rfl, h⟩
      · exact h
      · exact absurd rfl (hplus ds)

/-- Without a minus sign a number of 32 bits is read like one of 31 without a sign. -/
theorem parseI32_eq_some_iff {s : List Char} (h : '-' ∉ s) {y : ℤ} :
    parseI32 s = some y ↔ ∃ n : ℕ, (n : ℤ) = y ∧ Reads 31 s n := by
  unfold parseI32
  split
  case h_1 => exact absurd List.mem_cons_self h
  case h_2 =>
    rw [Option.map_eq_some_iff]
    refine exists_congr fun n => ?_
    rw [parseUnsigned_eq_some_iff, and_comm]

theorem not_dash_of_reads {bits n : ℕ} {s : List Char} (h : Reads bits s n) : '-' ∉ s := by
  obtain ⟨ds, rfl | rfl, hds, -⟩ := h
  · exact notMem_of_isNumeral (by decide) hds
  · exact List.not_mem_cons_of_ne_of_not_mem (by decide) (notMem_of_isNumeral (by decide) hds)

namespace ShardId

/-- What `parse` reads: a number on each side of the first dash. -/
theorem parse_eq_some_iff {name : List Char} {id : ShardId} :
    parse name = some id ↔ ∃ y m, ∃ year : ℕ, name = y ++ '-' :: m ∧ (year : ℤ) = id.year ∧
      Reads 31 y year ∧ Reads 32 m id.month := by
  constructor
  · intro h
    unfold parse at h
    split at h
    case h_1 => cases h
    case h_2 y m hsplit =>
      obtain ⟨hname, hdash⟩ := of_splitOnce hsplit
      split at h
      case h_1 => cases h
      case h_2 year hyear =>
        split at h
        case h_1 => cases h
        case h_2 month hmonth =>
          cases h
          obtain ⟨n, hn, hreads⟩ := (parseI32_eq_some_iff hdash).mp hyear
          exact ⟨y, m, n, hname, hn, hreads, parseUnsigned_eq_some_iff.mp hmonth⟩
  · rintro ⟨y, m, year, rfl, hyear, hy, hm⟩
    have hdash := not_dash_of_reads hy
    rw [parse, splitOnce_append hdash]
    dsimp only
    rw [(parseI32_eq_some_iff hdash).mpr ⟨year, hyear, hy⟩, parseUnsigned_eq_some_iff.mpr hm]

theorem reads_padZero {bits width n : ℕ} (hn : n < 2 ^ bits) (hwidth : 0 < width) :
    Reads bits (padZero width n) n :=
  ⟨_, Or.inl rfl, (paddedTo_padZero hwidth n).numeral, numeralValue_padZero width n, hn⟩

/-- A name is read back if and only if the year has no sign. -/
theorem parse_name_iff {id : ShardId} (h : id.InCalendar) :
    parse id.name = some id ↔ 0 ≤ id.year := by
  obtain ⟨hpos, hle, hfrom, hto⟩ := h
  unfold name yearText
  split
  case isTrue hyear =>
    refine iff_of_true (parse_eq_some_iff.mpr ⟨_, _, id.year.toNat, rfl, Int.toNat_of_nonneg hyear,
      reads_padZero (by omega) (by decide), reads_padZero (by omega) (by decide)⟩) hyear
  case isFalse hyear =>
    refine iff_of_false (fun hparse => ?_) hyear
    obtain ⟨y, m, year, -, hnat, -⟩ := parse_eq_some_iff.mp hparse
    omega

/-- Both sides of the first dash are numbers for the parsers. -/
def Readable (name : List Char) : Prop :=
  ∃ y m, ∃ year month : ℕ, name = y ++ '-' :: m ∧ Reads 31 y year ∧ Reads 32 m month

/-- Four digits for the year, or more without a zero in front; two digits for the month, `01` to
`12`. -/
def Canonical (name : List Char) : Prop :=
  ∃ y m, name = y ++ '-' :: m ∧ PaddedTo 4 y ∧ PaddedTo 2 m ∧
    1 ≤ numeralValue m ∧ numeralValue m ≤ 12

theorem value_of_reads {bits n : ℕ} {s : List Char} (h : Reads bits s n) (hs : IsNumeral s) :
    numeralValue s = n := by
  obtain ⟨ds, rfl | rfl, -, hvalue, -⟩ := h
  · exact hvalue
  · exact absurd List.mem_cons_self (notMem_of_isNumeral (by decide) hs)

/-- A name is only ever read as the shard that has it, if and only if it is spelled as shards are or
not read at all. -/
theorem parse_canonical_iff {n : List Char} :
    (∀ id, parse n = some id → n = id.name ∧ id.Valid) ↔ (Readable n → Canonical n) := by
  constructor
  · rintro h ⟨y, m, year, month, rfl, hy, hm⟩
    obtain ⟨hname, hvalid⟩ := h ⟨year, month⟩ (parse_eq_some_iff.mpr ⟨y, m, year, rfl, rfl, hy, hm⟩)
    have htext : name ⟨year, month⟩ = padZero 4 year ++ '-' :: padZero 2 month := by
      rw [name, yearText, if_pos (Int.natCast_nonneg year), Int.toNat_natCast]
    rw [htext] at hname
    rw [hname]
    refine ⟨_, _, rfl, paddedTo_padZero (by decide) _, paddedTo_padZero (by decide) _, ?_⟩
    rw [numeralValue_padZero]
    exact hvalid
  · intro h id hparse
    obtain ⟨y, m, year, rfl, hyear, hy, hm⟩ := parse_eq_some_iff.mp hparse
    obtain ⟨y', m', heq, hy', hm', hfrom, hto⟩ := h ⟨y, m, year, _, rfl, hy, hm⟩
    obtain ⟨rfl, rfl⟩ := split_at_first (not_dash_of_reads hy)
      (notMem_of_isNumeral (by decide) hy'.numeral) heq
    have hyvalue := value_of_reads hy hy'.numeral
    have hmvalue := value_of_reads hm hm'.numeral
    refine ⟨?_, by rw [Valid, ← hmvalue]; exact ⟨hfrom, hto⟩⟩
    rw [name, yearText, ← hyear, if_pos (Int.natCast_nonneg year), Int.toNat_natCast]
    rw [(padZero_iff (by decide)).mpr ⟨hy', hyvalue⟩, (padZero_iff (by decide)).mpr ⟨hm', hmvalue⟩]

end ShardId

/-! ## Discovery -/

/-- The least shard that is read among some names. -/
def Least (names : List (List Char)) (id : ShardId) : Prop :=
  (∃ n ∈ names, ShardId.parse n = some id) ∧
    ∀ n ∈ names, ∀ id', ShardId.parse n = some id' → id ≤ id'

theorem discoverEarliest_append (names : List (List Char)) (name : List Char) :
    discoverEarliest (names ++ [name]) =
      match ShardId.parse name with
      | some id =>
        some (match discoverEarliest names with
          | some e => min e id
          | none => id)
      | none => discoverEarliest names := by
  rw [discoverEarliest, List.foldl_append, ← discoverEarliest]
  rfl

theorem discoverEarliest_eq (names : List (List Char)) :
    discoverEarliest names = (names.filterMap ShardId.parse).min? := by
  induction names using List.reverseRecOn with
  | nil => rfl
  | append_singleton names name ih =>
    rw [discoverEarliest_append, List.filterMap_append, ih]
    cases hname : ShardId.parse name with
    | none => rw [List.filterMap_cons_none hname, List.filterMap_nil, List.append_nil]
    | some id =>
      rw [List.filterMap_cons_some hname, List.filterMap_nil]
      cases names.filterMap ShardId.parse with
      | nil => rfl
      | cons e es =>
        rw [List.cons_append, List.min?_cons', List.min?_cons', List.foldl_append]
        rfl

/-- What `discover` records is the least shard it reads. -/
theorem discoverEarliest_eq_some_iff {names : List (List Char)} {id : ShardId} :
    discoverEarliest names = some id ↔ Least names id := by
  rw [discoverEarliest_eq, List.min?_eq_some_iff, List.mem_filterMap]
  refine and_congr_right fun _ => ⟨fun h n hn id' hparse => ?_, fun h id' hid' => ?_⟩
  · exact h id' (List.mem_filterMap.mpr ⟨n, hn, hparse⟩)
  · obtain ⟨n, hn, hparse⟩ := List.mem_filterMap.mp hid'
    exact h n hn id' hparse

/-! ## Ranges -/

/-- From one of the twelve months of a year the loop is the one that `shardsInRange` runs. -/
theorem pushMonths_eq {cur : ShardId} (h : cur.Valid) (stop : ShardId) (rounds : ℕ) :
    pushMonths stop rounds cur = shardsUpTo stop rounds cur := by
  induction rounds generalizing cur with
  | zero => rfl
  | succ rounds ih =>
    have hnext : cur.nextU32 = cur.next := by
      obtain ⟨hpos, hle⟩ := h
      unfold ShardId.nextU32 ShardId.next
      rw [Nat.mod_eq_of_lt (by omega)]
    rw [pushMonths, shardsUpTo, hnext, ih (ShardId.next_valid h)]

/-- One step from a month up to 12 towards a later one. -/
theorem nextU32_of_le_twelve {cur stop : ShardId} (hstop : stop.Valid) (hmonth : cur.month ≤ 12)
    (h : cur < stop) : cur.nextU32.month ≤ 12 ∧ cur.nextU32 ≤ stop ∧
      (stop.index - cur.nextU32.index).toNat < (stop.index - cur.index).toNat := by
  obtain ⟨hle, hne⟩ := lt_iff_le_and_ne.mp h
  have hdiffer : ¬ (cur.year = stop.year ∧ cur.month = stop.month) := by
    rw [← ShardId.mk.injEq]
    exact hne
  obtain ⟨hpos, htwelve⟩ := hstop
  rw [ShardId.le_iff] at hle ⊢
  unfold ShardId.nextU32 ShardId.index
  split
  · dsimp only
    omega
  · dsimp only
    omega

/-- A month up to 12 comes to every later month. -/
theorem pushMonths_of_le_twelve {stop : ShardId} (hstop : stop.Valid) (n : ℕ) {cur : ShardId}
    (hmonth : cur.month ≤ 12) (h : cur ≤ stop) (hn : (stop.index - cur.index).toNat ≤ n) :
    ∃ out, pushMonths stop (n + 1) cur = some out := by
  induction n generalizing cur with
  | zero =>
    rw [pushMonths]
    rcases h.eq_or_lt with heq | hlt
    · exact ⟨[cur], if_pos heq⟩
    · have hstep := (nextU32_of_le_twelve hstop hmonth hlt).2.2
      omega
  | succ n ih =>
    rw [pushMonths]
    rcases h.eq_or_lt with heq | hlt
    · exact ⟨[cur], if_pos heq⟩
    · obtain ⟨hnext, hle, hless⟩ := nextU32_of_le_twelve hstop hmonth hlt
      obtain ⟨out, hout⟩ := ih hnext hle (by omega)
      rw [if_neg hlt.ne, hout]
      exact ⟨cur :: out, rfl⟩

/-- The months above 12 run out, and month 0 comes after them. -/
theorem pushMonths_ends {stop : ShardId} (hstop : stop.Valid) (k : ℕ) {cur : ShardId}
    (hmonth : cur.month + k + 1 = 2 ^ 32) (h : cur ≤ stop) :
    ∃ rounds out, pushMonths stop rounds cur = some out := by
  induction k generalizing cur with
  | zero =>
    have hnext : cur.nextU32 = ⟨cur.year, 0⟩ := by
      unfold ShardId.nextU32
      rw [if_neg (by omega), hmonth, Nat.mod_self]
    have hle : ShardId.mk cur.year 0 ≤ stop := by
      rw [ShardId.le_iff] at h ⊢
      dsimp only
      omega
    obtain ⟨out, hout⟩ := pushMonths_of_le_twelve hstop _ (Nat.zero_le 12) hle le_rfl
    rw [← hnext] at hout
    by_cases heq : cur = stop
    · exact ⟨1, [cur], if_pos heq⟩
    · exact ⟨_ + 1, cur :: out, by rw [pushMonths, if_neg heq, hout]; rfl⟩
  | succ k ih =>
    by_cases htwelve : cur.month ≤ 12
    · exact ⟨_, pushMonths_of_le_twelve hstop _ htwelve h le_rfl⟩
    · have hnext : cur.nextU32 = ⟨cur.year, cur.month + 1⟩ := by
        unfold ShardId.nextU32
        rw [if_neg (by omega), Nat.mod_eq_of_lt (by omega)]
      -- the last month is one of the twelve, and so in a later year
      have hle : ShardId.mk cur.year (cur.month + 1) ≤ stop := by
        obtain ⟨-, hlast⟩ := hstop
        rw [ShardId.le_iff] at h ⊢
        dsimp only
        omega
      have hne : cur ≠ stop := by
        rintro rfl
        exact htwelve hstop.2
      obtain ⟨rounds, out, hout⟩ := ih (by dsimp only; omega) hle
      rw [← hnext] at hout
      exact ⟨rounds + 1, cur :: out, by rw [pushMonths, if_neg hne, hout]; rfl⟩

/-- A range is walked to its end from any month of 32 bits. -/
theorem pushRange_ends {start stop : ShardId} (hstop : stop.Valid) (hmonth : start.month < 2 ^ 32) :
    ∃ rounds out, pushRange rounds start stop = some out := by
  unfold pushRange
  by_cases h : stop < start
  · exact ⟨0, [], if_pos h⟩
  · obtain ⟨rounds, out, hout⟩ :=
      pushMonths_ends hstop (2 ^ 32 - start.month - 1) (by omega) (not_lt.mp h)
    exact ⟨rounds, out, (if_neg h).trans hout⟩

/-- What is recorded has a month of 32 bits, and its year is not negative. -/
theorem Least.bounds {names : List (List Char)} {id : ShardId} (h : Least names id) :
    id.month < 2 ^ 32 ∧ 0 ≤ id.year := by
  obtain ⟨⟨n, -, hparse⟩, -⟩ := h
  obtain ⟨y, m, year, -, hyear, -, ds, -, -, -, hlt⟩ := ShardId.parse_eq_some_iff.mp hparse
  exact ⟨hlt, by omega⟩

theorem rangeStart_month {earliest : ShardId} (h : earliest.month < 2 ^ 32) (now : ℕ)
    (since : Option ℕ) : (rangeStart now since earliest).month < 2 ^ 32 := by
  unfold rangeStart
  cases since with
  | none => exact h
  | some ts =>
    have hvalid : (ShardId.fromTimestamp now ts).month ≤ 12 := (ShardId.fromTimestamp_valid now ts).2
    rw [Option.map_some, Option.getD_some]
    exact hvalid.trans_lt (by decide)

/-- **Shards, their bounds and their names.** A timestamp is in bounds outside the last month of the
calendar and the last month before the epoch; a name is read back where the year has no sign; months
are in the order of the timestamps on either side of the epoch; a name is only ever read as the shard
that has it where it is spelled as that one is. From the least shard recorded every range comes to
its end, and it has a first second where it is a month of the calendar. -/
theorem shards_consistent_iff (now : ℕ) (n : List Char) (names : List (List Char)) :
    (∀ ts id, ts < 2 ^ 64 → ShardId.ofTimestampOpt (asI64 ts) = some id →
      ShardId.fromTimestamp now ts = id ∧
        (id.Bounds ts ↔ asI64 ts < 8210264198400 ∧ ¬ (-2678400 ≤ asI64 ts ∧ asI64 ts < 0)) ∧
        (ShardId.parse id.name = some id ↔ -62167219200 ≤ asI64 ts)) ∧
    (∀ ts ts' id id', ts ≤ ts' → ts' < 2 ^ 64 → ShardId.ofTimestampOpt (asI64 ts) = some id →
      ShardId.ofTimestampOpt (asI64 ts') = some id' →
        (id ≤ id' ↔ ¬ (ts < 2 ^ 63 ∧ 2 ^ 63 ≤ ts'))) ∧
    ((∀ id, ShardId.parse n = some id → n = id.name ∧ id.Valid) ↔
      (ShardId.Readable n → ShardId.Canonical n)) ∧
    (∀ earliest, discoverEarliest names = some earliest → ∀ since til,
      ∃ rounds out, pushRange rounds (rangeStart now since earliest) (rangeStop now til) =
        some out) ∧
      ((∀ earliest, discoverEarliest names = some earliest → earliest.startTs.isSome) ↔
        ∀ id, Least names id → id.Valid ∧ id.year ≤ 262142) := by
  refine ⟨fun ts id hts h => ⟨ShardId.fromTimestamp_eq_of_some h now,
    ShardId.bounds_iff hts h, ?_⟩, fun ts ts' id id' hle hts h h' =>
      ShardId.fromTimestamp_le_iff hts hle h h', ShardId.parse_canonical_iff, ?_, ?_⟩
  · have hcal := ShardId.inCalendar_of_timestamp h
    have hyear := ShardId.yearZero_le_iff (asI64 ts)
    rw [ShardId.ofUtc_of_some h] at hyear
    rw [ShardId.parse_name_iff hcal, ← hyear]
    obtain ⟨hpos, hle, -⟩ := hcal
    unfold ShardId.index
    omega
  · intro earliest h since til
    have hleast := discoverEarliest_eq_some_iff.mp h
    exact pushRange_ends (rangeStop_valid now til) (rangeStart_month hleast.bounds.1 now since)
  · refine forall_congr' fun id => ?_
    rw [discoverEarliest_eq_some_iff]
    refine forall_congr' fun hleast => ?_
    have hyear := hleast.bounds.2
    rw [ShardId.isSome_startTs_iff, ShardId.InCalendar, ShardId.Valid]
    omega

/-- A directory with a month 13 is recorded, and has no first second. One with a short month is read
as a shard whose name is another. -/
theorem month_thirteen_recorded :
    discoverEarliest ["2024-13".toList, "2025-01".toList] = some ⟨2024, 13⟩ ∧
      (ShardId.mk 2024 13).startTs = none ∧
      ShardId.parse "2024-1".toList = some ⟨2024, 1⟩ ∧
      (ShardId.mk 2024 1).name ≠ "2024-1".toList := by
  decide

end NostrSearch.Core
