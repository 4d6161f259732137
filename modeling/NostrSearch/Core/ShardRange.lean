import NostrSearch.Core.Calendar
import Mathlib.Data.Prod.Lex

/-!
# Shard pruning

`shards_in_range` walks from the month of `since` to the month of the last second before `until`.
Months are ordered by year and then by month, which is the order of `ShardId.index` as long as the
month is one of the twelve.
-/

namespace NostrSearch.Core

namespace ShardId

/-- Year and month, as the derived `Ord` compares them. -/
def key (id : ShardId) : ℤ ×ₗ ℕ := toLex (id.year, id.month)

theorem key_injective : Function.Injective key := by
  intro a b h
  cases a
  cases b
  simpa [key] using h

instance : LinearOrder ShardId := LinearOrder.lift' key key_injective

theorem le_iff {a b : ShardId} : a ≤ b ↔ a.year < b.year ∨ a.year = b.year ∧ a.month ≤ b.month :=
  Prod.Lex.le_iff

/-- Months run from 1 to 12. -/
def Valid (id : ShardId) : Prop := 1 ≤ id.month ∧ id.month ≤ 12

instance (id : ShardId) : Decidable id.Valid := inferInstanceAs (Decidable (_ ∧ _))

theorem le_iff_index {a b : ShardId} (ha : a.Valid) (hb : b.Valid) : a ≤ b ↔ a.index ≤ b.index := by
  rw [le_iff]
  unfold Valid at ha hb
  unfold index
  omega

theorem index_injective {a b : ShardId} (ha : a.Valid) (hb : b.Valid) (h : a.index = b.index) :
    a = b :=
  le_antisymm ((le_iff_index ha hb).mpr h.le) ((le_iff_index hb ha).mpr h.ge)

/-- The next shard in sequence. -/
def next (id : ShardId) : ShardId :=
  if id.month = 12 then { year := id.year + 1, month := 1 }
  else { id with month := id.month + 1 }

theorem next_valid {id : ShardId} (h : id.Valid) : id.next.Valid := by
  unfold Valid at *
  unfold next
  split
  · show 1 ≤ 1 ∧ 1 ≤ 12
    omega
  · show 1 ≤ id.month + 1 ∧ id.month + 1 ≤ 12
    omega

theorem index_next (id : ShardId) : id.next.index = id.index + 1 := by
  unfold next index
  split
  · dsimp only
    omega
  · push_cast
    ring

theorem ofUtc_valid (secs : ℤ) : (ofUtc secs).Valid := ofDays_month _

theorem fromTimestamp_valid (now ts : ℕ) : (fromTimestamp now ts).Valid := by
  unfold fromTimestamp ofTimestampOpt
  dsimp only
  split
  · exact ofUtc_valid _
  · exact ofUtc_valid _

theorem ofUtc_mono {a b : ℤ} (h : a ≤ b) : ofUtc a ≤ ofUtc b := by
  rw [le_iff_index (ofUtc_valid a) (ofUtc_valid b)]
  exact index_mono (Int.ediv_le_ediv (by norm_num) h)

end ShardId

/-! ## The range -/

/-- The loop of `shards_in_range`: push `cur` and go on to the next month, until `cur` is the last
one. `none` stands for a loop that has not come to `stop` in so many rounds. -/
def shardsUpTo (stop : ShardId) : ℕ → ShardId → Option (List ShardId)
  | 0, _ => none
  | rounds + 1, cur =>
    if cur = stop then some [cur]
    else (shardsUpTo stop rounds cur.next).map fun out => cur :: out

/-- The first month of the range. -/
def rangeStart (now : ℕ) (since : Option ℕ) (earliest : ShardId) : ShardId :=
  (since.map fun ts => ShardId.fromTimestamp now ts).getD earliest

/-- The last one. `until` is exclusive, so that the second before it is looked up. -/
def rangeStop (now : ℕ) (til : Option ℕ) : ShardId :=
  (til.map fun u => ShardId.fromTimestamp now (u - 1)).getD (ShardId.ofUtc now)

/-- `shards_in_range`. An open `since` starts at the earliest shard the caller knows about, an open
`until` ends at the current month. The loop is given a round for each month from the first to the
last. -/
def shardsInRange (now : ℕ) (since til : Option ℕ) (earliest : ShardId) : Option (List ShardId) :=
  let start := rangeStart now since earliest
  let stop := rangeStop now til
  if stop < start then some []
  else shardsUpTo stop ((stop.index - start.index).toNat + 1) start

/-- The loop comes to its end, and has gone through the months in between. -/
theorem shardsUpTo_spec {stop : ShardId} (hstop : stop.Valid) (n : ℕ) {cur : ShardId}
    (hcur : cur.Valid) (hn : stop.index = cur.index + n) :
    ∃ out, shardsUpTo stop (n + 1) cur = some out ∧
      ∀ id : ShardId, id.Valid → (id ∈ out ↔ cur ≤ id ∧ id ≤ stop) := by
  induction n generalizing cur with
  | zero =>
    obtain rfl : cur = stop := ShardId.index_injective hcur hstop (by omega)
    refine ⟨[cur], by rw [shardsUpTo, if_pos rfl], fun id _ => ?_⟩
    rw [List.mem_singleton]
    exact ⟨fun h => by rw [h]; exact ⟨le_refl _, le_refl _⟩, fun h => le_antisymm h.2 h.1⟩
  | succ n ih =>
    have hne : cur ≠ stop := by
      rintro rfl
      omega
    have hnext := ShardId.index_next cur
    obtain ⟨out, hout, hmem⟩ := ih (ShardId.next_valid hcur) (by omega)
    refine ⟨cur :: out, by rw [shardsUpTo, if_neg hne, hout, Option.map_some], fun id hid => ?_⟩
    rw [List.mem_cons, hmem id hid, ShardId.le_iff_index (ShardId.next_valid hcur) hid,
      ShardId.le_iff_index hcur hid, ShardId.le_iff_index hid hstop]
    -- `id` is the first month, or one of those after it
    constructor
    · rintro (rfl | h)
      · omega
      · omega
    · intro h
      by_cases heq : id.index = cur.index
      · exact Or.inl (ShardId.index_injective hid hcur heq)
      · right
        omega

/-- The months come in order, each once. -/
theorem shardsUpTo_sorted {stop : ShardId} {rounds : ℕ} {cur : ShardId} {out : List ShardId}
    (hcur : cur.Valid) (h : shardsUpTo stop rounds cur = some out) :
    (∀ id ∈ out, id.Valid ∧ cur.index ≤ id.index) ∧ out.Pairwise fun a b => a.index < b.index := by
  induction rounds generalizing cur out with
  | zero => cases h
  | succ rounds ih =>
    rw [shardsUpTo] at h
    by_cases heq : cur = stop
    · rw [if_pos heq] at h
      cases h
      simp [hcur]
    · rw [if_neg heq] at h
      obtain ⟨rest, hrest, rfl⟩ := Option.map_eq_some_iff.mp h
      obtain ⟨hmem, hpair⟩ := ih (ShardId.next_valid hcur) hrest
      have hnext := ShardId.index_next cur
      refine ⟨?_, ?_⟩
      · intro id hid
        rcases List.mem_cons.mp hid with rfl | hid
        · exact ⟨hcur, le_refl _⟩
        · have hle := (hmem id hid).2
          exact ⟨(hmem id hid).1, by omega⟩
      · refine List.pairwise_cons.mpr ⟨fun id hid => ?_, hpair⟩
        have hle := (hmem id hid).2
        omega

theorem rangeStart_valid {earliest : ShardId} (h : earliest.Valid) (now : ℕ) (since : Option ℕ) :
    (rangeStart now since earliest).Valid := by
  cases since with
  | none => exact h
  | some ts =>
    rw [rangeStart, Option.map_some, Option.getD_some]
    exact ShardId.fromTimestamp_valid now ts

theorem rangeStop_valid (now : ℕ) (til : Option ℕ) : (rangeStop now til).Valid := by
  cases til with
  | none => exact ShardId.ofUtc_valid now
  | some u =>
    rw [rangeStop, Option.map_some, Option.getD_some]
    exact ShardId.fromTimestamp_valid now (u - 1)

/-- **The range is what it says.** Whatever the bounds, the list is there and has the months from
the first to the last. -/
theorem shardsInRange_spec {earliest : ShardId} (hearliest : earliest.Valid) (now : ℕ)
    (since til : Option ℕ) :
    ∃ out, shardsInRange now since til earliest = some out ∧
      ∀ id : ShardId, id.Valid →
        (id ∈ out ↔ rangeStart now since earliest ≤ id ∧ id ≤ rangeStop now til) := by
  have hstart := rangeStart_valid hearliest now since
  have hstop := rangeStop_valid now til
  unfold shardsInRange
  by_cases hlt : rangeStop now til < rangeStart now since earliest
  · refine ⟨[], if_pos hlt, fun id _ => ?_⟩
    simp only [List.not_mem_nil, false_iff, not_and, not_le]
    exact fun h => lt_of_lt_of_le hlt h
  · have hle := (ShardId.le_iff_index hstart hstop).mp (not_lt.mp hlt)
    rw [if_neg hlt]
    exact shardsUpTo_spec hstop _ hstart (by omega)

/-- Each month of the range is a month, and is there once. -/
theorem shardsInRange_nodup {earliest : ShardId} (hearliest : earliest.Valid) {now : ℕ}
    {since til : Option ℕ} {out : List ShardId}
    (h : shardsInRange now since til earliest = some out) :
    (∀ id ∈ out, id.Valid) ∧ out.Nodup := by
  unfold shardsInRange at h
  by_cases hlt : rangeStop now til < rangeStart now since earliest
  · rw [if_pos hlt] at h
    cases h
    simp
  · rw [if_neg hlt] at h
    obtain ⟨hmem, hpair⟩ := shardsUpTo_sorted (rangeStart_valid hearliest now since) h
    refine ⟨fun id hid => (hmem id hid).1, hpair.imp ?_⟩
    rintro a b hab rfl
    omega

-- November 2023 to January 2024, as in the source's own test
example : shardsInRange 1793577684 (some 1698796800) (some 1706745600) ⟨2023, 1⟩ =
    some [⟨2023, 11⟩, ⟨2023, 12⟩, ⟨2024, 1⟩] := by decide

end NostrSearch.Core
