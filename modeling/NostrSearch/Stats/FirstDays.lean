import NostrSearch.Core.Calendar
import NostrSearch.Stats.FirstSeen

/-!
# New users in any order

The counts an attached `new_users` comes to from an empty store, as a function of the events alone:
an author counts under the day and the month of the earliest event with a key that is not thrown
away, whatever order the events come in. `first_days` says so of the two maps.

The store has that earliest timestamp (`get_foldAll`), and the counts are the histogram of the
store (`sound_observe`); a count that is down to zero is not kept (`NoZero`).
-/

namespace NostrSearch.Stats.NewUsers

open NostrSearch.Core NostrSearch.Stats NostrSearch.Lib

/-- One event into the analysis and its store. -/
def foldOne (p : NewUsers × FirstSeen) (o : Handed) : NewUsers × FirstSeen :=
  ((observe o.ev o.ctx p.2 p.1).1, (observe o.ev o.ctx p.2 p.1).2.1)

/-- The events, in this order, into an attached analysis that has seen none. -/
def foldAll (evs : List Handed) : NewUsers × FirstSeen :=
  evs.foldl foldOne (attach FirstSeen.empty default, FirstSeen.empty)

/-- The timestamps of an author's events, throwaway keys aside. -/
def datesOf (evs : List Handed) (pk : Pubkey) : List ℕ :=
  (evs.filter fun o => !o.ev.usesThrowawayKey && decide (o.ctx.author = pk)).map fun o =>
    o.ev.createdAt

/-- The timestamp of the earliest of them. -/
def earliest (evs : List Handed) (pk : Pubkey) : Option ℕ := (datesOf evs pk).min?

/-- The authors whose earliest event satisfies `p`. -/
def firstWith (evs : List Handed) (p : ℕ → Bool) : Finset Pubkey :=
  (evs.map fun o => o.ctx.author).toFinset.filter fun pk => (earliest evs pk).any p

/-- A move of a count in which the subtraction would go below zero. -/
def Saturates (map : Finmap fun _ : ℕ => ℕ) (key : ℕ) (delta : ℤ) : Prop :=
  ((map.lookup key).getD 0 : ℤ) + delta < 0

variable {evs : List Handed} {pk : Pubkey} {s : NewUsers} {f : FirstSeen}

/-! ## Earliest events -/

theorem mem_datesOf {ts : ℕ} : ts ∈ datesOf evs pk ↔
    ∃ o ∈ evs, o.ev.usesThrowawayKey = false ∧ o.ctx.author = pk ∧ o.ev.createdAt = ts := by
  rw [datesOf, List.mem_map]
  constructor
  · rintro ⟨o, ho, hts⟩
    obtain ⟨hmem, hcond⟩ := List.mem_filter.mp ho
    rw [Bool.and_eq_true, Bool.not_eq_true', decide_eq_true_eq] at hcond
    exact ⟨o, hmem, hcond.1, hcond.2, hts⟩
  · rintro ⟨o, hmem, hkey, hauthor, hts⟩
    refine ⟨o, List.mem_filter.mpr ⟨hmem, ?_⟩, hts⟩
    rw [hkey, decide_eq_true hauthor]
    rfl

theorem earliest_eq_some {ts : ℕ} : earliest evs pk = some ts ↔
    ts ∈ datesOf evs pk ∧ ∀ ts' ∈ datesOf evs pk, ts ≤ ts' := by
  rw [earliest, List.min?_eq_some_iff]

theorem mem_firstWith {p : ℕ → Bool} :
    pk ∈ firstWith evs p ↔ ∃ ts, earliest evs pk = some ts ∧ p ts = true := by
  rw [firstWith, Finset.mem_filter, Option.any_eq_true, and_iff_right_iff_imp]
  rintro ⟨ts, hts, -⟩
  obtain ⟨o, ho, -, hauthor, -⟩ := mem_datesOf.mp (earliest_eq_some.mp hts).1
  rw [List.mem_toFinset, ← hauthor]
  exact List.mem_map_of_mem ho

/-- One more event. -/
theorem earliest_append (evs : List Handed) (o : Handed) (pk : Pubkey) :
    earliest (evs ++ [o]) pk =
      if o.ev.usesThrowawayKey = false ∧ o.ctx.author = pk then
        some ((earliest evs pk).elim o.ev.createdAt fun ts => min ts o.ev.createdAt)
      else earliest evs pk := by
  have hdates : datesOf (evs ++ [o]) pk = datesOf evs pk ++
      if o.ev.usesThrowawayKey = false ∧ o.ctx.author = pk then [o.ev.createdAt] else [] := by
    unfold datesOf
    rw [List.filter_append, List.map_append]
    congr 1
    by_cases hcond : o.ev.usesThrowawayKey = false ∧ o.ctx.author = pk
    · rw [if_pos hcond]
      simp [hcond]
    · -- of a throwaway key, or of another author
      rw [if_neg hcond]
      rcases not_and_or.mp hcond with hkey | hauthor
      · simp [hkey]
      · simp [hauthor]
  rw [earliest, hdates]
  split
  · rw [earliest]
    cases datesOf evs pk with
    | nil => rfl
    | cons ts dates =>
      rw [List.cons_append, List.min?_cons', List.min?_cons', List.foldl_append]
      rfl
  · rw [List.append_nil, earliest]

/-- Which event is earliest does not depend on their order. -/
theorem earliest_of_perm {evs' : List Handed} (h : evs.Perm evs') (pk : Pubkey) :
    earliest evs pk = earliest evs' pk := by
  ext ts
  have hdates : ∀ ts, ts ∈ datesOf evs pk ↔ ts ∈ datesOf evs' pk := by
    intro ts
    simp only [mem_datesOf, h.mem_iff]
  simp only [earliest_eq_some, hdates]

/-! ## The store -/

theorem foldAll_append (evs : List Handed) (o : Handed) :
    foldAll (evs ++ [o]) = foldOne (foldAll evs) o := by
  rw [foldAll, List.foldl_append]
  rfl

theorem attached_foldAll (evs : List Handed) : (foldAll evs).1.attached = true := by
  induction evs using List.reverseRecOn with
  | nil => rfl
  | append_singleton evs o ih =>
    rw [foldAll_append]
    show (observe o.ev o.ctx (foldAll evs).2 (foldAll evs).1).1.attached = true
    unfold observe
    split
    · exact ih
    · dsimp only
      split
      · split <;> exact ih
      · exact ih

/-- What `observe` does to the store of an attached analysis. -/
theorem get_observe (hatt : s.attached = true) (o : Handed) (pk : Pubkey) :
    (observe o.ev o.ctx f s).2.1.get pk =
      if o.ev.usesThrowawayKey = false ∧ o.ctx.author = pk then
        some ((f.get pk).elim o.ev.createdAt fun ts => min ts o.ev.createdAt)
      else f.get pk := by
  have hput : ∀ ts, (f.put o.ctx.author ts).get pk =
      if o.ctx.author = pk then some ts else f.get pk := by
    intro ts
    unfold FirstSeen.put FirstSeen.get
    dsimp only
    split
    case isTrue h => rw [← h, Finmap.lookup_insert]
    case isFalse h => rw [Finmap.lookup_insert_of_ne _ (Ne.symm h)]
  unfold observe
  by_cases hkey : o.ev.usesThrowawayKey = true
  · rw [if_pos hkey, if_neg (by rw [hkey]; exact fun h => Bool.noConfusion h.1)]
  rw [if_neg hkey, if_pos hatt]
  rw [Bool.not_eq_true] at hkey
  simp only [hkey, true_and]
  by_cases hauthor : o.ctx.author = pk
  · subst hauthor
    rw [if_pos rfl]
    cases hget : f.get o.ctx.author with
    | none =>
      dsimp only
      rw [hput, if_pos rfl, Option.elim_none]
    | some prev =>
      dsimp only
      split
      case isTrue hle =>
        rw [hget, Option.elim_some, min_eq_left hle]
      case isFalse hlt =>
        rw [hput, if_pos rfl, Option.elim_some, min_eq_right (by omega)]
  · rw [if_neg hauthor]
    cases f.get o.ctx.author with
    | none =>
      dsimp only
      rw [hput, if_neg hauthor]
    | some prev =>
      dsimp only
      split
      · rfl
      · rw [hput, if_neg hauthor]

/-- **What the store has** is the earliest timestamp of each author. -/
theorem get_foldAll (evs : List Handed) (pk : Pubkey) :
    (foldAll evs).2.get pk = earliest evs pk := by
  induction evs using List.reverseRecOn with
  | nil =>
    show (∅ : Finmap fun _ : Pubkey => ℕ).lookup pk = none
    exact Finmap.lookup_empty pk
  -- the store is moved as the earliest event is
  | append_singleton evs o ih =>
    rw [foldAll_append, earliest_append, ← ih]
    exact get_observe (attached_foldAll evs) o pk

/-! ## The counts -/

theorem sound_foldAll (evs : List Handed) : (foldAll evs).1.Sound (foldAll evs).2 := by
  induction evs using List.reverseRecOn with
  | nil => exact sound_attach counts_default
  | append_singleton evs o ih =>
    rw [foldAll_append]
    exact sound_observe ih o.ev o.ctx

/-- No count of zero is kept. -/
def NoZero (m : Finmap fun _ : ℕ => ℕ) : Prop := ∀ key, m.lookup key ≠ some 0

theorem noZero_shiftSlot {m : Finmap fun _ : ℕ => ℕ} (h : NoZero m) (key : ℕ) (delta : ℤ) :
    NoZero (shiftSlot m key delta) := by
  intro k
  by_cases hk : k = key
  · subst hk
    unfold shiftSlot
    dsimp only
    split
    case isTrue =>
      rw [Finmap.lookup_erase]
      exact nofun
    case isFalse hne =>
      rw [Finmap.lookup_insert, Ne, Option.some.injEq]
      exact hne
  · rw [lookup_shiftSlot_of_ne hk]
    exact h k

theorem noZero_observe (hd : NoZero s.daily) (hm : NoZero s.monthly) (ev : NostrEvent)
    (ctx : AnalysisCtx) :
    NoZero (observe ev ctx f s).1.daily ∧ NoZero (observe ev ctx f s).1.monthly := by
  unfold observe
  split
  · exact ⟨hd, hm⟩
  · split
    · dsimp only
      split
      · split
        · exact ⟨hd, hm⟩
        -- out of the old bucket and into the earlier one
        · exact ⟨noZero_shiftSlot (noZero_shiftSlot hd _ _) _ _,
            noZero_shiftSlot (noZero_shiftSlot hm _ _) _ _⟩
      · exact ⟨noZero_shiftSlot hd _ _, noZero_shiftSlot hm _ _⟩
    · exact ⟨hd, hm⟩

theorem noZero_foldAll (evs : List Handed) :
    NoZero (foldAll evs).1.daily ∧ NoZero (foldAll evs).1.monthly := by
  induction evs using List.reverseRecOn with
  | nil =>
    constructor
    · intro key h
      cases h
    · intro key h
      cases h
  | append_singleton evs o ih =>
    rw [foldAll_append]
    exact noZero_observe ih.1 ih.2 o.ev o.ctx

/-- What a map without zeros has under a key. -/
theorem lookup_of_noZero {m : Finmap fun _ : ℕ => ℕ} (h : NoZero m) {key n : ℕ}
    (hn : (m.lookup key).getD 0 = n) : m.lookup key = if n = 0 then none else some n := by
  cases hkey : m.lookup key with
  | none =>
    rw [hkey, Option.getD_none] at hn
    rw [if_pos hn.symm]
  | some c =>
    rw [hkey, Option.getD_some] at hn
    subst hn
    rw [if_neg fun hzero => h key (by rw [hkey, hzero])]

/-- The histogram of the store is that of the earliest events. -/
theorem countIn_foldAll (evs : List Handed) (start : ℕ → ℕ) (key : ℕ) :
    (foldAll evs).2.countIn start key =
      (firstWith evs fun ts => decide (start ts = key)).card := by
  unfold FirstSeen.countIn
  congr 1
  ext pk
  rw [Finset.mem_filter, mem_firstWith, get_foldAll, Option.any_eq_true, and_iff_right_iff_imp]
  rintro ⟨ts, hts, -⟩
  rw [Finmap.mem_keys]
  exact Finmap.mem_of_lookup_eq_some ((get_foldAll evs pk).trans hts)

theorem lookup_daily (evs : List Handed) (day : ℕ) : (foldAll evs).1.daily.lookup day =
    if (firstWith evs fun ts => decide (dayStart ts = day)).card = 0 then none
    else some (firstWith evs fun ts => decide (dayStart ts = day)).card := by
  apply lookup_of_noZero (noZero_foldAll evs).1
  rw [(sound_foldAll evs).counts.daily, countIn_foldAll]

theorem lookup_monthly (evs : List Handed) (key : ℕ) : (foldAll evs).1.monthly.lookup key =
    if (firstWith evs fun ts => decide (monthStart ts = key)).card = 0 then none
    else some (firstWith evs fun ts => decide (monthStart ts = key)).card := by
  apply lookup_of_noZero (noZero_foldAll evs).2
  rw [(sound_foldAll evs).counts.monthly, countIn_foldAll]

/-- Every author is in one bucket. -/
theorem total_counts {m : Finmap fun _ : ℕ => ℕ} {start : ℕ → ℕ}
    (hm : ∀ key, (m.lookup key).getD 0 = f.countIn start key) : total m id = f.db.keys.card := by
  have hbucket : ∀ pk ∈ f.db.keys, ∃ ts, f.get pk = some ts := fun pk hpk =>
    Option.isSome_iff_exists.mp (Finmap.lookup_isSome.mpr (Finmap.mem_keys.mp hpk))
  have hmaps : ∀ pk ∈ f.db.keys, start ((f.get pk).getD 0) ∈ m.keys := by
    intro pk hpk
    obtain ⟨ts, hts⟩ := hbucket pk hpk
    -- the author is counted in the bucket, so it is there
    have hpos := FirstSeen.weight_le_countIn hts start (start ts)
    rw [FirstSeen.weight, if_pos rfl, ← hm] at hpos
    rw [hts, Option.getD_some, Finmap.mem_keys, ← Finmap.lookup_isSome]
    cases hlookup : m.lookup (start ts) with
    | none =>
      rw [hlookup] at hpos
      exact absurd hpos (by decide)
    | some n => rfl
  -- the authors, bucket by bucket
  rw [Finset.card_eq_sum_card_fiberwise hmaps, total]
  apply Finset.sum_congr rfl
  intro key _
  have hlookup : (m.lookup key).elim 0 id = (m.lookup key).getD 0 := by
    cases m.lookup key <;> rfl
  rw [hlookup, hm, FirstSeen.countIn]
  congr 1
  apply Finset.filter_congr
  intro pk hpk
  obtain ⟨ts, hts⟩ := hbucket pk hpk
  rw [hts, Option.any_some, Option.getD_some, decide_eq_true_eq]

/-! ## Calendar months -/

theorem monthStart_of_timestamp {ts : ℕ} {id : ShardId}
    (h : ShardId.ofTimestampOpt (asI64 ts) = some id) : monthStart ts = id.firstSecond := by
  rw [monthStart, h, ShardId.firstSecond]

theorem monthStart_iff {ts : ℕ} {id : ShardId} (hid : id.InCalendar)
    (hts : (ShardId.ofTimestampOpt (asI64 ts)).isSome) :
    monthStart ts = id.firstSecond ↔ ShardId.ofTimestampOpt (asI64 ts) = some id := by
  obtain ⟨id', hid'⟩ := Option.isSome_iff_exists.mp hts
  rw [monthStart_of_timestamp hid', hid', Option.some.injEq]
  constructor
  · exact ShardId.firstSecond_inj (ShardId.inCalendar_of_timestamp hid') hid
  · rintro rfl
    rfl

/-- **New users in any order.** An author counts in the day, and in the calendar month, of the
earliest event; a bucket without anybody is not there. No move of a count saturates, the two maps
have the same total, and another order of the events leaves both maps as they are. -/
theorem first_days (evs : List Handed)
    (hrange : ∀ o ∈ evs, (ShardId.ofTimestampOpt (asI64 o.ev.createdAt)).isSome) :
    (∀ day, ((foldAll evs).1.daily.lookup day).getD 0 =
        (firstWith evs fun ts => decide (dayStart ts = day)).card) ∧
      (∀ id : ShardId, id.InCalendar → ((foldAll evs).1.monthly.lookup id.firstSecond).getD 0 =
        (firstWith evs fun ts => decide (ShardId.ofTimestampOpt (asI64 ts) = some id)).card) ∧
      (∀ key, (foldAll evs).1.daily.lookup key ≠ some 0 ∧
        (foldAll evs).1.monthly.lookup key ≠ some 0) ∧
      (∀ key n, (foldAll evs).1.monthly.lookup key = some n →
        ∃ id : ShardId, id.InCalendar ∧ key = id.firstSecond) ∧
      (∀ pk prev, (foldAll evs).2.get pk = some prev →
        ¬ Saturates (foldAll evs).1.daily (dayStart prev) (-1) ∧
          ¬ Saturates (foldAll evs).1.monthly (monthStart prev) (-1)) ∧
      total (foldAll evs).1.daily id = total (foldAll evs).1.monthly id ∧
      ∀ evs', evs.Perm evs' → (foldAll evs').1.daily = (foldAll evs).1.daily ∧
        (foldAll evs').1.monthly = (foldAll evs).1.monthly := by
  have hsound := sound_foldAll evs
  have hinrange : ∀ pk ts, earliest evs pk = some ts →
      (ShardId.ofTimestampOpt (asI64 ts)).isSome := by
    intro pk ts hts
    obtain ⟨o, ho, -, -, rfl⟩ := mem_datesOf.mp (earliest_eq_some.mp hts).1
    exact hrange o ho
  refine ⟨fun day => ?_, fun id hid => ?_, fun key => ?_, fun key n hkey => ?_,
    fun pk prev hprev => ?_, ?_, fun evs' hperm => ?_⟩
  · rw [hsound.counts.daily, countIn_foldAll]
  · rw [hsound.counts.monthly, countIn_foldAll]
    congr 1
    ext pk
    simp only [mem_firstWith, decide_eq_true_eq]
    constructor
    · rintro ⟨ts, hts, hstart⟩
      exact ⟨ts, hts, (monthStart_iff hid (hinrange pk ts hts)).mp hstart⟩
    · rintro ⟨ts, hts, hmonth⟩
      exact ⟨ts, hts, (monthStart_iff hid (hinrange pk ts hts)).mpr hmonth⟩
  · exact ⟨(noZero_foldAll evs).1 key, (noZero_foldAll evs).2 key⟩
  · -- a bucket that is there has an author in it
    rw [lookup_monthly] at hkey
    split at hkey
    · cases hkey
    case isFalse hne =>
      obtain ⟨pk, hpk⟩ := Finset.card_pos.mp (Nat.pos_of_ne_zero hne)
      obtain ⟨ts, hts, hstart⟩ := mem_firstWith.mp hpk
      obtain ⟨id, hid⟩ := Option.isSome_iff_exists.mp (hinrange pk ts hts)
      refine ⟨id, ShardId.inCalendar_of_timestamp hid, ?_⟩
      rw [← monthStart_of_timestamp hid, of_decide_eq_true hstart]
  · have hday := FirstSeen.weight_le_countIn hprev dayStart (dayStart prev)
    have hmonth := FirstSeen.weight_le_countIn hprev monthStart (monthStart prev)
    rw [FirstSeen.weight, if_pos rfl, ← hsound.counts.daily] at hday
    rw [FirstSeen.weight, if_pos rfl, ← hsound.counts.monthly] at hmonth
    unfold Saturates
    omega
  · rw [total_counts hsound.counts.daily, total_counts hsound.counts.monthly]
  · have hfirst : ∀ p, firstWith evs' p = firstWith evs p := by
      intro p
      ext pk
      rw [mem_firstWith, mem_firstWith, earliest_of_perm hperm]
    constructor
    · apply Finmap.ext_lookup
      intro key
      rw [lookup_daily, lookup_daily, hfirst]
    · apply Finmap.ext_lookup
      intro key
      rw [lookup_monthly, lookup_monthly, hfirst]

section outOfOrder

private def noteAt (createdAt : ℕ) (seed : UInt8) : Handed :=
  { ev := { id := "", pubkey := "", createdAt := createdAt, kind := 1, tags := [], content := "",
            sig := "" }
    ctx := { now := 0, author := Vector.replicate 32 seed, eventId := Vector.replicate 32 0
             world := World.empty } }

/-- The first user comes again with an event of four days before. -/
private def outOfOrder : List Handed :=
  [noteAt 1790294400 1, noteAt 1789948800 1, noteAt 1790294400 2]

/-- Two users, one of them new four days earlier than first thought. -/
theorem out_of_order_first_days :
    (∀ o ∈ outOfOrder, (ShardId.ofTimestampOpt (asI64 o.ev.createdAt)).isSome) ∧
      (∀ day, ((foldAll outOfOrder).1.daily.lookup day).getD 0 =
        (firstWith outOfOrder fun ts => decide (dayStart ts = day)).card) ∧
      (firstWith outOfOrder fun ts => decide (dayStart ts = 1789948800)).card = 1 := by
  have hrange : ∀ o ∈ outOfOrder, (ShardId.ofTimestampOpt (asI64 o.ev.createdAt)).isSome := by
    decide +kernel
  exact ⟨hrange, (first_days outOfOrder hrange).1, by decide +kernel⟩

end outOfOrder

end NostrSearch.Stats.NewUsers
