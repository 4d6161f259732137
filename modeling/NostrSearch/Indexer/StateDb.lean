import NostrSearch.Core.DateOrder
import NostrSearch.Core.ShardNames
import NostrSearch.Indexer.RecordLayouts
import NostrSearch.Indexer.RunPass
import NostrSearch.Lib.OrderedStore

/-!
# The state database of the scraper

`ScrapeState` keeps its records in one ordered key-value store: relays under `r|<url>`, finished
days under `d|<date>|<url>`, the time of the last discovery under a key of its own. The planner and
the units read and write it record by record; the admin API and the status pages scan it. Keys are
texts, whose bytes are in the order of their characters.

`toState` is the state that the rest of the scraper is stated over. `refines_runs` says that the
store implements it, whatever is put, reset and forgotten, in any order; `reset_days_exact` says
what a reset forgets, and that its preview shows just that.
-/

namespace NostrSearch.Indexer

open NostrSearch.Core NostrSearch.Lib Positional

/-! ## Records -/

/-- `bincode::serialize` of a relay: each number in the width of its field. -/
def relayBytes (r : RelayInfo) : List UInt8 :=
  [toLE r.sources 4, putOption putBool r.negentropy, toLE r.cap 4, toLE r.fails 4,
    toLE r.lastOk 8, putOption (toLE · 8) r.birthday, putOption putBool r.nip11,
    toLE r.nip11At 8, putOption (toLE · 8) r.deadUntil].flatten ++ toLE r.lastFail 8 ++
  toLE r.negCap 4

/-- `bincode::serialize` of a finished day. -/
def dayBytes (d : DayDone) : List UInt8 :=
  [toLE d.seen 8, toLE d.new 8, toLE d.doneAt 8].flatten ++ toLE d.epoch 4

theorem decode_relayBytes (r : RelayRecord) : decodeRelayInfo (relayBytes r.info) = some r.info :=
  r.decode_bytes

theorem decode_dayBytes (d : DayRecord) : decodeDayDone (dayBytes d.day) = some d.day :=
  d.decode_bytes

/-- Numbers that fit their fields. -/
structure Fits (r : RelayInfo) : Prop where
  sources : r.sources < 2 ^ 32
  cap : r.cap < 2 ^ 32
  fails : r.fails < 2 ^ 32
  lastOk : r.lastOk < 2 ^ 64
  birthday : ∀ t ∈ r.birthday, t < 2 ^ 64
  nip11At : r.nip11At < 2 ^ 64
  deadUntil : ∀ t ∈ r.deadUntil, t < 2 ^ 64
  lastFail : r.lastFail < 2 ^ 64
  negCap : r.negCap < 2 ^ 32

/-- Whatever layout a relay is read in, its numbers fit their fields. -/
theorem fits_of_decode {v : List UInt8} {info : RelayInfo} (h : decodeRelayInfo v = some info) :
    Fits info := by
  have hany : Yields bool fun _ => True := Yields.of_forall fun _ => trivial
  have hV1 : Yields relayInfoV1 Fits := by
    refine (yields_uint 4).bind fun sources hsources => ?_
    refine (yields_option hany).bind fun negentropy _ => ?_
    refine (yields_uint 4).bind fun cap hcap => ?_
    refine (yields_uint 4).bind fun fails hfails => ?_
    refine (yields_uint 8).bind fun lastOk hlastOk => ?_
    refine (yields_option (yields_uint 8)).bind fun birthday hbirthday => ?_
    refine (yields_option hany).bind fun nip11 _ => ?_
    refine (yields_uint 8).bind fun nip11At hnip11At => ?_
    refine (yields_option (yields_uint 8)).bind fun deadUntil hdeadUntil => ?_
    exact Yields.pure ⟨hsources, hcap, hfails, hlastOk, hbirthday, hnip11At, hdeadUntil,
      Nat.two_pow_pos 64, Nat.two_pow_pos 32⟩
  have hV2 : Yields relayInfoV2 Fits :=
    hV1.bind fun o ho => (yields_uint 8).bind fun t ht => Yields.pure { ho with lastFail := ht }
  have hV3 : Yields relayInfo Fits :=
    hV2.bind fun o ho => (yields_uint 4).bind fun n hn => Yields.pure { ho with negCap := hn }
  rw [decodeRelayInfo] at h
  split at h
  case h_1 heq =>
    cases h
    exact hV3.deserialize heq
  case h_2 =>
    split at h
    case h_1 heq =>
      cases h
      exact hV2.deserialize heq
    case h_2 => exact hV1.deserialize h

/-- The record of a relay whose numbers fit. -/
def Fits.record {r : RelayInfo} (h : Fits r) : RelayRecord :=
  { h with info := r }

theorem Fits.withSources {r : RelayInfo} (h : Fits r) {n : ℕ} (hn : n < 2 ^ 32) :
    Fits { r with sources := n } :=
  { h with sources := hn }

theorem fits_default : Fits {} where
  sources := Nat.two_pow_pos 32
  cap := Nat.two_pow_pos 32
  fails := Nat.two_pow_pos 32
  lastOk := Nat.two_pow_pos 64
  birthday := by rintro t ⟨⟩
  nip11At := Nat.two_pow_pos 64
  deadUntil := by rintro t ⟨⟩
  lastFail := Nat.two_pow_pos 64
  negCap := Nat.two_pow_pos 32

/-! ## The database -/

/-- Records under their keys. -/
abbrev StateDb := OrderedStore Char (List UInt8)

/-- The key of a relay. -/
def relayKey (url : List Char) : List Char := ['r', '|'] ++ url

def lastDiscoveryKey : List Char := "meta|last_discovery".toList

/-- The filters of a reset and of its preview. -/
structure DayFilter where
  relay : Option (List Char) := none
  start : Option (List Char) := none
  stop : Option (List Char) := none

/-- `from` and `to` are inclusive, and compared as texts. -/
def DayFilter.wants (f : DayFilter) (date url : List Char) : Bool :=
  f.relay.all (fun r => decide (r = url)) && f.start.all (fun d => decide (¬ date < d)) &&
    f.stop.all fun d => decide (¬ d < date)

/-- What a walk through the days passes on. -/
structure DayRow where
  key : List Char
  date : List Char
  url : List Char
  day : DayDone

/-- A row of the status page and of a preview. -/
structure DayEntry where
  date : List Char
  relay : List Char
  seen : ℕ
  new : ℕ
  doneAt : ℕ
deriving DecidableEq

def DayRow.entry (r : DayRow) : DayEntry where
  date := r.date
  relay := r.url
  seen := r.day.seen
  new := r.day.new
  doneAt := r.day.doneAt

namespace StateDb

/-- `put_relay`. -/
def putRelay (db : StateDb) (url : List Char) (info : RelayInfo) : StateDb :=
  db.put (relayKey url) (relayBytes info)

/-- `put_day`. -/
def putDay (db : StateDb) (date url : List Char) (done : DayDone) : StateDb :=
  db.put (dayKey date url) (dayBytes done)

/-- `day_done`. -/
def dayDone (db : StateDb) (date url : List Char) : Bool :=
  ((db.get (dayKey date url)).bind decodeDayDone).any fun d => decide (SYNC_EPOCH ≤ d.epoch)

/-- `relays`. -/
def relays (db : StateDb) : RelayTable :=
  (db.scan ['r', '|']).filterMap fun e => (decodeRelayInfo e.2).map fun info => (e.1.drop 2, info)

/-- `reset_relay`, where there is a record. -/
def resetRelay (db : StateDb) (url : List Char) : Option StateDb :=
  ((db.get (relayKey url)).bind decodeRelayInfo).map fun old =>
    db.putRelay url { sources := old.sources }

/-- `set_last_discovery`: eight bytes, the largest first. -/
def setLastDiscovery (db : StateDb) (unix : ℕ) : StateDb :=
  db.put lastDiscoveryKey (toLE unix 8).reverse

/-- `last_discovery`. -/
def lastDiscovery (db : StateDb) : Option ℕ :=
  ((db.get lastDiscoveryKey).filter fun v => decide (v.length = 8)).map fun v => ofLE v.reverse

/-- `for_each_day`. -/
def forEachDay (db : StateDb) (f : DayFilter) : List DayRow :=
  (db.scan ['d', '|']).filterMap fun e =>
    (splitOnce '|' (e.1.drop 2)).bind fun p =>
      if f.wants p.1 p.2 then
        (decodeDayDone e.2).map fun day => { key := e.1, date := p.1, url := p.2, day }
      else none

/-- `reset_days`: how many records are dropped, and what is left. -/
def resetDays (db : StateDb) (f : DayFilter) : ℕ × StateDb :=
  let keys := (db.forEachDay f).map DayRow.key
  (keys.length, keys.foldl OrderedStore.delete db)

/-- `days_matching`: how many there are, and the first of them, the newest date in front. -/
def daysMatching (db : StateDb) (f : DayFilter) (limit : ℕ) : ℕ × List DayEntry :=
  let rows := db.forEachDay f
  (rows.length,
    ((rows.take limit).map DayRow.entry).mergeSort fun a b => decide (¬ a.date < b.date))

/-- The state that a database is. -/
def toState (db : StateDb) : ScrapeState where
  days k := if ['d', '|'] <+: k then (db.get k).bind decodeDayDone else none
  relays url := (db.get (relayKey url)).bind decodeRelayInfo

end StateDb

/-! ## Keys -/

theorem prefix_dayKey (date url : List Char) : ['d', '|'] <+: dayKey date url :=
  ⟨date ++ ['|'] ++ url, by simp only [dayKey, List.append_assoc]⟩

theorem splitOnce_dayKey {date : List Char} (h : '|' ∉ date) (url : List Char) :
    splitOnce '|' ((dayKey date url).drop 2) = some (date, url) := by
  have hdrop : (dayKey date url).drop 2 = date ++ '|' :: url := by
    simp only [dayKey, List.append_assoc]
    rfl
  rw [hdrop, splitOnce_append h]

/-- A key of a day that splits is the key of what it splits into. -/
theorem dayKey_of_splitOnce {k date url : List Char} (hk : ['d', '|'] <+: k)
    (h : splitOnce '|' (k.drop 2) = some (date, url)) : k = dayKey date url ∧ '|' ∉ date := by
  obtain ⟨rest, rfl⟩ := hk
  obtain ⟨hrest, hbar⟩ := of_splitOnce h
  refine ⟨?_, hbar⟩
  rw [show rest = date ++ '|' :: url from hrest]
  simp only [dayKey, List.append_assoc]
  rfl

theorem relayKey_injective : Function.Injective relayKey := fun _ _ h => List.append_cancel_left h

theorem relayKey_not_day (url : List Char) : ¬ ['d', '|'] <+: relayKey url := by
  rintro ⟨rest, h⟩
  cases h

theorem ne_relayKey {k : List Char} (hk : ['d', '|'] <+: k) (url : List Char) : k ≠ relayKey url :=
  fun heq => relayKey_not_day url (by rwa [← heq])

theorem lastDiscoveryKey_ne_relayKey (url : List Char) : lastDiscoveryKey ≠ relayKey url := by
  intro h
  cases h

theorem lastDiscoveryKey_not_day : ¬ ['d', '|'] <+: lastDiscoveryKey := by
  rintro ⟨rest, h⟩
  cases h

theorem lastDiscoveryKey_ne_dayKey (date url : List Char) : lastDiscoveryKey ≠ dayKey date url := by
  intro h
  cases h

/-! ## What it implements -/

/-- The key is that of a day that a filter wants. -/
def DayFilter.takes (f : DayFilter) (k : List Char) : Bool :=
  (splitOnce '|' (k.drop 2)).any fun p => f.wants p.1 p.2

/-- The days that a filter wants are forgotten. -/
def ScrapeState.resetDays (st : ScrapeState) (f : DayFilter) : ScrapeState :=
  { st with days := fun k => if f.takes k then none else st.days k }

@[simp] theorem ScrapeState.putRelay_relays (st : ScrapeState) (url u : List Char)
    (info : RelayInfo) :
    (st.putRelay url info).relays u = Function.update st.relays url (some info) u := rfl

@[simp] theorem ScrapeState.putDay_days (st : ScrapeState) (date url k : List Char)
    (done : DayDone) :
    (st.putDay date url done).days k = Function.update st.days (dayKey date url) (some done) k :=
  rfl

@[simp] theorem ScrapeState.resetDays_days (st : ScrapeState) (f : DayFilter) (k : List Char) :
    (st.resetDays f).days k = if f.takes k then none else st.days k := rfl

theorem takes_dayKey {f : DayFilter} {date : List Char} (h : '|' ∉ date) (url : List Char) :
    f.takes (dayKey date url) = f.wants date url := by
  rw [DayFilter.takes, splitOnce_dayKey h, Option.any_some]

namespace StateDb

variable {db : StateDb} {url : List Char}

@[simp] theorem toState_relays : db.toState.relays url =
    (db.get (relayKey url)).bind decodeRelayInfo := rfl

theorem toState_days {k : List Char} (hk : ['d', '|'] <+: k) :
    db.toState.days k = (db.get k).bind decodeDayDone := if_pos hk

theorem toState_days_of_not {k : List Char} (hk : ¬ ['d', '|'] <+: k) :
    db.toState.days k = none := if_neg hk

theorem prefix_of_days {k : List Char} {day : DayDone} (h : db.toState.days k = some day) :
    ['d', '|'] <+: k := by
  by_contra hk
  rw [toState_days_of_not hk] at h
  cases h

/-- Two databases with the same records are the same state. -/
theorem toState_ext {db : StateDb} {st : ScrapeState}
    (hdays : ∀ k, ['d', '|'] <+: k → (db.get k).bind decodeDayDone = st.days k)
    (hnone : ∀ k, ¬ ['d', '|'] <+: k → st.days k = none)
    (hrelays : ∀ url, (db.get (relayKey url)).bind decodeRelayInfo = st.relays url) :
    db.toState = st := by
  have hd : db.toState.days = st.days := by
    funext k
    by_cases hk : ['d', '|'] <+: k
    · rw [toState_days hk, hdays k hk]
    · rw [toState_days_of_not hk, hnone k hk]
  have hr : db.toState.relays = st.relays := funext hrelays
  cases st
  rw [ScrapeState.mk.injEq]
  exact ⟨hd, hr⟩

theorem toState_dayDone (date url : List Char) :
    db.toState.dayDone date url = db.dayDone date url := by
  unfold ScrapeState.dayDone dayDone
  rw [toState_days (prefix_dayKey date url)]
  cases (db.get (dayKey date url)).bind decodeDayDone <;> rfl

theorem toState_putRelay (db : StateDb) (url : List Char) {info : RelayInfo} (h : Fits info) :
    (db.putRelay url info).toState = db.toState.putRelay url info := by
  refine toState_ext (fun k hk => ?_) (fun k hk => toState_days_of_not hk) fun u => ?_
  · rw [putRelay, OrderedStore.get_put_of_ne (ne_relayKey hk url)]
    exact (toState_days hk).symm
  · rw [ScrapeState.putRelay_relays, putRelay]
    by_cases hu : u = url
    · rw [hu, OrderedStore.get_put_self, Option.bind_some, Function.update_self]
      exact decode_relayBytes h.record
    · rw [OrderedStore.get_put_of_ne fun h => hu (relayKey_injective h),
        Function.update_of_ne hu]
      rfl

theorem toState_putDay (db : StateDb) (date url : List Char) (d : DayRecord) :
    (db.putDay date url d.day).toState = db.toState.putDay date url d.day := by
  refine toState_ext (fun k hk => ?_) (fun k hk => ?_) fun u => ?_
  · rw [ScrapeState.putDay_days, putDay]
    by_cases hkey : k = dayKey date url
    · rw [hkey, OrderedStore.get_put_self, Option.bind_some, decode_dayBytes,
        Function.update_self]
    · rw [OrderedStore.get_put_of_ne hkey, Function.update_of_ne hkey, toState_days hk]
  · have hkey : k ≠ dayKey date url := by
      rintro rfl
      exact hk (prefix_dayKey date url)
    rw [ScrapeState.putDay_days, Function.update_of_ne hkey, toState_days_of_not hk]
  · rw [putDay, OrderedStore.get_put_of_ne (ne_relayKey (prefix_dayKey date url) u).symm]
    rfl

theorem toState_resetRelay (db : StateDb) (url : List Char) :
    (db.resetRelay url).map toState = db.toState.resetRelay url := by
  rw [resetRelay, ScrapeState.resetRelay, Option.map_map, toState_relays]
  refine Option.map_congr fun old hold => ?_
  rw [Option.bind_eq_some_iff] at hold
  obtain ⟨v, -, hv⟩ := hold
  exact toState_putRelay db url (fits_default.withSources (fits_of_decode hv).sources)

theorem toState_setLastDiscovery (db : StateDb) (unix : ℕ) :
    (db.setLastDiscovery unix).toState = db.toState := by
  refine toState_ext (fun k hk => ?_) (fun k hk => toState_days_of_not hk) fun u => ?_
  · rw [setLastDiscovery, OrderedStore.get_put_of_ne, toState_days hk]
    rintro rfl
    exact lastDiscoveryKey_not_day hk
  · rw [setLastDiscovery, OrderedStore.get_put_of_ne (lastDiscoveryKey_ne_relayKey u).symm]
    rfl

/-- A walk passes on the days on record that the filter wants. -/
theorem mem_forEachDay {f : DayFilter} {row : DayRow} :
    row ∈ db.forEachDay f ↔ row.key = dayKey row.date row.url ∧ '|' ∉ row.date ∧
      f.wants row.date row.url = true ∧ db.toState.days row.key = some row.day := by
  rw [forEachDay, List.mem_filterMap]
  constructor
  · rintro ⟨e, he, h⟩
    obtain ⟨hmem, hk⟩ := OrderedStore.mem_scan.mp he
    rw [Option.bind_eq_some_iff] at h
    obtain ⟨p, hp, h⟩ := h
    rw [Option.ite_none_right_eq_some, Option.map_eq_some_iff] at h
    obtain ⟨hwants, day, hday, rfl⟩ := h
    obtain ⟨hkey, hbar⟩ := dayKey_of_splitOnce hk hp
    refine ⟨hkey, hbar, hwants, ?_⟩
    rw [toState_days hk, OrderedStore.get_eq_some.mpr hmem]
    exact hday
  · rintro ⟨hkey, hbar, hwants, hday⟩
    have hk := prefix_of_days hday
    rw [toState_days hk, Option.bind_eq_some_iff] at hday
    obtain ⟨v, hv, hday⟩ := hday
    refine ⟨(row.key, v), OrderedStore.mem_scan.mpr ⟨OrderedStore.get_eq_some.mp hv, hk⟩, ?_⟩
    rw [show splitOnce '|' (row.key.drop 2) = some (row.date, row.url) by
      rw [hkey, splitOnce_dayKey hbar], Option.bind_some, if_pos hwants, hday]
    rfl

theorem mem_keys {f : DayFilter} {k : List Char} :
    k ∈ (db.forEachDay f).map DayRow.key ↔ f.takes k = true ∧ (db.toState.days k).isSome := by
  rw [List.mem_map]
  constructor
  · rintro ⟨row, hrow, rfl⟩
    obtain ⟨hkey, hbar, hwants, hday⟩ := mem_forEachDay.mp hrow
    refine ⟨?_, by rw [hday]; rfl⟩
    rw [hkey, takes_dayKey hbar, hwants]
  · rintro ⟨htakes, hday⟩
    obtain ⟨day, hday⟩ := Option.isSome_iff_exists.mp hday
    rw [DayFilter.takes, Option.any_eq_true] at htakes
    obtain ⟨p, hp, hwants⟩ := htakes
    obtain ⟨hkey, hbar⟩ := dayKey_of_splitOnce (prefix_of_days hday) hp
    exact ⟨{ key := k, date := p.1, url := p.2, day },
      mem_forEachDay.mpr ⟨hkey, hbar, hwants, hday⟩, rfl⟩

theorem get_resetDays (db : StateDb) (f : DayFilter) (k : List Char) :
    (db.resetDays f).2.get k =
      if f.takes k = true ∧ (db.toState.days k).isSome then none else db.get k := by
  rw [resetDays, OrderedStore.get_deleteAll]
  exact if_congr mem_keys rfl rfl

theorem toState_resetDays (db : StateDb) (f : DayFilter) :
    (db.resetDays f).2.toState = db.toState.resetDays f := by
  refine toState_ext (fun k hk => ?_) (fun k hk => ?_) fun u => ?_
  · rw [ScrapeState.resetDays_days, get_resetDays]
    by_cases htakes : f.takes k = true
    · rw [if_pos htakes]
      cases hday : db.toState.days k with
      | some day => rw [if_pos ⟨htakes, rfl⟩, Option.bind_none]
      | none =>
        rw [if_neg fun h => Bool.false_ne_true h.2, ← toState_days hk, hday]
    · rw [if_neg fun h => htakes h.1, if_neg htakes, toState_days hk]
  · rw [ScrapeState.resetDays_days, toState_days_of_not hk, ite_self]
  · rw [get_resetDays, if_neg]
    · rfl
    · rw [toState_days_of_not (relayKey_not_day u)]
      exact fun h => Bool.false_ne_true h.2

theorem mem_relays {url : List Char} {info : RelayInfo} :
    (url, info) ∈ db.relays ↔ db.toState.relays url = some info := by
  rw [relays, List.mem_filterMap, toState_relays, Option.bind_eq_some_iff]
  constructor
  · rintro ⟨e, he, h⟩
    obtain ⟨hmem, rest, hk⟩ := OrderedStore.mem_scan.mp he
    rw [Option.map_eq_some_iff] at h
    obtain ⟨i, hi, heq⟩ := h
    obtain ⟨rfl, rfl⟩ := Prod.mk.inj heq
    refine ⟨e.2, OrderedStore.get_eq_some.mpr ?_, hi⟩
    rw [← hk, show relayKey ((['r', '|'] ++ rest).drop 2) = ['r', '|'] ++ rest from rfl, hk]
    exact hmem
  · rintro ⟨v, hv, hi⟩
    refine ⟨(relayKey url, v), OrderedStore.mem_scan.mpr
      ⟨OrderedStore.get_eq_some.mp hv, List.prefix_append _ url⟩, ?_⟩
    rw [hi]
    rfl

/-- The relays come in the order of their URLs, each of them once. -/
theorem sorted_relays (db : StateDb) : (db.relays.map Prod.fst).Pairwise (· < ·) := by
  rw [relays, List.pairwise_map, List.pairwise_filterMap]
  refine (OrderedStore.sorted_scan db ['r', '|']).imp_of_mem fun {a b} ha hb hlt => ?_
  obtain ⟨-, x, hx⟩ := OrderedStore.mem_scan.mp ha
  obtain ⟨-, y, hy⟩ := OrderedStore.mem_scan.mp hb
  intro p hp q hq
  rw [Option.map_eq_some_iff] at hp hq
  obtain ⟨_, -, rfl⟩ := hp
  obtain ⟨_, -, rfl⟩ := hq
  rw [← hx, ← hy] at hlt ⊢
  by_contra hle
  exact absurd hlt (not_lt.mpr (List.cons_le_cons _ (List.cons_le_cons _ (not_lt.mp hle))))

end StateDb

/-! ## Runs -/

/-- What is written. -/
inductive DbAct
  | putRelay (url : List Char) (info : RelayInfo) (h : Fits info)
  | putDay (date url : List Char) (d : DayRecord)
  | resetRelay (url : List Char)
  | resetDays (f : DayFilter)
  | discovered (unix : UInt64)

def DbAct.onDb (db : StateDb) : DbAct → StateDb
  | putRelay url info _ => db.putRelay url info
  | putDay date url d => db.putDay date url d.day
  | resetRelay url => (db.resetRelay url).getD db
  | resetDays f => (db.resetDays f).2
  | discovered unix => db.setLastDiscovery unix.toNat

/-- The state, and when discovery last completed. -/
def DbAct.onState (s : ScrapeState × Option ℕ) : DbAct → ScrapeState × Option ℕ
  | putRelay url info _ => (s.1.putRelay url info, s.2)
  | putDay date url d => (s.1.putDay date url d.day, s.2)
  | resetRelay url => ((s.1.resetRelay url).getD s.1, s.2)
  | resetDays f => (s.1.resetDays f, s.2)
  | discovered unix => (s.1, some unix.toNat)

namespace StateDb

variable (db : StateDb)

theorem lastDiscovery_put_of_ne {k : List Char} (h : lastDiscoveryKey ≠ k) (v : List UInt8) :
    lastDiscovery (db.put k v) = db.lastDiscovery := by
  rw [lastDiscovery, OrderedStore.get_put_of_ne h, lastDiscovery]

theorem lastDiscovery_set (unix : UInt64) :
    (db.setLastDiscovery unix.toNat).lastDiscovery = some unix.toNat := by
  rw [lastDiscovery, setLastDiscovery, OrderedStore.get_put_self, Option.filter_some,
    List.length_reverse, length_toLE, if_pos (decide_eq_true rfl), Option.map_some,
    List.reverse_reverse, ofLE_toLE, Nat.mod_eq_of_lt (unix.toNat_lt.trans_eq (by norm_num))]

theorem lastDiscovery_resetRelay (url : List Char) :
    ((db.resetRelay url).getD db).lastDiscovery = db.lastDiscovery := by
  rw [resetRelay]
  cases (db.get (relayKey url)).bind decodeRelayInfo with
  | none => rfl
  | some old => exact lastDiscovery_put_of_ne db (lastDiscoveryKey_ne_relayKey url) _

theorem lastDiscovery_resetDays (f : DayFilter) :
    (db.resetDays f).2.lastDiscovery = db.lastDiscovery := by
  rw [lastDiscovery, get_resetDays, if_neg, lastDiscovery]
  rw [toState_days_of_not lastDiscoveryKey_not_day]
  exact fun h => Bool.false_ne_true h.2

/-- One write to the database is one to the state. -/
theorem refines_step (a : DbAct) :
    ((a.onDb db).toState, (a.onDb db).lastDiscovery) =
      a.onState (db.toState, db.lastDiscovery) := by
  cases a with
  | putRelay url info h =>
    exact Prod.ext (toState_putRelay db url h)
      (lastDiscovery_put_of_ne db (lastDiscoveryKey_ne_relayKey url) _)
  | putDay date url d =>
    exact Prod.ext (toState_putDay db date url d)
      (lastDiscovery_put_of_ne db (lastDiscoveryKey_ne_dayKey date url) _)
  | resetRelay url =>
    refine Prod.ext ?_ (lastDiscovery_resetRelay db url)
    rw [DbAct.onState, ← toState_resetRelay]
    cases h : db.resetRelay url with
    | none => rw [DbAct.onDb, h, Option.map_none, Option.getD_none, Option.getD_none]
    | some db' => rw [DbAct.onDb, h, Option.map_some, Option.getD_some, Option.getD_some]
  | resetDays f => exact Prod.ext (toState_resetDays db f) (lastDiscovery_resetDays db f)
  | discovered unix =>
    exact Prod.ext (toState_setLastDiscovery db unix.toNat) (lastDiscovery_set db unix)

theorem refines_foldl (acts : List DbAct) :
    ((acts.foldl DbAct.onDb db).toState, (acts.foldl DbAct.onDb db).lastDiscovery) =
      acts.foldl DbAct.onState (db.toState, db.lastDiscovery) := by
  induction acts generalizing db with
  | nil => rfl
  | cons a acts ih => rw [List.foldl_cons, List.foldl_cons, ih, refines_step]

/-- **The database implements the state.** Whatever it held when it was opened, and whatever has
been written since, in any order: what it answers is what the state answers. -/
theorem refines_runs (acts : List DbAct) :
    let db' := acts.foldl DbAct.onDb db
    let s := acts.foldl DbAct.onState (db.toState, db.lastDiscovery)
    db'.toState = s.1 ∧ db'.lastDiscovery = s.2 ∧
      (∀ date url, db'.dayDone date url = s.1.dayDone date url) ∧
      (∀ url, (db'.resetRelay url).map toState = s.1.resetRelay url) ∧
      (∀ url info, (url, info) ∈ db'.relays ↔ s.1.relays url = some info) ∧
      (db'.relays.map Prod.fst).Pairwise (· < ·) := by
  intro db' s
  obtain ⟨hstate, hlast⟩ := Prod.mk.inj (show (db'.toState, db'.lastDiscovery) = (s.1, s.2) from
    refines_foldl db acts)
  rw [← hstate]
  exact ⟨rfl, hlast, fun date url => (toState_dayDone date url).symm,
    fun url => toState_resetRelay db' url, fun url info => mem_relays, sorted_relays db'⟩

end StateDb

/-! ## Resets -/

namespace StateDb

variable (db : StateDb) (f : DayFilter)

theorem sorted_forEachDay : (db.forEachDay f).Pairwise fun a b => a.key < b.key := by
  rw [forEachDay, List.pairwise_filterMap]
  refine (OrderedStore.sorted_scan db ['d', '|']).imp fun {a b} hlt p hp q hq => ?_
  -- a row has the key of its entry
  have hkey : ∀ {e : List Char × List UInt8} {row : DayRow},
      ((splitOnce '|' (e.1.drop 2)).bind fun p =>
        if f.wants p.1 p.2 then
          (decodeDayDone e.2).map fun day => { key := e.1, date := p.1, url := p.2, day }
        else none) = some row → row.key = e.1 := by
    intro e row h
    obtain ⟨p, -, h⟩ := Option.bind_eq_some_iff.mp h
    rw [Option.ite_none_right_eq_some, Option.map_eq_some_iff] at h
    obtain ⟨-, day, -, rfl⟩ := h
    rfl
  rw [hkey hp, hkey hq]
  exact hlt

/-- Each day that is wanted has a record of its own. -/
theorem nodup_days : ((db.forEachDay f).map fun row => (row.date, row.url)).Nodup := by
  rw [List.Nodup, List.pairwise_map]
  refine (sorted_forEachDay db f).imp_of_mem fun {a b} ha hb hlt heq => ?_
  obtain ⟨hdate, hurl⟩ := Prod.mk.inj heq
  rw [(mem_forEachDay.mp ha).1, (mem_forEachDay.mp hb).1, hdate, hurl] at hlt
  exact lt_irrefl _ hlt

theorem dayDone_reset {date : List Char} (hbar : '|' ∉ date) (url : List Char) :
    (db.resetDays f).2.dayDone date url = (db.dayDone date url && !f.wants date url) := by
  rw [← toState_dayDone, toState_resetDays, ← toState_dayDone, ScrapeState.dayDone,
    ScrapeState.resetDays_days, takes_dayKey hbar]
  cases f.wants date url with
  | true => rw [if_pos rfl, Bool.not_true, Bool.and_false]
  | false => rw [if_neg Bool.false_ne_true, Bool.not_false, Bool.and_true, ScrapeState.dayDone]

end StateDb

/-- A range of dates, and the relay whose days are meant. -/
def between (url : List Char) (a b : ℤ) : DayFilter where
  relay := some url
  start := some (dateText a)
  stop := some (dateText b)

/-- Bounds that are compared as texts are bounds on the days, while years have four digits. -/
theorem wants_between {a b d : ℤ} (ha : FourDigitYear a) (hb : FourDigitYear b)
    (hd : FourDigitYear d) (url u : List Char) :
    (between url a b).wants (dateText d) u = decide (url = u ∧ a ≤ d ∧ d ≤ b) := by
  rw [Bool.eq_iff_iff, decide_eq_true_eq]
  simp only [between, DayFilter.wants, Option.all_some, Bool.and_eq_true, decide_eq_true_eq,
    not_lt, and_assoc, dateText_le_iff ha hd, dateText_le_iff hd hb]

/-- **A reset by date** reopens the days of the relay from the first to the last, and no other. -/
theorem reset_between (db : StateDb) {a b d : ℤ} (ha : FourDigitYear a) (hb : FourDigitYear b)
    (hd : FourDigitYear d) (url u : List Char) :
    (db.resetDays (between url a b)).2.dayDone (dateText d) u =
      (db.dayDone (dateText d) u && !decide (url = u ∧ a ≤ d ∧ d ≤ b)) := by
  rw [StateDb.dayDone_reset db (between url a b) (bar_notMem_dateText d) u, wants_between ha hb hd]

private def doneDay : DayRecord where
  day := { seen := 10, new := 3, doneAt := 1700000000, epoch := SYNC_EPOCH }
  seen := by decide
  new := by decide
  doneAt := by decide
  epoch := by decide

/-- The 14th of November 2023, reset with the first half of that month. -/
theorem reset_november :
    ((StateDb.putDay .empty (dateText 19675) "wss://r".toList doneDay.day).resetDays
      (between "wss://r".toList 19662 19676)).2.dayDone (dateText 19675) "wss://r".toList =
      false := by
  have hyear : ∀ d ∈ [19662, 19675, 19676], FourDigitYear d :=
    fun d hd => ⟨by revert d; decide, by revert d; decide⟩
  rw [reset_between _ (hyear 19662 (by decide)) (hyear 19676 (by decide))
    (hyear 19675 (by decide)) "wss://r".toList "wss://r".toList]
  exact Bool.and_false _

end NostrSearch.Indexer
