import NostrSearch.Stats.ActivityTotals
import NostrSearch.Stats.BuiltIns

/-!
# Overflow in an analysis

The `observe` of each analysis with overflow checks on, and when it does not panic. The starts of
the hour, the day, the week and the month of a timestamp are there for every timestamp, and so are
the rank of a hash and the change of a follower count. What can overflow is the end of the window
of `trending_hashtags`, and a count.
-/

namespace NostrSearch.Stats

open NostrSearch.Core NostrSearch.Lib

/-- `a + b`, of words of 32 bits. -/
def add32 (a b : ℕ) : Res ℕ := if a + b < 2 ^ 32 then .ok (a + b) else .error .panic

/-- `a + b`, of signed words of 64 bits. -/
def addI64 (a b : ℤ) : Res ℤ :=
  if -2 ^ 63 ≤ a + b ∧ a + b < 2 ^ 63 then .ok (a + b) else .error .panic

theorem checks_addI64 (a b : ℤ) :
    Checks (addI64 a b) (-2 ^ 63 ≤ a + b ∧ a + b < 2 ^ 63) (wrapI64 (a + b)) := by
  constructor
  · intro h
    rw [addI64, if_pos h, wrapI64_eq h.1 h.2]
  · intro h
    exact if_neg h

/-! ## Buckets of time -/

/-- `ts - (ts % len)`, with checks on. -/
def startC (len ts : ℕ) : Res ℕ := Res.sub ts (ts % len)

def dayStartC (ts : ℕ) : Res ℕ := startC DAY ts

def weekStartC (ts : ℕ) : Res ℕ := startC WEEK ts

/-- `monthStart`, with checks on. The day is there in either case. -/
def monthStartC (ts : ℕ) : Res ℕ := do
  let day ← dayStartC ts
  match ShardId.ofTimestampOpt (asI64 ts) with
  | none => return day
  | some id => return ((id.firstDay * 86400) % 2 ^ 64).toNat

theorem startC_eq (len ts : ℕ) : startC len ts = .ok (ts - ts % len) :=
  Res.sub_eq (Nat.mod_le ts len)

theorem dayStartC_eq (ts : ℕ) : dayStartC ts = .ok (dayStart ts) := startC_eq DAY ts

theorem weekStartC_eq (ts : ℕ) : weekStartC ts = .ok (weekStart ts) := startC_eq WEEK ts

theorem monthStartC_eq (ts : ℕ) : monthStartC ts = .ok (monthStart ts) := by
  rw [monthStartC, dayStartC_eq]
  unfold monthStart
  cases ShardId.ofTimestampOpt (asI64 ts) <;> rfl

/-! ## Sketches -/

namespace Hll

/-- `rank`, with checks on. -/
def rankC (h : UInt64) : Res UInt8 := do
  let rest := h <<< 14
  if rest = 0 then
    let rank ← add32 (64 - PRECISION) 1
    return UInt8.ofNat rank
  else
    let rank ← add32 (leadingZeros rest) 1
    return UInt8.ofNat rank

/-- `insert`, with checks on, and whether it changes the sketch. -/
def insertC (s : Hll) (key : Hash32) : Res (Hll × Bool) := do
  let rank ← rankC (hash key)
  if s.registers.get (idx (hash key)) < rank then
    return ({ registers := s.registers.set (idx (hash key)).val rank (idx_lt key) }, true)
  else return (s, false)

theorem rankC_eq (h : UInt64) : rankC h = .ok (rank h) := by
  have hzeros : leadingZeros (h <<< 14) ≤ 64 := Nat.sub_le _ _
  unfold rankC rank
  dsimp only
  split
  · rfl
  · rw [add32, if_pos (by omega)]
    rfl

theorem insertC_eq (s : Hll) (key : Hash32) :
    s.insertC key = .ok (s.insert key, s.changes key) := by
  unfold insertC insert
  rw [rankC_eq, Res.bind_ok rfl]
  cases hchanges : s.changes key with
  | true =>
    unfold changes at hchanges
    rw [if_pos (of_decide_eq_true hchanges), if_pos rfl]
    rfl
  | false =>
    unfold changes at hchanges
    rw [if_neg (of_decide_eq_false hchanges), if_neg Bool.false_ne_true]
    rfl

end Hll

/-! ## Without a panic -/

namespace ActiveUsers

def insertAtC (sketches : Sketches) (start : ℕ) (pk : Pubkey) : Res (Sketches × Bool) := do
  let sketch ← ((sketches.lookup start).getD Hll.default).insertC pk
  return (sketches.insert start sketch.1, sketch.2)

/-- `observe`, with checks on. -/
def observeC (ev : NostrEvent) (ctx : AnalysisCtx) (s : ActiveUsers) :
    Res (ActiveUsers × Bool) := do
  if ev.usesThrowawayKey then return (s, false)
  else
    let day ← dayStartC ev.createdAt
    let week ← weekStartC ev.createdAt
    let month ← monthStartC ev.createdAt
    let freshDay ← insertAtC s.daily day ctx.author
    let freshWeek ← insertAtC s.weekly week ctx.author
    let freshMonth ← insertAtC s.monthly month ctx.author
    let trusted := ctx.authorTrusted
    let trustDay ←
      if trusted then insertAtC s.dailyTrusted day ctx.author else .ok (s.dailyTrusted, false)
    let trustWeek ←
      if trusted then insertAtC s.weeklyTrusted week ctx.author else .ok (s.weeklyTrusted, false)
    let trustMonth ←
      if trusted then insertAtC s.monthlyTrusted month ctx.author
      else .ok (s.monthlyTrusted, false)
    return ({ daily := freshDay.1
              dailyTrusted := trustDay.1
              weekly := freshWeek.1
              weeklyTrusted := trustWeek.1
              monthly := freshMonth.1
              monthlyTrusted := trustMonth.1
              dirtyDaily :=
                if freshDay.2 || trustDay.2 then insert day s.dirtyDaily else s.dirtyDaily
              dirtyWeekly :=
                if freshWeek.2 || trustWeek.2 then insert week s.dirtyWeekly else s.dirtyWeekly
              dirtyMonthly :=
                if freshMonth.2 || trustMonth.2 then insert month s.dirtyMonthly
                else s.dirtyMonthly },
      freshDay.2 || freshWeek.2 || freshMonth.2)

theorem insertAtC_eq (sketches : Sketches) (start : ℕ) (pk : Pubkey) :
    insertAtC sketches start pk = .ok (insertAt sketches start pk) := by
  rw [insertAtC, Hll.insertC_eq]
  rfl

theorem observeC_eq (ev : NostrEvent) (ctx : AnalysisCtx) (s : ActiveUsers) :
    observeC ev ctx s = .ok (observe ev ctx s) := by
  unfold observeC observe
  simp only [dayStartC_eq, weekStartC_eq, monthStartC_eq, insertAtC_eq]
  split
  · rfl
  · cases ctx.authorTrusted <;> rfl

end ActiveUsers

namespace FollowGraph

/-- `(c as i64 + delta).max(0) as u32`, with checks on. -/
def bumpC (delta : ℤ) (c : ℕ) : Res ℕ := do
  let moved ← addI64 (c % 2 ^ 32 : ℕ) delta
  return (max moved 0).toNat % 2 ^ 32

def applyDeltaC (s : FollowGraph) (followed : List Pubkey) (delta : ℤ) : Res FollowGraph :=
  followed.foldlM (fun s p => do
    let c ← bumpC delta (s.count p)
    return s.setCount p c) s

/-- `observe`, with checks on. -/
def observeC (ev : NostrEvent) (graph : GraphStore) (s : FollowGraph) :
    Res (FollowGraph × GraphStore × Bool) :=
  match Hash32.fromHex ev.pubkey with
  | none => return (s, graph, false)
  | some author => do
    if s.attached then
      if newer graph author ev then
        let s ←
          match graph.get author with
          | some old => s.applyDeltaC old.follows (-1)
          | none => .ok s
        let s ← s.applyDeltaC (newFollows ev) 1
        return (s, graph.put author ev.createdAt (newFollows ev), true)
      else return (s, graph, false)
    else return (s, graph, false)

theorem bumpC_eq {delta : ℤ} (hdelta : delta = -1 ∨ delta = 1) (c : ℕ) :
    bumpC delta c = .ok (bump delta (c % 2 ^ 32)) := by
  rw [bumpC, addI64, if_pos (by omega)]
  rfl

theorem applyDeltaC_eq {delta : ℤ} (hdelta : delta = -1 ∨ delta = 1) (s : FollowGraph)
    (followed : List Pubkey) :
    s.applyDeltaC followed delta = .ok (s.applyDeltaWord followed delta) := by
  induction followed generalizing s with
  | nil => rfl
  | cons p followed ih =>
    rw [applyDeltaC, List.foldlM_cons, bumpC_eq hdelta]
    exact ih (s.setCount p (bump delta (s.count p % 2 ^ 32)))

theorem observeC_eq (ev : NostrEvent) (graph : GraphStore) (s : FollowGraph) :
    observeC ev graph s = .ok (observeWord ev graph s) := by
  unfold observeC observeWord
  simp only [applyDeltaC_eq (Or.inl rfl), applyDeltaC_eq (Or.inr rfl)]
  cases Hash32.fromHex ev.pubkey with
  | none => rfl
  | some author =>
    dsimp only
    split
    · split
      · cases graph.get author <;> rfl
      · rfl
    · rfl

end FollowGraph

namespace Relays

variable (p : RelayParsers) (ev : NostrEvent) (ctx : AnalysisCtx)

/-- `advertise`, with checks on. -/
def advertiseC (e : RelayStats) : Res RelayStats := do
  let hll ← e.hll.insertC ctx.author
  return { advertisers := p.len hll.1, lastSeen := max e.lastSeen ev.createdAt, hll := hll.1 }

def observeTagC (acc : Relays × Bool) (raw : String) : Res (Relays × Bool) :=
  match (normalizeRelayUrl p.toLowercase p.isIp raw.toList).map String.ofList with
  | none => return acc
  | some url => do
    if acc.1.isFull url then return acc
    else
      let data ← atEntryC acc.1.data url RelayStats.default (advertiseC p ev ctx)
      return ({ data := data }, true)

/-- `observe`, with checks on. -/
def observeC (s : Relays) : Res (Relays × Bool) :=
  (advertised ev).foldlM (observeTagC p ev ctx) (s, false)

theorem observeTagC_eq (acc : Relays × Bool) (raw : String) :
    observeTagC p ev ctx acc raw = .ok (observeTag p ev ctx acc raw) := by
  unfold observeTagC observeTag
  cases (normalizeRelayUrl p.toLowercase p.isIp raw.toList).map String.ofList with
  | none => rfl
  | some url =>
    dsimp only
    split
    · rfl
    · unfold atEntryC advertiseC
      rw [Hll.insertC_eq]
      rfl

theorem observeC_eq (s : Relays) : observeC p ev ctx s = .ok (observe p ev ctx s) := by
  have hloop : ∀ (tags : List String) (acc : Relays × Bool),
      tags.foldlM (observeTagC p ev ctx) acc = .ok (tags.foldl (observeTag p ev ctx) acc) := by
    intro tags
    induction tags with
    | nil => exact fun acc => rfl
    | cons raw tags ih =>
      intro acc
      rw [List.foldlM_cons, observeTagC_eq]
      exact ih _
  exact hloop _ _

end Relays

/-! ## Counts -/

namespace Activity

/-- `observe`, with checks on for the start of the day as well. -/
def observeDayC (z : ZapParsers) (ev : NostrEvent) (ctx : AnalysisCtx) (s : Activity) :
    Res (Activity × Bool) := do
  let day ← dayStartC ev.createdAt
  let days ← atEntryC s.days day DailyActivity.default (addEventC z ev ctx)
  return ({ days := days, dirty := insert day s.dirty }, true)

/-- What the event adds fits the bucket of its day. -/
def HasRoom (z : ZapParsers) (ev : NostrEvent) (ctx : AnalysisCtx) (s : Activity) : Prop :=
  ∀ y ∈ additions z ev ctx, (s.bucket (dayStart ev.createdAt)).cell y.1 + y.2 < 2 ^ 64

theorem checks_observeDay (z : ZapParsers) (ev : NostrEvent) (ctx : AnalysisCtx) (s : Activity) :
    Checks (observeDayC z ev ctx s) (s.HasRoom z ev ctx) (observe z ev ctx s) := by
  rw [observeDayC, dayStartC_eq]
  exact checks_observe z ev ctx s

end Activity

namespace KindBreakdown

/-- `observe`, with checks on. -/
def observeC (ev : NostrEvent) (ctx : AnalysisCtx) (s : KindBreakdown) :
    Res (KindBreakdown × Bool) := do
  if s.allows ctx then
    let counts ← atEntryC s.counts ev.kind {} fun c => c.incrC ctx.authorTrusted 1
    return ({ s with counts := counts }, true)
  else return (s, false)

/-- There is room for one more event of the kind. -/
def HasRoom (ev : NostrEvent) (ctx : AnalysisCtx) (s : KindBreakdown) : Prop :=
  s.allows ctx = true → (s.count ev.kind).side ctx.authorTrusted + 1 < 2 ^ 64

theorem checks_observe (ev : NostrEvent) (ctx : AnalysisCtx) (s : KindBreakdown) :
    Checks (observeC ev ctx s) (s.HasRoom ev ctx) (observe ev ctx s) := by
  unfold observeC HasRoom observe
  by_cases hallows : s.allows ctx = true
  · rw [if_pos hallows, if_pos hallows]
    have hcounts := checks_atEntry (fun c => c.checks_incr ctx.authorTrusted 1) s.counts ev.kind {}
    exact (hcounts.last fun counts => ({ s with counts := counts }, true)).iff
      ⟨fun h _ => h, fun h => h hallows⟩
  · rw [if_neg hallows, if_neg hallows]
    exact (Checks.pure _).iff (iff_of_true trivial fun h => absurd h hallows)

end KindBreakdown

namespace ClientStats

/-- `addEvent`, with checks on. -/
def addEventC (ev : NostrEvent) (b : ClientStats) : Res ClientStats := do
  let sum ← Res.add b.sum 1
  let kinds ← atEntryC b.kinds ev.kind 0 fun n => Res.add n 1
  return { sum := sum, lastNote := max b.lastNote ev.createdAt, kinds := kinds }

/-- There is room for one more event, and for one of its kind. -/
def HasRoom (ev : NostrEvent) (b : ClientStats) : Prop :=
  b.sum + 1 < 2 ^ 64 ∧ (b.kinds.lookup ev.kind).getD 0 + 1 < 2 ^ 64

theorem checks_addEvent (ev : NostrEvent) (b : ClientStats) :
    Checks (b.addEventC ev) (b.HasRoom ev) (b.addEvent ev) := by
  have hkinds := checks_atEntry (fun n => checks_add n 1) b.kinds ev.kind 0
  exact (checks_add b.sum 1).bind
    (hkinds.last fun kinds => ({ b.addEvent ev with kinds := kinds } : ClientStats))

end ClientStats

namespace Clients

variable (lower : List Char → List Char)

/-- The bucket an event is counted in. -/
def keyOf (ev : NostrEvent) (s : Clients) : String :=
  s.keyFor
    (match (ev.tagValues "client").head?.map (normalize lower) with
    | some c => if c.isEmpty then NO_CLIENT else c
    | none => NO_CLIENT)

/-- `observe`, with checks on. -/
def observeC (ev : NostrEvent) (s : Clients) : Res (Clients × Bool) := do
  let key := keyOf lower ev s
  let data ← atEntryC s.data key ClientStats.default fun b => b.addEventC ev
  return ({ data := data, dirty := insert key s.dirty }, true)

def HasRoom (ev : NostrEvent) (s : Clients) : Prop :=
  ((s.data.lookup (keyOf lower ev s)).getD ClientStats.default).HasRoom ev

theorem checks_observe (ev : NostrEvent) (s : Clients) :
    Checks (observeC lower ev s) (s.HasRoom lower ev) (observe lower ev s) := by
  have hdata := checks_atEntry (ClientStats.checks_addEvent ev) s.data (keyOf lower ev s)
    ClientStats.default
  exact hdata.last fun data =>
    (({ data := data, dirty := insert (keyOf lower ev s) s.dirty } : Clients), true)

end Clients

namespace NewUsers

/-- One turn of the loop of `shift`, with checks on. -/
def shiftSlotC (map : Finmap fun _ : ℕ => ℕ) (key : ℕ) (delta : ℤ) :
    Res (Finmap fun _ : ℕ => ℕ) := do
  let moved ← addI64 (asI64 (slotAt map key)) delta
  return moveSlot map key (max moved 0).toNat

/-- `shift`, with checks on. -/
def shiftC (s : NewUsers) (ts : ℕ) (delta : ℤ) : Res NewUsers := do
  let day ← dayStartC ts
  let month ← monthStartC ts
  let daily ← shiftSlotC s.daily day delta
  let monthly ← shiftSlotC s.monthly month delta
  return { s with
    daily := daily
    dirtyDaily := insert day s.dirtyDaily
    monthly := monthly
    dirtyMonthly := insert month s.dirtyMonthly }

/-- `observe`, with checks on. -/
def observeC (ev : NostrEvent) (ctx : AnalysisCtx) (store : FirstSeen) (s : NewUsers) :
    Res (NewUsers × FirstSeen × Bool) := do
  if ev.usesThrowawayKey then return (s, store, false)
  else if s.attached then
    let ts := ev.createdAt
    match store.get ctx.author with
    | some prev =>
      if prev ≤ ts then return (s, store, false)
      else
        let s ← s.shiftC prev (-1)
        let s ← s.shiftC ts 1
        return (s, store.put ctx.author ts, true)
    | none =>
      let s ← s.shiftC ts 1
      return (s, store.put ctx.author ts, true)
  else return (s, store, false)

/-- A count, read as a signed number, can be changed. -/
def SlotFits (slot : ℕ) (delta : ℤ) : Prop :=
  -2 ^ 63 ≤ asI64 slot + delta ∧ asI64 slot + delta < 2 ^ 63

/-- The counts of the day and the month can be changed. -/
def ShiftFits (s : NewUsers) (ts : ℕ) (delta : ℤ) : Prop :=
  SlotFits (slotAt s.daily (dayStart ts)) delta ∧
    SlotFits (slotAt s.monthly (monthStart ts)) delta

/-- What `observe` changes, it can. -/
def HasRoom (ev : NostrEvent) (ctx : AnalysisCtx) (store : FirstSeen) (s : NewUsers) : Prop :=
  ev.usesThrowawayKey = false → s.attached = true →
    match store.get ctx.author with
    | some prev =>
      ev.createdAt < prev →
        s.ShiftFits prev (-1) ∧ (s.shiftWord prev (-1)).ShiftFits ev.createdAt 1
    | none => s.ShiftFits ev.createdAt 1

/-- Of the counts below `2 ^ 64` one is too large to be added to. -/
theorem slotFits_one {slot : ℕ} (h : slot < 2 ^ 64) : SlotFits slot 1 ↔ slot ≠ 2 ^ 63 - 1 := by
  unfold SlotFits asI64
  split <;> omega

theorem checks_shiftSlot (map : Finmap fun _ : ℕ => ℕ) (key : ℕ) (delta : ℤ) :
    Checks (shiftSlotC map key delta) (SlotFits (slotAt map key) delta)
      (moveSlot map key (slotWord (slotAt map key) delta)) :=
  (checks_addI64 _ _).last fun moved : ℤ => moveSlot map key (max moved 0).toNat

theorem checks_shift (s : NewUsers) (ts : ℕ) (delta : ℤ) :
    Checks (s.shiftC ts delta) (s.ShiftFits ts delta) (s.shiftWord ts delta) := by
  rw [shiftC, dayStartC_eq, Res.bind_ok rfl, monthStartC_eq, Res.bind_ok rfl]
  have hmonthly := (checks_shiftSlot s.monthly (monthStart ts) delta).last fun monthly =>
    ({ s.shiftWord ts delta with monthly := monthly } : NewUsers)
  exact (checks_shiftSlot s.daily (dayStart ts) delta).bind hmonthly

theorem checks_observe (ev : NostrEvent) (ctx : AnalysisCtx) (store : FirstSeen) (s : NewUsers) :
    Checks (observeC ev ctx store s) (s.HasRoom ev ctx store) (observeWord ev ctx store s) := by
  unfold observeC HasRoom observeWord
  cases ev.usesThrowawayKey with
  | true => exact (Checks.pure _).iff (iff_of_true trivial nofun)
  | false =>
    cases s.attached with
    | false => exact (Checks.pure _).iff (iff_of_true trivial nofun)
    | true =>
      simp only [Bool.false_eq_true, if_false, if_true, forall_const]
      cases store.get ctx.author with
      | none =>
        exact (checks_shift s _ 1).last fun s => (s, store.put ctx.author ev.createdAt, true)
      | some prev =>
        dsimp only
        by_cases hle : prev ≤ ev.createdAt
        · rw [if_pos hle, if_pos hle]
          exact (Checks.pure _).iff (iff_of_true trivial fun hlt => absurd hle (not_le.mpr hlt))
        · rw [if_neg hle, if_neg hle]
          have hthen := (checks_shift (s.shiftWord prev (-1)) ev.createdAt 1).last fun s =>
            (s, store.put ctx.author ev.createdAt, true)
          exact ((checks_shift s prev (-1)).bind hthen).iff
            ⟨fun h _ => h, fun h => h (not_le.mp hle)⟩

end NewUsers

namespace HourBucket

variable {F : Type} (fl : Scores F) (weight : F) (author : Pubkey)

/-- One turn of the loop over the tags of an event, with checks on. -/
def noteC (acc : HourBucket F × Bool) (tag : String) : Res (HourBucket F × Bool) := do
  if (tag, author) ∈ acc.1.seen then return acc
  else
    let mentions ← atEntryC acc.1.mentions tag 0 fun n => Res.add n 1
    return ({ weight := atEntry acc.1.weight tag fl.zero fun w => fl.add w weight
              mentions := mentions
              seen := insert (tag, author) acc.1.seen }, true)

/-- A tag the author was not seen with can be counted. -/
def NoteFits (acc : HourBucket F × Bool) (tag : String) : Prop :=
  (tag, author) ∉ acc.1.seen → acc.1.count tag + 1 < 2 ^ 64

theorem checks_note (acc : HourBucket F × Bool) (tag : String) :
    Checks (noteC fl weight author acc tag) (NoteFits author acc tag)
      (note fl weight author acc tag) := by
  unfold noteC note NoteFits
  by_cases hseen : (tag, author) ∈ acc.1.seen
  · rw [if_pos hseen, if_pos hseen]
    exact (Checks.pure acc).iff (iff_of_true trivial fun h => absurd hseen h)
  · rw [if_neg hseen, if_neg hseen]
    have hmentions := checks_atEntry (fun n => checks_add_exact n 1) acc.1.mentions tag 0
    exact (hmentions.last fun mentions =>
      (({ (note fl weight author acc tag).1 with
          weight := atEntry acc.1.weight tag fl.zero fun w => fl.add w weight
          mentions := mentions
          seen := insert (tag, author) acc.1.seen } : HourBucket F), true)).iff
      ⟨fun h _ => h, fun h => h hseen⟩

/-- A tag does not change what another needs. -/
theorem noteFits_note (acc : HourBucket F × Bool) {tag tag' : String} (h : tag' ≠ tag) :
    NoteFits author (note fl weight author acc tag') tag ↔ NoteFits author acc tag := by
  unfold NoteFits note count
  by_cases hseen : (tag', author) ∈ acc.1.seen
  · rw [if_pos hseen]
  · rw [if_neg hseen]
    simp only [Finset.mem_insert, Prod.mk.injEq, h.symm, false_and, false_or,
      lookup_atEntry_of_ne h.symm]

end HourBucket

namespace TrendingHashtags

variable {F : Type} (lower : List Char → List Char) (fl : Scores F) (ev : NostrEvent)
  (ctx : AnalysisCtx)

/-- `floor`, with checks on. -/
def floorC (now : ℕ) : Res ℕ := Res.mul (now / HOUR - WINDOW_HOURS) HOUR

/-- Whether an event is in the window, with checks on. The end of the window is not needed for an
event from before its start. -/
def acceptsC (now : ℕ) : Res Bool := do
  let start ← floorC now
  if ev.createdAt < start then return false
  else
    let stop ← Res.add now HOUR
    return decide (¬ stop < ev.createdAt)

def hourOfC : Res ℕ := startC HOUR ev.createdAt

/-- `noteTags`, with checks on. -/
def noteTagsC (b : HourBucket F) : Res (HourBucket F × Bool) :=
  ((tagsOf lower ev).sort (· ≤ ·)).foldlM
    (HourBucket.noteC fl (fl.weight ctx.authorTier) ctx.author) (b, false)

def pruneC (now : ℕ) (s : TrendingHashtags F) : Res (TrendingHashtags F) := do
  let start ← floorC now
  return { s with hours := retain s.hours fun hour => start ≤ hour }

/-- `observe`, with checks on. -/
def observeC (s : TrendingHashtags F) : Res (TrendingHashtags F × Bool) := do
  let s := { s with now := max s.now ctx.now }
  let accepted ← acceptsC ev ctx.now
  if accepted then
    let hour ← hourOfC ev
    let r ← noteTagsC lower fl ev ctx ((s.hours.lookup hour).getD HourBucket.default)
    let s := { s with hours := s.hours.insert hour r.1 }
    if WINDOW_HOURS + 2 < s.hours.keys.card then
      let s ← pruneC ctx.now s
      return (s, r.2)
    else return (s, r.2)
  else return (s, false)

/-- The bucket of an event. -/
def bucketOf (s : TrendingHashtags F) : HourBucket F :=
  (s.hours.lookup (hourOf ev)).getD HourBucket.default

/-- The window has an end, if the event is not from before its start, and every tag its author was
not seen with can be counted. -/
def HasRoom (s : TrendingHashtags F) : Prop :=
  (floor ctx.now ≤ ev.createdAt → ctx.now + HOUR < 2 ^ 64) ∧
    (accepts ev ctx.now = true → ∀ tag ∈ tagsOf lower ev,
      (tag, ctx.author) ∉ (bucketOf ev s).seen → (bucketOf ev s).count tag + 1 < 2 ^ 64)

variable {ctx} in
theorem floorC_eq {now : ℕ} (h : now < 2 ^ 64) : floorC now = .ok (floor now) := by
  have hle : (now / HOUR - WINDOW_HOURS) * HOUR ≤ now := by
    unfold HOUR
    omega
  exact Res.mul_eq (hle.trans_lt h)

theorem checks_accepts {now : ℕ} (h : now < 2 ^ 64) :
    Checks (acceptsC ev now) (floor now ≤ ev.createdAt → now + HOUR < 2 ^ 64)
      (accepts ev now) := by
  have hdef : accepts ev now =
      decide (¬ (ev.createdAt < floor now ∨ wrapAdd now HOUR < ev.createdAt)) := by
    unfold accepts
    rfl
  rw [acceptsC, floorC_eq h, Res.bind_ok rfl, hdef]
  by_cases hlt : ev.createdAt < floor now
  · rw [if_pos hlt]
    have hfalse : decide (¬ (ev.createdAt < floor now ∨ wrapAdd now HOUR < ev.createdAt)) =
        false := decide_eq_false fun hn => hn (Or.inl hlt)
    rw [hfalse]
    exact (Checks.pure false).iff (iff_of_true trivial fun hle => absurd hlt (not_lt.mpr hle))
  · rw [if_neg hlt]
    have hstop : decide (¬ (ev.createdAt < floor now ∨ wrapAdd now HOUR < ev.createdAt)) =
        decide (¬ wrapAdd now HOUR < ev.createdAt) := by
      rw [decide_eq_decide, or_iff_right hlt]
    rw [hstop]
    exact ((checks_add now HOUR).last fun stop => decide (¬ stop < ev.createdAt)).iff
      ⟨fun h _ => h, fun h => h (not_lt.mp hlt)⟩

theorem checks_noteTags (b : HourBucket F) :
    Checks (noteTagsC lower fl ev ctx b)
      (∀ tag ∈ tagsOf lower ev, (tag, ctx.author) ∉ b.seen → b.count tag + 1 < 2 ^ 64)
      (noteTags lower fl ev ctx b) := by
  have hloop := Checks.foldlM (HourBucket.checks_note fl (fl.weight ctx.authorTier) ctx.author)
    ((tagsOf lower ev).sort (· ≤ ·)) (b, false)
  apply hloop.iff
  rw [fitsAll_iff (Finset.sort_nodup _ _)
    fun tag _ tag' _ hne acc => HourBucket.noteFits_note fl _ _ acc hne]
  simp only [Finset.mem_sort]
  rfl

theorem pruneC_eq {now : ℕ} (h : now < 2 ^ 64) (s : TrendingHashtags F) :
    pruneC now s = .ok (s.prune now) := by
  rw [pruneC, floorC_eq h]
  rfl

theorem checks_observe (hnow : ctx.now < 2 ^ 64) (s : TrendingHashtags F) :
    Checks (observeC lower fl ev ctx s) (HasRoom lower ev ctx s) (observe lower fl ev ctx s) := by
  unfold observeC observe HasRoom
  refine (checks_accepts ev hnow).bind ?_
  cases accepts ev ctx.now with
  | false => exact (Checks.pure _).iff (iff_of_true trivial nofun)
  | true =>
    have hhour : hourOfC ev = .ok (hourOf ev) := startC_eq HOUR ev.createdAt
    simp only [if_true, hhour, Res.bind_ok rfl, pruneC_eq hnow, forall_const]
    have htags := checks_noteTags lower fl ev ctx (bucketOf ev s)
    refine (htags.bind (q := True) ?_).iff (and_iff_left trivial)
    unfold bucketOf
    split
    · exact Checks.pure _
    · exact Checks.pure _

end TrendingHashtags

/-! ## Any of them -/

namespace BuiltIn

variable {F : Type} (o : Outside F)

/-- `observe` of an analysis, with checks on. `pagerank` adds nothing up. -/
def ownObserveC (ev : NostrEvent) (ctx : AnalysisCtx) (ext : Stores) :
    (b : BuiltIn) → b.State F → Res (b.State F × Stores × Bool)
  | activeUsers, s => do
    let r ← ActiveUsers.observeC ev ctx s
    return (r.1, ext, r.2)
  | activity, s => do
    let r ← Activity.observeDayC o.zaps ev ctx s
    return (r.1, ext, r.2)
  | clients, s => do
    let r ← Clients.observeC o.lower ev s
    return (r.1, ext, r.2)
  | followGraph, s => do
    let r ← FollowGraph.observeC ev ext.1 s
    return (r.1, (r.2.1, ext.2), r.2.2)
  | kindBreakdown, s => do
    let r ← KindBreakdown.observeC ev ctx s
    return (r.1, ext, r.2)
  | newUsers, s => do
    let r ← NewUsers.observeC ev ctx ext.2 s
    return (r.1, (ext.1, r.2.1), r.2.2)
  | pagerank, s => return (s, ext, false)
  | relays, s => do
    let r ← Relays.observeC o.relays ev ctx s
    return (r.1, ext, r.2)
  | trendingHashtags, s => do
    let r ← TrendingHashtags.observeC o.lower o.scores ev ctx s
    return (r.1, ext, r.2)

/-- Nothing the analysis computes from the event overflows. -/
def OwnFits (ev : NostrEvent) (ctx : AnalysisCtx) (ext : Stores) :
    (b : BuiltIn) → b.State F → Prop
  | activeUsers, _ => True
  | activity, s => Activity.HasRoom o.zaps ev ctx s
  | clients, s => Clients.HasRoom o.lower ev s
  | followGraph, _ => True
  | kindBreakdown, s => KindBreakdown.HasRoom ev ctx s
  | newUsers, s => NewUsers.HasRoom ev ctx ext.2 s
  | pagerank, _ => True
  | relays, _ => True
  | trendingHashtags, s => TrendingHashtags.HasRoom o.lower ev ctx s

theorem checks_ownObserve (ev : NostrEvent) {ctx : AnalysisCtx} (hnow : ctx.now < 2 ^ 64)
    (ext : Stores) (b : BuiltIn) (s : b.State F) :
    Checks (ownObserveC o ev ctx ext b s) (OwnFits o ev ctx ext b s)
      ((b.analysis o).observe ev ctx ext s) := by
  cases b with
  | activeUsers =>
    exact (Checks.of_eq (ActiveUsers.observeC_eq ev ctx s)).last fun r => (r.1, ext, r.2)
  | activity =>
    exact (Activity.checks_observeDay o.zaps ev ctx s).last fun r => (r.1, ext, r.2)
  | clients => exact (Clients.checks_observe o.lower ev s).last fun r => (r.1, ext, r.2)
  | followGraph =>
    exact (Checks.of_eq (FollowGraph.observeC_eq ev ext.1 s)).last fun r =>
      (r.1, (r.2.1, ext.2), r.2.2)
  | kindBreakdown => exact (KindBreakdown.checks_observe ev ctx s).last fun r => (r.1, ext, r.2)
  | newUsers =>
    exact (NewUsers.checks_observe ev ctx ext.2 s).last fun r => (r.1, (ext.1, r.2.1), r.2.2)
  | pagerank => exact Checks.pure _
  | relays =>
    exact (Checks.of_eq (Relays.observeC_eq o.relays ev ctx s)).last fun r => (r.1, ext, r.2)
  | trendingHashtags =>
    exact (TrendingHashtags.checks_observe o.lower o.scores ev ctx hnow s).last fun r =>
      (r.1, ext, r.2)

/-- `observe` as the registry calls it, with checks on. -/
def observeC (ev : NostrEvent) (ctx : AnalysisCtx) (ext : Stores) (s : Dyn F) :
    Res (Dyn F × Stores × Bool) := do
  let r ← ownObserveC o ev ctx ext s.1 s.2
  return (⟨s.1, r.1⟩, r.2)

/-- What the registry calls is what the analysis does. -/
def observe (ev : NostrEvent) (ctx : AnalysisCtx) (ext : Stores) (s : Dyn F) :
    Dyn F × Stores × Bool :=
  (s.1.dyn o).observe ev ctx ext s

theorem checks_observe (ev : NostrEvent) {ctx : AnalysisCtx} (hnow : ctx.now < 2 ^ 64)
    (ext : Stores) (s : Dyn F) :
    Checks (observeC o ev ctx ext s) (OwnFits o ev ctx ext s.1 s.2) (observe o ev ctx ext s) := by
  have hlast := (checks_ownObserve o ev hnow ext s.1 s.2).last fun r =>
    ((⟨s.1, r.1⟩ : Dyn F), r.2)
  exact hlast

end BuiltIn

end NostrSearch.Stats
