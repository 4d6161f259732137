import NostrSearch.Lib.Buckets
import NostrSearch.Lib.MostRecent
import NostrSearch.Lib.Run
import NostrSearch.Server.ShardRegistry

/-!
# The reader cache between threads

`ShardRegistry` keeps its open readers behind a lock that is held for one lookup or one insertion
at a time: `shard` looks a reader up, opens one with the lock released if there is none, and looks
again before it keeps the new one. Here any number of threads call `shard` and `cached`, a lock
section or an opening of a thread at a time.

What `touch` notes as a use is that `shard` hands out a reader; a reader that `cached` looks up is
not used by it. The cache holds the `max_open` most recently used shards whatever the threads do
(`inv_step`), and the tick of a shard is the number of its last use (`Inv.stamped`). A call of
`shard` that nothing comes between is that of `Server.OpenShards` (`shard_alone`).

A `HashMap` is gone through in an order of its own: `evict_to_capacity` is given one. Nothing
panics under the lock, so that it is never poisoned.
-/

namespace NostrSearch.Server.ReaderCache

open NostrSearch.Core NostrSearch.Lib

/-- A reader of a shard. What was opened has a number, so that two readers of a shard differ. -/
structure ShardReader where
  id : ShardId
  serial : ℕ
deriving DecidableEq

/-- Reader cache plus the LRU clock that orders it. The clock is a `u64`, which 2^64 uses would wrap
around; it counts them (`IsLru.clock`). -/
structure OpenShards where
  shards : Finmap fun _ : ShardId => ShardReader
  /-- shard → tick of its last use -/
  used : Finmap fun _ : ShardId => ℕ
  clock : ℕ

namespace OpenShards

def default : OpenShards := { shards := ∅, used := ∅, clock := 0 }

/-- Note a use of `id`. -/
def touch (o : OpenShards) (id : ShardId) : OpenShards :=
  { o with
    clock := o.clock + 1
    used := o.used.insert id (o.clock + 1) }

/-- The reader whose last use is the oldest, the first of them in the order of `used`. -/
def victim (order : List ShardId) (o : OpenShards) : Option ShardId :=
  (order.filter fun id => id ∈ o.used ∧ id ∈ o.shards).argmin fun id => (o.used.lookup id).getD 0

/-- The loop of `evict_to_capacity`, in at most so many rounds. -/
def evictRounds (order : List ShardId) (maxOpen : ℕ) : ℕ → OpenShards → OpenShards
  | 0, o => o
  | rounds + 1, o =>
    if maxOpen < o.shards.keys.card then
      match o.victim order with
      | none => o
      | some id =>
        evictRounds order maxOpen rounds
          { o with
            shards := o.shards.erase id
            used := o.used.erase id }
    else o

/-- Drop least recently used readers until at most `maxOpen` remain. Each round drops one. -/
def evictToCapacity (order : List ShardId) (maxOpen : ℕ) (o : OpenShards) : OpenShards :=
  evictRounds order maxOpen o.shards.keys.card o

/-- A new reader is kept, and used. -/
def keep (order : List ShardId) (maxOpen : ℕ) (o : OpenShards) (id : ShardId) (sr : ShardReader) :
    OpenShards :=
  ({ o with shards := o.shards.insert id sr }.touch id).evictToCapacity order maxOpen

end OpenShards

/-- Where a thread is. -/
inductive Call
  /-- between calls, with what the last one returned -/
  | returned (reader : Option ShardReader)
  /-- `shard` found no reader, and the lock is released -/
  | opening (id : ShardId)
  /-- it has opened one -/
  | opened (id : ShardId) (sr : ShardReader)

/-- The registry and the threads that use it. -/
structure Registry (τ : Type) where
  cache : OpenShards
  maxOpen : ℕ
  /-- how many readers were opened -/
  serial : ℕ
  calls : τ → Call

inductive Act (τ : Type)
  /-- a call of `shard`, with its first lock section -/
  | shard (t : τ) (id : ShardId)
  /-- `open_reader`, which may fail -/
  | openReader (t : τ) (ok : Bool)
  /-- the second lock section of `shard` -/
  | keep (t : τ) (order : List ShardId)
  /-- a call of `cached` -/
  | cached (t : τ) (id : ShardId)

variable {τ : Type}

def openWithCapacity (maxOpen : ℕ) : Registry τ :=
  { cache := OpenShards.default, maxOpen := max maxOpen 1, serial := 0
    calls := fun _ => .returned none }

/-- A thread is somewhere else. -/
def Registry.goto [DecidableEq τ] (r : Registry τ) (t : τ) (call : Call) : Registry τ :=
  { r with calls := Function.update r.calls t call }

def step [DecidableEq τ] (r : Registry τ) : Act τ → Option (Registry τ)
  | .shard t id =>
    match r.calls t with
    | .returned _ =>
      match r.cache.shards.lookup id with
      | some s => some ({ r with cache := r.cache.touch id }.goto t (.returned (some s)))
      | none => some (r.goto t (.opening id))
    | _ => none
  | .openReader t ok =>
    match r.calls t with
    | .opening id =>
      if ok then
        let sr : ShardReader := { id := id, serial := r.serial }
        some ({ r with serial := r.serial + 1 }.goto t (.opened id sr))
      else some (r.goto t (.returned none))
    | _ => none
  | .keep t order =>
    match r.calls t with
    | .opened id sr =>
      match r.cache.shards.lookup id with
      | some existing =>
        -- another thread has kept a reader of the shard in the meantime
        some ({ r with cache := r.cache.touch id }.goto t (.returned (some existing)))
      | none =>
        if ∀ k ∈ insert id r.cache.used.keys, k ∈ order then
          some ({ r with cache := r.cache.keep order r.maxOpen id sr }.goto t (.returned (some sr)))
        else none
    | _ => none
  | .cached t id =>
    match r.calls t with
    | .returned _ => some (r.goto t (.returned (r.cache.shards.lookup id)))
    | _ => none

/-! ## What is used -/

/-- The shard whose reader `shard` hands out in a step. -/
def Registry.use (r : Registry τ) : Act τ → Option ShardId
  | .shard _ id => if id ∈ r.cache.shards then some id else none
  | .keep t _ =>
    match r.calls t with
    | .opened id _ => some id
    | _ => none
  | _ => none

/-- The uses so far, the last one first. -/
def noteUse (uses : List ShardId) (r : Registry τ) (a : Act τ) (_ : Registry τ) : List ShardId :=
  (r.use a).toList ++ uses

/-! ## One operation of the cache -/

namespace OpenShards

variable {o : OpenShards} {uses : List ShardId} {order : List ShardId} {maxOpen : ℕ} {id : ShardId}
  {sr : ShardReader}

/-- The tick of a shard is the number of its last use. -/
structure Stamped (uses : List ShardId) (o : OpenShards) : Prop where
  ticked : ∀ id, id ∈ o.used ↔ id ∈ o.shards
  clock : o.clock = uses.length
  stamped : ∀ id tick, o.used.lookup id = some tick →
    id ∈ uses ∧ tick + uses.idxOf id = uses.length
  own : ∀ id s, o.shards.lookup id = some s → s.id = id

theorem stamped_default : Stamped [] default where
  ticked _ := iff_of_false Finmap.notMem_empty Finmap.notMem_empty
  clock := rfl
  stamped _ _ h := by cases h
  own _ _ h := by cases h

/-- Older uses have smaller ticks. -/
theorem Stamped.lt_iff (h : Stamped uses o) {a b : ShardId} {ta tb : ℕ}
    (ha : o.used.lookup a = some ta) (hb : o.used.lookup b = some tb) :
    ta < tb ↔ uses.idxOf b < uses.idxOf a := by
  have hta := (h.stamped a ta ha).2
  have htb := (h.stamped b tb hb).2
  omega

theorem Stamped.eq_of_tick (h : Stamped uses o) {a b : ShardId} {tick : ℕ}
    (ha : o.used.lookup a = some tick) (hb : o.used.lookup b = some tick) : a = b := by
  obtain ⟨hmem, hta⟩ := h.stamped a tick ha
  have htb := (h.stamped b tick hb).2
  have hidx : uses.idxOf a = uses.idxOf b := by omega
  exact (List.idxOf_inj hmem).mp hidx

theorem stamped_touch (hclock : o.clock = uses.length)
    (h : ∀ id tick, o.used.lookup id = some tick →
      id ∈ uses ∧ tick + uses.idxOf id = uses.length)
    (id j : ShardId) (tick : ℕ) (hj : (o.touch id).used.lookup j = some tick) :
    j ∈ id :: uses ∧ tick + (id :: uses).idxOf j = (id :: uses).length := by
  by_cases hji : j = id
  · rw [hji, touch, Finmap.lookup_insert, Option.some.injEq] at hj
    rw [hji, List.idxOf_cons_self, List.length_cons, ← hj, hclock]
    exact ⟨List.mem_cons_self, rfl⟩
  · rw [touch, Finmap.lookup_insert_of_ne _ hji] at hj
    obtain ⟨hmem, htick⟩ := h j tick hj
    rw [idxOf_cons_of_ne hji, List.length_cons, ← htick]
    exact ⟨List.mem_cons_of_mem id hmem, rfl⟩

/-- A use of a shard that is cached. -/
theorem Stamped.touch (h : Stamped uses o) (hid : id ∈ o.shards) :
    Stamped (id :: uses) (o.touch id) where
  ticked j := by
    show j ∈ o.used.insert id (o.clock + 1) ↔ j ∈ o.shards
    rw [Finmap.mem_insert, h.ticked j]
    exact or_iff_right_of_imp fun heq => heq ▸ hid
  clock := by
    rw [List.length_cons, ← h.clock]
    rfl
  stamped := stamped_touch h.clock h.stamped id
  own := h.own

/-- A new reader, which is used. -/
theorem Stamped.insert (h : Stamped uses o) (hsr : sr.id = id) :
    Stamped (id :: uses) ({ o with shards := o.shards.insert id sr }.touch id) where
  ticked j := by
    show j ∈ o.used.insert id (o.clock + 1) ↔ j ∈ o.shards.insert id sr
    rw [Finmap.mem_insert, Finmap.mem_insert, h.ticked j]
  clock := by
    rw [List.length_cons, ← h.clock]
    rfl
  stamped := stamped_touch (o := { o with shards := o.shards.insert id sr }) h.clock h.stamped id
  own j s hs := by
    have hs : (o.shards.insert id sr).lookup j = some s := hs
    by_cases hj : j = id
    · rw [hj, Finmap.lookup_insert, Option.some.injEq] at hs
      rw [hj, ← hs, hsr]
    · rw [Finmap.lookup_insert_of_ne _ hj] at hs
      exact h.own j s hs

theorem lookup_of_lookup_erase {β : Type} {m : Finmap fun _ : ShardId => β} {v j : ShardId} {b : β}
    (h : (m.erase v).lookup j = some b) : m.lookup j = some b := by
  by_cases hjv : j = v
  · rw [hjv, Finmap.lookup_erase] at h
    cases h
  · rwa [Finmap.lookup_erase_ne hjv] at h

/-- A reader is dropped with its tick. -/
theorem Stamped.erase (h : Stamped uses o) (v : ShardId) :
    Stamped uses { o with shards := o.shards.erase v, used := o.used.erase v } where
  ticked j := by
    show j ∈ o.used.erase v ↔ j ∈ o.shards.erase v
    rw [Finmap.mem_erase, Finmap.mem_erase, h.ticked j]
  clock := h.clock
  stamped j tick hj := h.stamped j tick (lookup_of_lookup_erase hj)
  own j s hs := h.own j s (lookup_of_lookup_erase hs)

/-- A reader that is dropped is one whose last use is the oldest. -/
theorem victim_spec {v : ShardId} (horder : ∀ k ∈ o.used.keys, k ∈ order)
    (h : o.victim order = some v) :
    v ∈ o.shards ∧ v ∈ o.used ∧ ∀ a ∈ o.shards, ∀ ta tv, o.used.lookup a = some ta →
      o.used.lookup v = some tv → tv ≤ ta := by
  have hmem := List.argmin_mem h
  simp only [List.mem_filter, decide_eq_true_eq] at hmem
  refine ⟨hmem.2.2, hmem.2.1, fun a ha ta tv hta htv => ?_⟩
  have haused : a ∈ o.used := Finmap.mem_of_lookup_eq_some hta
  have hle := List.le_of_mem_argmin (f := fun id => (o.used.lookup id).getD 0) (a := a)
    (by
      simp only [List.mem_filter, decide_eq_true_eq]
      exact ⟨horder a (Finmap.mem_keys.mpr haused), haused, ha⟩) h
  simpa only [hta, htv, Option.getD_some] using hle

/-- There is a reader to drop. -/
theorem exists_victim (hticked : ∀ id, id ∈ o.used ↔ id ∈ o.shards)
    (horder : ∀ k ∈ o.used.keys, k ∈ order) (hpos : 0 < o.shards.keys.card) :
    ∃ v, o.victim order = some v := by
  rw [← Option.ne_none_iff_exists']
  intro hnone
  obtain ⟨a, ha⟩ := Finset.card_pos.mp hpos
  have ha : a ∈ o.shards := Finmap.mem_keys.mp ha
  have haused := (hticked a).mpr ha
  have hnil := List.argmin_eq_none.mp hnone
  have hmem : a ∈ order.filter fun id => id ∈ o.used ∧ id ∈ o.shards := by
    simp only [List.mem_filter, decide_eq_true_eq]
    exact ⟨horder a (Finmap.mem_keys.mpr haused), haused, ha⟩
  rw [hnil] at hmem
  exact List.not_mem_nil hmem

/-- Nothing is dropped while there is room. -/
theorem evictToCapacity_of_le (h : o.shards.keys.card ≤ maxOpen) :
    o.evictToCapacity order maxOpen = o := by
  unfold evictToCapacity
  cases o.shards.keys.card with
  | zero => rfl
  | succ n => rw [evictRounds, if_neg (Nat.not_lt.mpr h)]

/-- One reader too many, and one is dropped. -/
theorem evictToCapacity_of_succ {v : ShardId} (h : o.shards.keys.card = maxOpen + 1)
    (hv : o.victim order = some v) (hmem : v ∈ o.shards) :
    o.evictToCapacity order maxOpen =
      { o with shards := o.shards.erase v, used := o.used.erase v } := by
  have hcard : (o.shards.erase v).keys.card = maxOpen := by
    rw [Finmap.keys_erase, Finset.card_erase_of_mem (Finmap.mem_keys.mpr hmem), h,
      Nat.add_sub_cancel]
  unfold evictToCapacity
  rw [h, evictRounds, if_pos (by rw [h]; exact Nat.lt_succ_self _), hv]
  dsimp only
  cases maxOpen with
  | zero => rfl
  | succ n => rw [evictRounds, if_neg (by rw [hcard]; exact Nat.lt_irrefl _)]

/-- A new reader is kept. If the cache was full it takes the place of the least recently used. -/
theorem keep_spec (h : Stamped uses o) (hrecent : MostRecent maxOpen uses o.shards.keys)
    (hpos : 0 < maxOpen) (hid : id ∉ o.shards) (hsr : sr.id = id)
    (horder : ∀ k ∈ insert id o.used.keys, k ∈ order) :
    Stamped (id :: uses) (o.keep order maxOpen id sr) ∧
      MostRecent maxOpen (id :: uses) (o.keep order maxOpen id sr).shards.keys ∧
      (o.keep order maxOpen id sr).shards.lookup id = some sr := by
  have hkept := h.insert hsr
  have hkeys : ({ o with shards := o.shards.insert id sr }.touch id).shards.keys =
      insert id o.shards.keys := keys_insert o.shards id sr
  have hused : ({ o with shards := o.shards.insert id sr }.touch id).used.keys =
      insert id o.used.keys := keys_insert o.used id _
  have hnew : id ∉ o.shards.keys := fun hmem => hid (Finmap.mem_keys.mp hmem)
  have hlookup : ({ o with shards := o.shards.insert id sr }.touch id).shards.lookup id = some sr :=
    Finmap.lookup_insert o.shards
  have hcard := Finset.card_insert_of_notMem hnew
  rw [← hkeys] at hcard
  unfold keep
  generalize ({ o with shards := o.shards.insert id sr }.touch id) = o₁ at *
  rcases Nat.lt_or_eq_of_le hrecent.card_le with hroom | hfull
  · rw [evictToCapacity_of_le (by omega)]
    refine ⟨hkept, ?_, hlookup⟩
    rw [hkeys]
    exact hrecent.grow hnew hroom
  · have horder : ∀ k ∈ o₁.used.keys, k ∈ order := by
      rw [hused]
      exact horder
    obtain ⟨v, hv⟩ := exists_victim hkept.ticked horder (by omega)
    obtain ⟨hmem, hvused, hmin⟩ := victim_spec horder hv
    obtain ⟨tv, htv⟩ := Finmap.mem_iff.mp hvused
    rw [evictToCapacity_of_succ (by omega) hv hmem]
    have hvkeys : v ∈ insert id o.shards.keys := by
      rw [← hkeys]
      exact Finmap.mem_keys.mpr hmem
    -- ticks are distinct, so that the smallest one is that of the oldest use
    have holdest : ∀ a ∈ insert id o.shards.keys, a ≠ v →
        (id :: uses).idxOf a < (id :: uses).idxOf v := by
      intro a ha hav
      rw [← hkeys, Finmap.mem_keys] at ha
      obtain ⟨ta, hta⟩ := Finmap.mem_iff.mp ((hkept.ticked a).mpr ha)
      have hle := hmin a ha ta tv hta htv
      have hne : tv ≠ ta := fun heq => hav (hkept.eq_of_tick hta (heq ▸ htv))
      exact (hkept.lt_iff htv hta).mp (Nat.lt_of_le_of_ne hle hne)
    obtain ⟨hvid, hreplaced⟩ := hrecent.replace hnew hpos hfull hvkeys holdest
    refine ⟨hkept.erase v, ?_, ?_⟩
    · rw [Finmap.keys_erase, hkeys]
      exact hreplaced
    · rw [Finmap.lookup_erase_ne hvid.symm]
      exact hlookup

end OpenShards

/-! ## One step of a thread -/

/-- What a step does to the cache. -/
inductive Effect (r : Registry τ) : Act τ → OpenShards → Prop
  | unchanged {a : Act τ} (huse : r.use a = none) : Effect r a r.cache
  | touched {a : Act τ} {id : ShardId} {s : ShardReader} (huse : r.use a = some id)
      (hs : r.cache.shards.lookup id = some s) : Effect r a (r.cache.touch id)
  | kept {t : τ} {order : List ShardId} {id : ShardId} {sr : ShardReader}
      (hcall : r.calls t = .opened id sr) (hs : r.cache.shards.lookup id = none)
      (horder : ∀ k ∈ insert id r.cache.used.keys, k ∈ order) :
      Effect r (.keep t order) (r.cache.keep order r.maxOpen id sr)


/-- A reader that was opened and is not kept yet is one of the shard that it was opened for. -/
def Pending (calls : τ → Call) : Prop := ∀ t id sr, calls t = .opened id sr → sr.id = id

theorem Pending.update [DecidableEq τ] {calls : τ → Call} (h : Pending calls) (t : τ) {call : Call}
    (hcall : ∀ id sr, call = .opened id sr → sr.id = id) :
    Pending (Function.update calls t call) := by
  intro u id sr hu
  by_cases hut : u = t
  · rw [hut, Function.update_self] at hu
    exact hcall id sr hu
  · rw [Function.update_of_ne hut] at hu
    exact h u id sr hu

theorem effect_of_step [DecidableEq τ] {r r' : Registry τ} {a : Act τ}
    (h : step r a = some r') :
    Effect r a r'.cache ∧ r'.maxOpen = r.maxOpen ∧ (Pending r.calls → Pending r'.calls) := by
  cases a with
  | shard t id =>
    cases hcall : r.calls t with
    | returned reader =>
      cases hs : r.cache.shards.lookup id with
      | some s =>
        simp only [step, hcall, hs, Option.some.injEq] at h
        subst h
        have huse : r.use (.shard t id) = some id := if_pos (Finmap.mem_of_lookup_eq_some hs)
        exact ⟨.touched huse hs, rfl, fun hp => hp.update t nofun⟩
      | none =>
        simp only [step, hcall, hs, Option.some.injEq] at h
        subst h
        have huse : r.use (.shard t id) = none := if_neg (Finmap.lookup_eq_none.mp hs)
        exact ⟨.unchanged huse, rfl, fun hp => hp.update t nofun⟩
    | opening id' => simp [step, hcall] at h
    | opened id' sr => simp [step, hcall] at h
  | openReader t ok =>
    cases hcall : r.calls t with
    | returned reader => simp [step, hcall] at h
    | opening id =>
      simp only [step, hcall] at h
      split at h
      · rw [Option.some.injEq] at h
        subst h
        refine ⟨.unchanged rfl, rfl, fun hp => hp.update t ?_⟩
        intro id' sr heq
        cases heq
        rfl
      · rw [Option.some.injEq] at h
        subst h
        exact ⟨.unchanged rfl, rfl, fun hp => hp.update t nofun⟩
    | opened id sr => simp [step, hcall] at h
  | keep t order =>
    cases hcall : r.calls t with
    | returned reader => simp [step, hcall] at h
    | opening id => simp [step, hcall] at h
    | opened id sr =>
      cases hs : r.cache.shards.lookup id with
      | some existing =>
        simp only [step, hcall, hs, Option.some.injEq] at h
        subst h
        have huse : r.use (.keep t order) = some id := by rw [Registry.use, hcall]
        exact ⟨.touched huse hs, rfl, fun hp => hp.update t nofun⟩
      | none =>
        simp only [step, hcall, hs] at h
        split at h
        case isTrue horder =>
          rw [Option.some.injEq] at h
          subst h
          exact ⟨.kept hcall hs horder, rfl, fun hp => hp.update t nofun⟩
        case isFalse => cases h
  | cached t id =>
    cases hcall : r.calls t with
    | returned reader =>
      simp only [step, hcall, Option.some.injEq] at h
      subst h
      exact ⟨.unchanged rfl, rfl, fun hp => hp.update t nofun⟩
    | opening id' => simp [step, hcall] at h
    | opened id' sr => simp [step, hcall] at h

/-! ## Every state of a run -/

/-- The cache holds the most recently used shards, each with the number of its last use. -/
structure Inv (uses : List ShardId) (r : Registry τ) : Prop where
  pos : 0 < r.maxOpen
  stamped : r.cache.Stamped uses
  recent : MostRecent r.maxOpen uses r.cache.shards.keys
  pending : Pending r.calls

theorem inv_openWithCapacity (maxOpen : ℕ) : Inv [] (openWithCapacity maxOpen : Registry τ) where
  pos := Nat.lt_of_lt_of_le Nat.zero_lt_one (Nat.le_max_right maxOpen 1)
  stamped := OpenShards.stamped_default
  recent := mostRecent_nil _
  pending _ _ _ h := by cases h

/-- What a step does to the cache keeps it in order. -/
theorem Effect.spec {uses : List ShardId} {r : Registry τ} {a : Act τ} {o : OpenShards}
    (he : Effect r a o) (h : Inv uses r) :
    o.Stamped ((r.use a).toList ++ uses) ∧
      MostRecent r.maxOpen ((r.use a).toList ++ uses) o.shards.keys := by
  cases he with
  | unchanged huse =>
    rw [huse]
    exact ⟨h.stamped, h.recent⟩
  | @touched _ id s huse hs =>
    have hid := Finmap.mem_of_lookup_eq_some hs
    rw [huse]
    exact ⟨h.stamped.touch hid, h.recent.hit (Finmap.mem_keys.mpr hid)⟩
  | @kept t order id sr hcall hs horder =>
    have huse : r.use (.keep t order) = some id := by rw [Registry.use, hcall]
    have hkept := OpenShards.keep_spec h.stamped h.recent h.pos (Finmap.lookup_eq_none.mp hs)
      (h.pending t id sr hcall) horder
    rw [huse]
    exact ⟨hkept.1, hkept.2.1⟩

theorem inv_step [DecidableEq τ] {uses : List ShardId} {r r' : Registry τ} {a : Act τ}
    (h : Inv uses r) (hstep : step r a = some r') : Inv (noteUse uses r a r') r' := by
  obtain ⟨heffect, hmax, hpending⟩ := effect_of_step hstep
  obtain ⟨hstamped, hrecent⟩ := heffect.spec h
  refine ⟨hmax ▸ h.pos, hstamped, ?_, hpending h.pending⟩
  rw [hmax]
  exact hrecent

/-- In every state that a run reaches. -/
theorem inv_run [DecidableEq τ] {maxOpen : ℕ} {as : List (Act τ)} {uses : List ShardId}
    {r : Registry τ}
    (hrun : run (withHistory step noteUse) ([], openWithCapacity maxOpen) as = some (uses, r)) :
    Inv uses r ∧ r.maxOpen = max maxOpen 1 := by
  have hstep : ∀ (x : List ShardId × Registry τ) (a : Act τ) (x' : List ShardId × Registry τ),
      Inv x.1 x.2 ∧ x.2.maxOpen = max maxOpen 1 → withHistory step noteUse x a = some x' →
        Inv x'.1 x'.2 ∧ x'.2.maxOpen = max maxOpen 1 := by
    rintro x a x' ⟨hx, hmax⟩ hstep
    obtain ⟨hstep, huses⟩ := withHistory_some.mp hstep
    rw [huses, (effect_of_step hstep).2.1]
    exact ⟨inv_step hx hstep, hmax⟩
  have hstart : Inv [] (openWithCapacity maxOpen : Registry τ) ∧
      (openWithCapacity maxOpen : Registry τ).maxOpen = max maxOpen 1 :=
    ⟨inv_openWithCapacity maxOpen, rfl⟩
  exact run_invariant' hstep hstart hrun

/-- The cache is in bounds, and its ticks are in the order of the last uses. The clock counts the
uses. -/
structure IsLru (maxOpen : ℕ) (uses : List ShardId) (r : Registry τ) : Prop where
  card_le : r.cache.shards.keys.card ≤ maxOpen
  ticked : ∀ id, id ∈ r.cache.used ↔ id ∈ r.cache.shards
  used : ∀ id ∈ r.cache.shards, id ∈ uses
  distinct : ∀ a b tick, r.cache.used.lookup a = some tick → r.cache.used.lookup b = some tick →
    a = b
  ordered : ∀ a b ta tb, r.cache.used.lookup a = some ta → r.cache.used.lookup b = some tb →
    (ta < tb ↔ uses.idxOf b < uses.idxOf a)
  one_each : ∀ id id' s s', r.cache.shards.lookup id = some s →
    r.cache.shards.lookup id' = some s' → s.id = s'.id → id = id' ∧ s = s'
  clock : r.cache.clock = uses.length

/-- What a step may drop: what it drops was last used before everything that stays, and a reader
that it keeps is there. -/
structure EvictsOldest (uses : List ShardId) (r : Registry τ) (a : Act τ) (r' : Registry τ) :
    Prop where
  oldest : ∀ v ∈ r.cache.shards, v ∉ r'.cache.shards →
    ∀ k ∈ r'.cache.shards, uses.idxOf k < uses.idxOf v
  inserting : ∀ v ∈ r.cache.shards, v ∉ r'.cache.shards →
    ∃ t order id sr, a = .keep t order ∧ r.calls t = .opened id sr ∧ id ∉ r.cache.shards
  stays : ∀ t order id sr, a = .keep t order → r.calls t = .opened id sr →
    r'.cache.shards.lookup id = some ((r.cache.shards.lookup id).getD sr)

theorem Inv.isLru {uses : List ShardId} {r : Registry τ} (h : Inv uses r) :
    IsLru r.maxOpen uses r where
  card_le := h.recent.card_le
  ticked := h.stamped.ticked
  used id hid := h.recent.used id (Finmap.mem_keys.mpr hid)
  distinct a b tick ha hb := h.stamped.eq_of_tick ha hb
  ordered a b ta tb ha hb := h.stamped.lt_iff ha hb
  one_each id id' s s' hs hs' heq := by
    have hid : id = id' := by rw [← h.stamped.own id s hs, heq, h.stamped.own id' s' hs']
    subst hid
    rw [hs, Option.some.injEq] at hs'
    exact ⟨rfl, hs'⟩
  clock := h.stamped.clock

theorem Inv.evictsOldest [DecidableEq τ] {uses : List ShardId} {r r' : Registry τ} {a : Act τ}
    (h : Inv uses r) (hstep : step r a = some r') : EvictsOldest (noteUse uses r a r') r a r' := by
  have h' := inv_step h hstep
  obtain ⟨heffect, -, -⟩ := effect_of_step hstep
  constructor
  · intro v hv hv' k hk
    have hold : v ∈ noteUse uses r a r' :=
      List.mem_append_right _ (h.recent.used v (Finmap.mem_keys.mpr hv))
    have hgone : v ∉ r'.cache.shards.keys := fun hmem => hv' (Finmap.mem_keys.mp hmem)
    exact h'.recent.newer k (Finmap.mem_keys.mpr hk) v hold hgone
  · intro v hv hv'
    generalize r'.cache = o at heffect hv'
    cases heffect with
    | unchanged huse => exact absurd hv hv'
    | touched huse hs => exact absurd hv hv'
    | kept hcall hs horder => exact ⟨_, _, _, _, rfl, hcall, Finmap.lookup_eq_none.mp hs⟩
  · rintro t order id sr rfl hcall
    generalize r'.cache = o at heffect
    cases heffect with
    | unchanged huse =>
      rw [Registry.use, hcall] at huse
      cases huse
    | @touched _ id' s huse hs =>
      rw [Registry.use, hcall, Option.some.injEq] at huse
      subst huse
      show r.cache.shards.lookup id = _
      rw [hs, Option.getD_some]
    | @kept _ _ id' sr' hcall' hs horder =>
      rw [hcall', Call.opened.injEq] at hcall
      obtain ⟨rfl, rfl⟩ := hcall
      have hkept := OpenShards.keep_spec h.stamped h.recent h.pos (Finmap.lookup_eq_none.mp hs)
        (h.pending t id' sr' hcall') horder
      rw [hs, Option.getD_none]
      exact hkept.2.2

/-- **The reader cache is a correct LRU**, in every state that the threads reach and at every
step. -/
theorem reader_cache_is_lru [DecidableEq τ] (maxOpen : ℕ) {as : List (Act τ)} {uses : List ShardId}
    {r : Registry τ}
    (hrun : run (withHistory step noteUse) ([], openWithCapacity maxOpen) as = some (uses, r)) :
    IsLru (max maxOpen 1) uses r ∧
      ∀ a r', step r a = some r' → EvictsOldest (noteUse uses r a r') r a r' := by
  obtain ⟨h, hmax⟩ := inv_run hrun
  refine ⟨?_, fun a r' hstep => h.evictsOldest hstep⟩
  rw [← hmax]
  exact h.isLru

/-- Two threads and room for one reader. The second opens a reader while the first goes on. -/
def twoThreads : List (Act Bool) :=
  let january : ShardId := { year := 2024, month := 1 }
  let february : ShardId := { year := 2024, month := 2 }
  [.shard false january, .openReader false true, .keep false [january], .shard true february,
    .openReader true true, .shard false january, .keep true [february, january]]

theorem twoThreads_lru :
    ∃ uses r, run (withHistory step noteUse) ([], openWithCapacity 1) twoThreads = some (uses, r) ∧
      IsLru 1 uses r ∧ r.cache.shards.keys = {{ year := 2024, month := 2 }} := by
  have hkeys : (run (withHistory step noteUse) ([], openWithCapacity 1) twoThreads).map
      (fun x => x.2.cache.shards.keys) = some {{ year := 2024, month := 2 }} := by decide +kernel
  obtain ⟨⟨uses, r⟩, hrun, hkeys⟩ := Option.map_eq_some_iff.mp hkeys
  exact ⟨uses, r, hrun, (reader_cache_is_lru 1 hrun).1, hkeys⟩

/-! ## A call on its own -/

/-- The cache as one thread sees it that calls the registry alone, in `Server.OpenShards`. -/
structure Agrees (o : OpenShards) (alone : Server.OpenShards) : Prop where
  shards : ∀ id, id ∈ alone.shards ↔ id ∈ o.shards
  nodup : alone.shards.Nodup
  used : ∀ id tick, (id, tick) ∈ alone.used ↔ o.used.lookup id = some tick
  clock : alone.clock = o.clock

namespace Agrees

variable {o : OpenShards} {alone : Server.OpenShards} {maxOpen : ℕ} {id v : ShardId}

theorem length (h : Agrees o alone) : alone.shards.length = o.shards.keys.card := by
  rw [← List.toFinset_card_of_nodup h.nodup]
  congr 1
  ext j
  rw [List.mem_toFinset, h.shards, Finmap.mem_keys]

theorem touch (h : Agrees o alone) (id : ShardId) : Agrees (o.touch id) (alone.touch id) where
  shards := h.shards
  nodup := h.nodup
  used j tick := by
    show (j, tick) ∈ (id, alone.clock + 1) :: (alone.used.filter fun e => e.1 ≠ id) ↔
      (o.used.insert id (o.clock + 1)).lookup j = some tick
    rw [List.mem_cons, List.mem_filter, h.used, Prod.mk.injEq, h.clock]
    by_cases hj : j = id
    · rw [hj, Finmap.lookup_insert]
      simp [eq_comm]
    · rw [Finmap.lookup_insert_of_ne _ hj]
      simp [hj]
  clock := congrArg (· + 1) h.clock

theorem insert (h : Agrees o alone) (hid : id ∉ o.shards) (sr : ShardReader) :
    Agrees { o with shards := o.shards.insert id sr }
      { alone with shards := id :: alone.shards } where
  shards j := by
    show j ∈ id :: alone.shards ↔ j ∈ o.shards.insert id sr
    rw [List.mem_cons, Finmap.mem_insert, h.shards]
  nodup := List.nodup_cons.mpr ⟨fun hmem => hid ((h.shards id).mp hmem), h.nodup⟩
  used := h.used
  clock := h.clock

theorem erase (h : Agrees o alone) (v : ShardId) :
    Agrees { o with shards := o.shards.erase v, used := o.used.erase v }
      { alone with
        shards := alone.shards.erase v
        used := alone.used.filter fun e => e.1 ≠ v } where
  shards j := by
    show j ∈ alone.shards.erase v ↔ j ∈ o.shards.erase v
    rw [h.nodup.mem_erase_iff, Finmap.mem_erase, h.shards]
  nodup := h.nodup.erase v
  used j tick := by
    show (j, tick) ∈ (alone.used.filter fun e => e.1 ≠ v) ↔
      (o.used.erase v).lookup j = some tick
    rw [List.mem_filter, h.used]
    by_cases hj : j = v
    · rw [hj, Finmap.lookup_erase]
      simp
    · rw [Finmap.lookup_erase_ne hj]
      simp [hj]
  clock := h.clock

/-- As the ticks are distinct, both drop the same reader. -/
theorem victim_eq {uses order : List ShardId} (h : Agrees o alone) (hst : o.Stamped uses)
    (horder : ∀ k ∈ o.used.keys, k ∈ order) (hv : o.victim order = some v) :
    alone.victim = some v := by
  obtain ⟨hmem, hvused, hmin⟩ := OpenShards.victim_spec horder hv
  obtain ⟨tv, htv⟩ := Finmap.mem_iff.mp hvused
  have hin : (v, tv) ∈ alone.used.filter fun e => e.1 ∈ alone.shards := by
    rw [List.mem_filter, h.used, decide_eq_true_eq, h.shards]
    exact ⟨htv, hmem⟩
  unfold Server.OpenShards.victim
  cases hw : (alone.used.filter fun e => e.1 ∈ alone.shards).argmin Prod.snd with
  | none =>
    rw [List.argmin_eq_none.mp hw] at hin
    exact absurd hin List.not_mem_nil
  | some w =>
    have hwmem := List.argmin_mem hw
    rw [List.mem_filter, decide_eq_true_eq, h.shards] at hwmem
    have htw : o.used.lookup w.1 = some w.2 := (h.used w.1 w.2).mp hwmem.1
    have hle : w.2 ≤ tv := List.le_of_mem_argmin hin hw
    have hge : tv ≤ w.2 := hmin w.1 hwmem.2 w.2 tv htw htv
    have heq : w.1 = v := hst.eq_of_tick htw (Nat.le_antisymm hle hge ▸ htv)
    rw [Option.map_some, heq]

theorem evict {uses order : List ShardId} (h : Agrees o alone) (hst : o.Stamped uses)
    (horder : ∀ k ∈ o.used.keys, k ∈ order) (hcard : o.shards.keys.card ≤ maxOpen + 1) :
    Agrees (o.evictToCapacity order maxOpen) (alone.evictToCapacity maxOpen) := by
  have hlength := h.length
  rcases Nat.lt_or_eq_of_le hcard with hroom | hfull
  · have hroom : o.shards.keys.card ≤ maxOpen := Nat.le_of_lt_succ hroom
    rw [OpenShards.evictToCapacity_of_le hroom, Server.OpenShards.evictToCapacity]
    have hnot : ¬ maxOpen < alone.shards.length := by omega
    cases alone.shards.length with
    | zero => exact h
    | succ n =>
      rw [Server.OpenShards.evictRounds, if_neg hnot]
      exact h
  · obtain ⟨v, hv⟩ := OpenShards.exists_victim hst.ticked horder (by omega)
    have hmem := (OpenShards.victim_spec horder hv).1
    rw [OpenShards.evictToCapacity_of_succ hfull hv hmem, Server.OpenShards.evictToCapacity,
      hlength, hfull, Server.OpenShards.evictRounds, if_pos (by omega),
      h.victim_eq hst horder hv]
    have hlast : (alone.shards.erase v).length = maxOpen := by
      rw [List.length_erase_of_mem ((h.shards v).mpr hmem), hlength, hfull, Nat.add_sub_cancel]
    have hnot : ¬ maxOpen < (alone.shards.erase v).length := by omega
    dsimp only
    cases maxOpen with
    | zero => exact h.erase v
    | succ n =>
      rw [Server.OpenShards.evictRounds, if_neg hnot]
      exact h.erase v

end Agrees

/-- **A call of `shard` that nothing comes between** leaves the cache as `Server.OpenShards.shard`
does, and finds a reader where that does. -/
theorem shard_alone [DecidableEq τ] {uses : List ShardId} {r : Registry τ} (h : Inv uses r)
    {alone : Server.OpenShards} (hagrees : Agrees r.cache alone) (root : Root) {t : τ}
    {reader : Option ShardReader} (ht : r.calls t = .returned reader) (id : ShardId)
    {order : List ShardId} (horder : ∀ k ∈ insert id r.cache.used.keys, k ∈ order) :
    ∃ as r', as <+: [.shard t id, .openReader t (root.openReader id).isSome, .keep t order] ∧
      run step r as = some r' ∧ Agrees r'.cache (alone.shard root r.maxOpen id).1 ∧
      ∃ found, r'.calls t = .returned found ∧
        found.isSome = (alone.shard root r.maxOpen id).2.isSome := by
  cases hs : r.cache.shards.lookup id with
  | some s =>
    have hcached : alone.cached root id = some (root.docs id) :=
      if_pos ((hagrees.shards id).mpr (Finmap.mem_of_lookup_eq_some hs))
    have hstep : step r (.shard t id) =
        some ({ r with cache := r.cache.touch id }.goto t (.returned (some s))) := by
      simp only [step, ht, hs]
    have halone : alone.shard root r.maxOpen id = (alone.touch id, some (root.docs id)) := by
      rw [Server.OpenShards.shard, hcached]
    rw [halone]
    refine ⟨[.shard t id], _, ⟨_, rfl⟩, run_cons_some.mpr ⟨_, hstep, rfl⟩, hagrees.touch id, some s,
      ?_, rfl⟩
    exact Function.update_self t _ r.calls
  | none =>
    have hid : id ∉ r.cache.shards := Finmap.lookup_eq_none.mp hs
    have hcached : alone.cached root id = none :=
      if_neg fun hmem => hid ((hagrees.shards id).mp hmem)
    have hstep : step r (.shard t id) = some (r.goto t (.opening id)) := by
      simp only [step, ht, hs]
    have hcall : (r.goto t (.opening id)).calls t = .opening id :=
      Function.update_self t _ r.calls
    cases hopen : root.openReader id with
    | none =>
      have hfail : step (r.goto t (.opening id)) (.openReader t false) =
          some ((r.goto t (.opening id)).goto t (.returned none)) := by
        simp only [step, hcall]
        rfl
      have halone : alone.shard root r.maxOpen id = (alone, none) := by
        rw [Server.OpenShards.shard, hcached, hopen]
      rw [halone]
      refine ⟨[.shard t id, .openReader t false], _, ⟨_, rfl⟩,
        run_cons_some.mpr ⟨_, hstep, run_cons_some.mpr ⟨_, hfail, rfl⟩⟩, hagrees, none, ?_, rfl⟩
      exact Function.update_self t _ _
    | some docs =>
      let sr : ShardReader := { id := id, serial := r.serial }
      let opened : Registry τ :=
        { r.goto t (.opening id) with serial := r.serial + 1 }.goto t (.opened id sr)
      have hopened : step (r.goto t (.opening id)) (.openReader t true) = some opened := by
        simp only [step, hcall]
        rfl
      have hcall' : opened.calls t = .opened id sr := Function.update_self t _ _
      have hkeep : step opened (.keep t order) =
          some ({ opened with cache := r.cache.keep order r.maxOpen id sr }.goto t
            (.returned (some sr))) := by
        have hs : opened.cache.shards.lookup id = none := hs
        simp only [step, hcall', hs]
        exact if_pos horder
      have halone : alone.shard root r.maxOpen id =
          (({ alone with shards := id :: alone.shards }.touch id).evictToCapacity r.maxOpen,
            some docs) := by
        rw [Server.OpenShards.shard, hcached, hopen]
      have hcard : (r.cache.shards.insert id sr).keys.card ≤ r.maxOpen + 1 := by
        rw [keys_insert]
        exact (Finset.card_insert_le id _).trans (Nat.succ_le_succ h.recent.card_le)
      have hused : ∀ k ∈ (r.cache.used.insert id (r.cache.clock + 1)).keys, k ∈ order := by
        rw [keys_insert]
        exact horder
      have hevict := ((hagrees.insert hid sr).touch id).evict (h.stamped.insert rfl) hused hcard
      rw [halone]
      refine ⟨[.shard t id, .openReader t true, .keep t order], _, List.prefix_refl _,
        run_cons_some.mpr ⟨_, hstep, run_cons_some.mpr ⟨_, hopened,
          run_cons_some.mpr ⟨_, hkeep, rfl⟩⟩⟩, hevict, some sr, ?_, rfl⟩
      exact Function.update_self t _ _

end NostrSearch.Server.ReaderCache
