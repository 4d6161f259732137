import NostrSearch.Indexer.Planner
import NostrSearch.Indexer.ReqPages

/-!
# What the planner draws

`CursorOk` is what the position of a relay means: no day is open in the blocks before it. While the
day does not change, every call keeps it, and units that finish only make it truer; so each call
draws from the newest block with an open day, and passes over a relay without a draw only when
nothing of it is left (`plans_newest_open_days`).
-/

namespace NostrSearch.Indexer

open NostrSearch.Core NostrSearch.Lib

/-! ## Open days -/

/-- A day of a relay that is still to be scraped: before today, not before the configured floor,
and not recorded. -/
structure OpenDay (cfg : ScrapeConfig) (st : ScrapeState) (todayStart : ℕ) (url : List Char)
    (start : ℕ) : Prop where
  aligned : start % 86400 = 0
  floor : cfg.minDate ≤ start
  past : start < todayStart
  notDone : st.dayDone (dateText (start / 86400 : ℕ)) url = false

/-- A day that lies in block `k`. -/
def InBlock (todayStart k start : ℕ) : Prop :=
  (blockWindow todayStart k).1 ≤ start ∧ start < (blockWindow todayStart k).2

/-- The newest block in which a relay has an open day. -/
def NewestOpenBlock (cfg : ScrapeConfig) (st : ScrapeState) (todayStart : ℕ) (url : List Char)
    (k : ℕ) : Prop :=
  (∃ start, OpenDay cfg st todayStart url start ∧ InBlock todayStart k start) ∧
    ∀ j < k, ∀ start, OpenDay cfg st todayStart url start → ¬ InBlock todayStart j start

/-- What the position of a relay says: the blocks before it are done, or everything is. -/
def CursorOk (cfg : ScrapeConfig) (st : ScrapeState) (todayStart : ℕ) (url : List Char)
    (pos : Option BlockPos) : Prop :=
  match pos.getD (.block 0) with
  | .block k => ∀ start, OpenDay cfg st todayStart url start →
      start < (blockWindow todayStart k).2
  | .parked => ∀ start, ¬ OpenDay cfg st todayStart url start

/-- No midnight passes during the call. -/
def SameDay (call : PlanCall) : Prop :=
  ∀ url k off, dayStart (call.clock url k off) = dayStart call.now

theorem dayStart_aligned (now : ℕ) : dayStart now % 86400 = 0 := by
  unfold dayStart
  omega

theorem blockWindow_aligned {todayStart : ℕ} (h : todayStart % 86400 = 0) (k : ℕ) :
    (blockWindow todayStart k).1 % 86400 = 0 ∧ (blockWindow todayStart k).2 % 86400 = 0 := by
  unfold blockWindow BLOCK_DAYS
  dsimp only
  omega

theorem blockWindow_le (todayStart k : ℕ) : (blockWindow todayStart k).2 ≤ todayStart := by
  unfold blockWindow
  exact Nat.sub_le _ _

theorem blockWindow_zero (todayStart : ℕ) : (blockWindow todayStart 0).2 = todayStart := by
  unfold blockWindow
  dsimp only
  rw [Nat.zero_mul, Nat.zero_mul, Nat.sub_zero]

/-- A block begins where the next one ends. -/
theorem blockWindow_succ (todayStart k : ℕ) :
    (blockWindow todayStart (k + 1)).2 = (blockWindow todayStart k).1 := by
  unfold blockWindow BLOCK_DAYS
  dsimp only
  omega

/-- Reading a day back from its distance to today. -/
theorem dayBounds_back (now start : ℕ) (haligned : start % 86400 = 0) (hle : start ≤ dayStart now) :
    dayBounds now ((dayStart now - start) / 86400) =
      (dateText (start / 86400 : ℕ), start, start + 86400) := by
  have htoday := dayStart_aligned now
  have hstart : dayStart now - (dayStart now - start) / 86400 * 86400 = start := by omega
  unfold dayBounds
  dsimp only
  rw [hstart]

section open_days

variable {cfg : ScrapeConfig} {st : ScrapeState} {call : PlanCall} {url : List Char} {k : ℕ}

/-- The days enumerated for a block are the open days in it. -/
theorem mem_openDays (hday : SameDay call) (hfloor : cfg.minDate % 86400 = 0)
    {day : List Char × ℕ × ℕ} :
    day ∈ openDays cfg st call url k ↔
      ∃ start, day = (dateText (start / 86400 : ℕ), start, start + 86400) ∧
        OpenDay cfg st (dayStart call.now) url start ∧ InBlock (dayStart call.now) k start := by
  have htoday := dayStart_aligned call.now
  obtain ⟨hlo, hhi⟩ := blockWindow_aligned htoday k
  have hle := blockWindow_le (dayStart call.now) k
  have hmin : min (blockWindow (dayStart call.now) k).2 (dayStart call.now) =
      (blockWindow (dayStart call.now) k).2 := min_eq_left hle
  unfold openDays
  dsimp only
  rw [hmin]
  unfold InBlock
  generalize (blockWindow (dayStart call.now) k).2 = hi at *
  generalize (blockWindow (dayStart call.now) k).1 = lo at *
  have hmax : max lo cfg.minDate % 86400 = 0 := by omega
  rw [List.mem_filterMap]
  constructor
  · rintro ⟨off, hoff, hsome⟩
    rw [List.mem_range] at hoff
    -- the days are numbered from the lower end of the block
    have hstart : max lo cfg.minDate + off * 86400 < hi := by omega
    have hbounds := dayBounds_back (call.clock url k off) (max lo cfg.minDate + off * 86400)
      (by omega) (by rw [hday]; omega)
    rw [hday] at hbounds
    rw [hbounds] at hsome
    dsimp only at hsome
    rw [if_neg (by omega)] at hsome
    split at hsome
    case isTrue => cases hsome
    case isFalse hnot =>
      cases hsome
      refine ⟨max lo cfg.minDate + off * 86400, rfl, ⟨by omega, by omega, by omega, ?_⟩, by omega,
        hstart⟩
      exact Bool.eq_false_iff.mpr hnot
  · rintro ⟨start, rfl, hopen, hin⟩
    have halign := hopen.aligned
    have hge := hopen.floor
    refine ⟨(start - max lo cfg.minDate) / 86400, ?_, ?_⟩
    · rw [List.mem_range]
      omega
    · -- the number of the day, and back
      have hback : max lo cfg.minDate + (start - max lo cfg.minDate) / 86400 * 86400 = start := by
        omega
      rw [hback]
      have hbounds := dayBounds_back (call.clock url k ((start - max lo cfg.minDate) / 86400)) start
        halign (by rw [hday]; omega)
      rw [hday] at hbounds
      rw [hbounds]
      dsimp only
      rw [if_neg (by omega), hopen.notDone]
      rfl

end open_days

/-! ## The walk of one relay -/

theorem choose_eq_none {α : Type*} {xs : List α} {draw : ℕ} : choose xs draw = none ↔ xs = [] := by
  unfold choose
  rw [List.getElem?_eq_none_iff]
  constructor
  · intro hle
    by_contra hne
    have hpos : 0 < xs.length := List.length_pos_of_ne_nil hne
    exact absurd hle (not_le.mpr (Nat.mod_lt draw hpos))
  · rintro rfl
    exact Nat.zero_le _

theorem mem_of_choose {α : Type*} {xs : List α} {draw : ℕ} {x : α} (h : choose xs draw = some x) :
    x ∈ xs :=
  List.mem_of_getElem? h

/-- The walk stops at the first block with something in it, or at the floor. -/
theorem walkBlocks_spec {α : Type*} (todayStart minDate : ℕ) (openIn : ℕ → List α) (draw k : ℕ) :
    ∃ j, k ≤ j ∧ (∀ i, k ≤ i → i < j → openIn i = []) ∧
      ((∃ day ∈ openIn j,
          walkBlocks todayStart minDate openIn draw k = (.block j, some day)) ∨
        (blockWindow todayStart j).2 ≤ minDate ∧
          walkBlocks todayStart minDate openIn draw k = (.parked, none)) := by
  fun_induction walkBlocks todayStart minDate openIn draw k with
  | case1 k hfloor => exact ⟨k, le_rfl, fun i hi hlt => by omega, Or.inr ⟨hfloor, rfl⟩⟩
  | case2 k hfloor day hday =>
    exact ⟨k, le_rfl, fun i hi hlt => by omega, Or.inl ⟨day, mem_of_choose hday, rfl⟩⟩
  | case3 k hfloor hnone ih =>
    obtain ⟨j, hj, hempty, hend⟩ := ih
    refine ⟨j, by omega, fun i hi hlt => ?_, hend⟩
    rcases Nat.eq_or_lt_of_le hi with rfl | hi
    · exact choose_eq_none.mp hnone
    · exact hempty i hi hlt

section walk

variable {cfg : ScrapeConfig} {st : ScrapeState} {call : PlanCall} {url : List Char}

/-- Blocks without open days are passed. -/
theorem open_below (hday : SameDay call) (hfloor : cfg.minDate % 86400 = 0) {k j : ℕ}
    (hkj : k ≤ j) {start : ℕ} (hk : start < (blockWindow (dayStart call.now) k).2)
    (hempty : ∀ i, k ≤ i → i < j → openDays cfg st call url i = [])
    (hopen : OpenDay cfg st (dayStart call.now) url start) :
    start < (blockWindow (dayStart call.now) j).2 := by
  induction j, hkj using Nat.le_induction with
  | base => exact hk
  | succ j hj ih =>
    have hlt := ih fun i hi hij => hempty i hi (by omega)
    by_contra hge
    rw [blockWindow_succ] at hge
    have hmem : (dateText (start / 86400 : ℕ), start, start + 86400) ∈
        openDays cfg st call url j :=
      (mem_openDays hday hfloor).mpr ⟨start, rfl, hopen, not_lt.mp hge, hlt⟩
    rw [hempty j hj (Nat.lt_succ_self j)] at hmem
    cases hmem

/-- Blocks do not overlap. -/
theorem blockWindow_antitone (todayStart : ℕ) {i j : ℕ} (h : i ≤ j) :
    (blockWindow todayStart j).2 ≤ (blockWindow todayStart i).2 := by
  unfold blockWindow BLOCK_DAYS
  dsimp only
  omega

/-- **The walk of one relay.** From a position that means what it says the walk draws from the
newest block with an open day, and draws nothing only when there is none; and the new position means
what it says. -/
theorem walkFrom_spec (hday : SameDay call) (hfloor : cfg.minDate % 86400 = 0)
    {pos : Option BlockPos} (hpos : CursorOk cfg st (dayStart call.now) url pos) :
    (∀ day, (walkFrom cfg st call url pos).2 = some day →
      ∃ start k, day = (dateText (start / 86400 : ℕ), start, start + 86400) ∧
        OpenDay cfg st (dayStart call.now) url start ∧ InBlock (dayStart call.now) k start ∧
        NewestOpenBlock cfg st (dayStart call.now) url k) ∧
      ((walkFrom cfg st call url pos).2 = none →
        ∀ start, ¬ OpenDay cfg st (dayStart call.now) url start) ∧
      CursorOk cfg st (dayStart call.now) url (some (walkFrom cfg st call url pos).1) := by
  unfold walkFrom
  unfold CursorOk at hpos
  cases hp : pos.getD (.block 0) with
  | parked =>
    rw [hp] at hpos
    exact ⟨fun day h => (by cases h), fun _ => hpos, hpos⟩
  | block k =>
    rw [hp] at hpos
    dsimp only at hpos ⊢
    obtain ⟨j, hkj, hempty, hend⟩ := walkBlocks_spec (dayStart call.now) cfg.minDate
      (openDays cfg st call url) (call.draw url) k
    have hbelow : ∀ start, OpenDay cfg st (dayStart call.now) url start →
        start < (blockWindow (dayStart call.now) j).2 :=
      fun start hopen => open_below hday hfloor hkj (hpos start hopen) hempty hopen
    rcases hend with ⟨day, hmem, heq⟩ | ⟨hstop, heq⟩
    · rw [heq]
      obtain ⟨start, hdate, hopen, hin⟩ := (mem_openDays hday hfloor).mp hmem
      refine ⟨?_, fun h => (by cases h), hbelow⟩
      intro day' hday'
      cases hday'
      refine ⟨start, j, hdate, hopen, hin, ⟨start, hopen, hin⟩, ?_⟩
      intro i hij start' hopen' hin'
      -- a newer block is above what the cursor has passed
      have hlt := hbelow start' hopen'
      have hanti := blockWindow_antitone (dayStart call.now) (Nat.succ_le_of_lt hij)
      rw [Nat.succ_eq_add_one, blockWindow_succ] at hanti
      exact absurd (lt_of_lt_of_le hlt hanti) (not_lt.mpr hin'.1)
    · rw [heq]
      have hnone : ∀ start, ¬ OpenDay cfg st (dayStart call.now) url start := by
        intro start hopen
        have hlt := hbelow start hopen
        have hge := hopen.floor
        omega
      exact ⟨fun day h => (by cases h), fun _ => hnone, hnone⟩

end walk

/-! ## A batch -/

/-- The walk of a relay in a call made from `p`. -/
def walkOf (cfg : ScrapeConfig) (p : Pass) (call : PlanCall) (url : List Char) :
    BlockPos × Option (List Char × ℕ × ℕ) :=
  walkFrom cfg p.state call url (p.blocks url)

/-- What a relay adds to the batch. -/
def drawOf (cfg : ScrapeConfig) (p : Pass) (call : PlanCall) (t : List Char × RelayInfo) :
    List RelayDay :=
  ((walkOf cfg p call t.1).2.map (relayDay t.1 t.2)).toList

/-- A batch after the relays `done` of the order: it is made of the draws of the relays looked at,
which are those not passed over, up to where the batch is full. -/
structure Planned (cfg : ScrapeConfig) (p : Pass) (call : PlanCall) (done : List ℕ) (q : Plan) :
    Prop where
  out : q.out = q.looked.flatMap (drawOf cfg p call)
  walked : ∀ t ∈ q.looked, q.blocks t.1 = some (walkOf cfg p call t.1).1
  other : ∀ url, url ∉ q.looked.map Prod.fst → q.blocks url = p.blocks url
  nodup : (q.looked.map Prod.fst).Nodup
  looked : ∀ t ∈ q.looked, skips call.now p.inFlight t.1 t.2 = false ∧
    ∃ i ∈ done, call.targets[i]? = some t
  length_le : q.out.length ≤ call.limit
  all : q.out.length < call.limit → ∀ i ∈ done, ∀ t, call.targets[i]? = some t →
    skips call.now p.inFlight t.1 t.2 = false → t ∈ q.looked

section batch

variable {cfg : ScrapeConfig} {p : Pass} {call : PlanCall}

/-- Relays at different places have different URLs. -/
theorem PlanCall.index_eq {i j : ℕ} {t u : List Char × RelayInfo} (hi : call.targets[i]? = some t)
    (hj : call.targets[j]? = some u) (h : t.1 = u.1) : i = j := by
  have hi' : (call.targets.map Prod.fst)[i]? = some t.1 := by rw [List.getElem?_map, hi]; rfl
  have hj' : (call.targets.map Prod.fst)[j]? = some t.1 := by rw [List.getElem?_map, hj, h]; rfl
  obtain ⟨hilt, _⟩ := List.getElem?_eq_some_iff.mp hi'
  exact (List.getElem?_inj hilt call.urls).mp (hi'.trans hj'.symm)

/-- Relays that are skipped, or that a full batch does not come to, change nothing. -/
theorem Planned.pass_over {done more : List ℕ} {q : Plan} (hq : Planned cfg p call done q)
    (hmore : q.out.length < call.limit → ∀ i ∈ more, ∀ t, call.targets[i]? = some t →
      skips call.now p.inFlight t.1 t.2 = true) : Planned cfg p call (done ++ more) q := by
  refine ⟨hq.out, hq.walked, hq.other, hq.nodup, fun t htl => ?_, hq.length_le, ?_⟩
  · obtain ⟨hno, i, hi, hit⟩ := hq.looked t htl
    exact ⟨hno, i, List.mem_append_left _ hi, hit⟩
  · intro hroom i hi t hit hno
    rcases List.mem_append.mp hi with hi | hi
    · exact hq.all hroom i hi t hit hno
    · rw [hmore hroom i hi t hit] at hno
      cases hno

/-- One relay of the order. -/
theorem Planned.planRelay {done : List ℕ} {q : Plan} (hq : Planned cfg p call done q) {idx : ℕ}
    (hnew : idx ∉ done) (hroom : q.out.length < call.limit) {url : List Char} {info : RelayInfo}
    (ht : call.targets[idx]? = some (url, info)) :
    Planned cfg p call (done ++ [idx]) (planRelay cfg p call url info q) := by
  unfold Indexer.planRelay
  cases hskip : skips call.now p.inFlight url info with
  | true =>
    rw [if_pos rfl]
    apply hq.pass_over
    intro _ i hi t hit
    rw [List.mem_singleton.mp hi, ht] at hit
    cases hit
    exact hskip
  | false =>
    rw [if_neg Bool.false_ne_true]
    dsimp only
    -- its cursor has not been touched in this batch
    have hfresh : url ∉ q.looked.map Prod.fst := by
      intro hmem
      obtain ⟨t, htl, hturl⟩ := List.mem_map.mp hmem
      obtain ⟨_, i, hi, hit⟩ := hq.looked t htl
      exact hnew (PlanCall.index_eq hit ht hturl ▸ hi)
    have hpos : q.blocks url = p.blocks url := hq.other url hfresh
    have hwalk : walkFrom cfg p.state call url (q.blocks url) = walkOf cfg p call url := by
      rw [hpos, walkOf]
    rw [hwalk]
    refine ⟨?_, ?_, ?_, ?_, ?_, ?_, ?_⟩
    · show q.out ++ drawOf cfg p call (url, info) = _
      rw [hq.out, List.flatMap_append, List.flatMap_singleton]
    · intro t htl
      show Function.update q.blocks url (some (walkOf cfg p call url).1) t.1 = _
      rcases List.mem_append.mp htl with htl | htl
      · have hne : t.1 ≠ url := fun heq => hfresh (heq ▸ List.mem_map_of_mem htl)
        rw [Function.update_of_ne hne]
        exact hq.walked t htl
      · rw [List.mem_singleton] at htl
        subst htl
        exact Function.update_self _ _ _
    · intro url' hout
      show Function.update q.blocks url (some (walkOf cfg p call url).1) url' = _
      rw [List.map_append, List.mem_append, not_or] at hout
      have hne : url' ≠ url := by simpa using hout.2
      rw [Function.update_of_ne hne]
      exact hq.other url' hout.1
    · show ((q.looked ++ [(url, info)]).map Prod.fst).Nodup
      rw [List.map_append, List.nodup_append']
      refine ⟨hq.nodup, List.nodup_singleton _, ?_⟩
      intro u hu hu'
      rw [List.map_singleton, List.mem_singleton] at hu'
      subst hu'
      exact hfresh hu
    · intro t htl
      rcases List.mem_append.mp htl with htl | htl
      · obtain ⟨hno, i, hi, hit⟩ := hq.looked t htl
        exact ⟨hno, i, List.mem_append_left _ hi, hit⟩
      · rw [List.mem_singleton] at htl
        subst htl
        exact ⟨hskip, idx, List.mem_append_right _ (List.mem_singleton_self idx), ht⟩
    · show (q.out ++ drawOf cfg p call (url, info)).length ≤ call.limit
      have hone : (drawOf cfg p call (url, info)).length ≤ 1 := by
        unfold drawOf
        exact Option.length_toList_le
      rw [List.length_append]
      omega
    · intro _ i hi t hit hno
      rcases List.mem_append.mp hi with hi | hi
      · exact List.mem_append_left _ (hq.all hroom i hi t hit hno)
      · rw [List.mem_singleton.mp hi, ht] at hit
        cases hit
        exact List.mem_append_right _ (List.mem_singleton_self _)

theorem Planned.planOrder {done rest : List ℕ} {q : Plan} (hq : Planned cfg p call done q)
    (hnodup : (done ++ rest).Nodup) :
    Planned cfg p call (done ++ rest) (planOrder cfg p call rest q) := by
  induction rest generalizing done q with
  | nil =>
    rw [List.append_nil]
    exact hq
  | cons idx rest ih =>
    have hsplit : done ++ idx :: rest = (done ++ [idx]) ++ rest := by simp
    have hnew : idx ∉ done := by
      intro hmem
      exact (List.nodup_append'.mp hnodup).2.2 hmem List.mem_cons_self
    rw [Indexer.planOrder]
    split
    case isTrue hfull => exact hq.pass_over fun hroom => absurd hfull (not_le.mpr hroom)
    case isFalse hroom =>
      rw [hsplit] at hnodup ⊢
      split
      case h_1 hnone =>
        refine ih (hq.pass_over fun _ i hi t hit => ?_) hnodup
        rw [List.mem_singleton.mp hi, hnone] at hit
        cases hit
      case h_2 url info ht =>
        exact ih (hq.planRelay hnew (not_le.mp hroom) ht) hnodup

/-- **What a call does.** -/
theorem planned_planBatch (cfg : ScrapeConfig) (p : Pass) (call : PlanCall) :
    Planned cfg p call call.order (planBatch cfg p call) := by
  have hstart : Planned cfg p call [] { out := [], blocks := p.blocks, looked := [] } := by
    refine ⟨rfl, fun t ht => ?_, fun _ _ => rfl, List.nodup_nil, fun t ht => ?_, Nat.zero_le _,
      fun _ i hi => ?_⟩
    · cases ht
    · cases ht
    · cases hi
  exact hstart.planOrder (call.shuffled.nodup_iff.mpr List.nodup_range)

/-- A relay that may be drawn. -/
structure Drawable (p : Pass) (now : ℕ) (t : List Char × RelayInfo) : Prop where
  notInFlight : t.1 ∉ p.inFlight
  notDead : ∀ until', t.2.deadUntil = some until' → until' ≤ now
  notBackingOff : t.2.fails = 0 ∨
    min (t.2.lastFail + failBackoffSecs t.2.fails) (2 ^ 64 - 1) ≤ now
  isRelay : t.2.nip11 ≠ some false

theorem skips_eq_false_iff {p : Pass} {now : ℕ} {t : List Char × RelayInfo} :
    skips now p.inFlight t.1 t.2 = false ↔ Drawable p now t := by
  unfold skips RelayInfo.backsOff
  rw [Bool.or_eq_false_iff, Bool.or_eq_false_iff, Bool.or_eq_false_iff, decide_eq_false_iff_not,
    decide_eq_false_iff_not, decide_eq_false_iff_not, Option.any_eq_false]
  constructor
  · rintro ⟨⟨⟨hdead, hback⟩, hflight⟩, hnip⟩
    refine ⟨hflight, fun u hu => ?_, ?_, hnip⟩
    · exact not_lt.mp (of_decide_eq_false (hdead u hu))
    · by_contra hno
      rw [not_or, not_le] at hno
      exact hback ⟨Nat.pos_of_ne_zero hno.1, hno.2⟩
  · intro h
    refine ⟨⟨⟨fun u hu => ?_, ?_⟩, h.notInFlight⟩, h.isRelay⟩
    · exact decide_eq_false (not_lt.mpr (h.notDead u hu))
    · rintro ⟨hpos, hlt⟩
      rcases h.notBackingOff with hzero | hle
      · omega
      · exact absurd hlt (not_lt.mpr hle)

/-- The draws of a batch are those of the relays looked at. -/
theorem Planned.mem_out {done : List ℕ} {q : Plan} (hq : Planned cfg p call done q)
    {e : RelayDay} (he : e ∈ q.out) :
    ∃ day, (e.url, e.info) ∈ q.looked ∧ (walkOf cfg p call e.url).2 = some day ∧
      e.date = day.1 ∧ e.start = day.2.1 ∧ e.stop = day.2.2 := by
  rw [hq.out, List.mem_flatMap] at he
  obtain ⟨t, ht, het⟩ := he
  unfold drawOf at het
  rw [Option.mem_toList, Option.map_eq_some_iff] at het
  obtain ⟨day, hday, rfl⟩ := het
  exact ⟨day, ht, hday, rfl, rfl, rfl⟩

/-- A relay looked at whose walk finds a day is in the batch. -/
theorem Planned.url_mem_out {done : List ℕ} {q : Plan} (hq : Planned cfg p call done q)
    {t : List Char × RelayInfo} (ht : t ∈ q.looked) {day : List Char × ℕ × ℕ}
    (hday : (walkOf cfg p call t.1).2 = some day) : t.1 ∈ q.out.map RelayDay.url := by
  rw [List.mem_map]
  refine ⟨relayDay t.1 t.2 day, ?_, rfl⟩
  rw [hq.out, List.mem_flatMap]
  refine ⟨t, ht, ?_⟩
  rw [drawOf, hday]
  exact List.mem_singleton_self _

theorem Planned.nodup_out {done : List ℕ} {q : Plan} (hq : Planned cfg p call done q) :
    (q.out.map RelayDay.url).Nodup := by
  have hurl : ∀ t : List Char × RelayInfo,
      ((drawOf cfg p call t).map RelayDay.url).Sublist [t.1] := by
    intro t
    unfold drawOf
    cases (walkOf cfg p call t.1).2 with
    | none => exact List.nil_sublist _
    | some day => exact List.Sublist.refl _
  have hsub : ∀ ts : List (List Char × RelayInfo),
      ((ts.flatMap (drawOf cfg p call)).map RelayDay.url).Sublist (ts.map Prod.fst) := by
    intro ts
    induction ts with
    | nil => exact List.Sublist.refl _
    | cons t ts ih =>
      rw [List.flatMap_cons, List.map_append, List.map_cons, ← List.singleton_append]
      exact (hurl t).append ih
  rw [hq.out]
  exact hq.nodup.sublist (hsub q.looked)

end batch

/-- What a batch is to be: at most `limit` entries, each of another relay that may be drawn, with an
open day in the newest block in which it has one; and if there was room for more, then the other
relays that may be drawn have nothing open at all. -/
structure GoodBatch (cfg : ScrapeConfig) (p : Pass) (call : PlanCall) : Prop where
  length_le : (planBatch cfg p call).out.length ≤ call.limit
  nodup : ((planBatch cfg p call).out.map RelayDay.url).Nodup
  entry : ∀ e ∈ (planBatch cfg p call).out,
    (e.url, e.info) ∈ call.targets ∧ Drawable p call.now (e.url, e.info) ∧
      e.date = dateText (e.start / 86400 : ℕ) ∧ e.stop = e.start + 86400 ∧
      OpenDay cfg p.state (dayStart call.now) e.url e.start ∧
      ∃ k, InBlock (dayStart call.now) k e.start ∧
        NewestOpenBlock cfg p.state (dayStart call.now) e.url k
  complete : (planBatch cfg p call).out.length < call.limit → ∀ t ∈ call.targets,
    Drawable p call.now t → t.1 ∉ (planBatch cfg p call).out.map RelayDay.url →
      ∀ start, ¬ OpenDay cfg p.state (dayStart call.now) t.1 start

/-- A call that finds positions which mean what they say plans a good batch. -/
theorem goodBatch_of_cursorOk {cfg : ScrapeConfig} {p : Pass} {call : PlanCall}
    (hday : SameDay call) (hfloor : cfg.minDate % 86400 = 0)
    (hpos : ∀ t ∈ (planBatch cfg p call).looked,
      CursorOk cfg p.state (dayStart call.now) t.1 (p.blocks t.1)) : GoodBatch cfg p call := by
  have hq := planned_planBatch cfg p call
  refine ⟨hq.length_le, hq.nodup_out, ?_, ?_⟩
  · intro e he
    obtain ⟨day, hlooked, hwalk, hdate, hstart, hstop⟩ := hq.mem_out he
    obtain ⟨hskip, i, _, hi⟩ := hq.looked _ hlooked
    obtain ⟨start, k, rfl, hopen, hin, hnewest⟩ :=
      (walkFrom_spec hday hfloor (hpos _ hlooked)).1 day hwalk
    dsimp only at hdate hstart hstop
    rw [hstart]
    exact ⟨List.mem_of_getElem? hi, skips_eq_false_iff.mp hskip, hdate, hstop, hopen, k, hin,
      hnewest⟩
  · intro hroom t ht hdraw hout
    obtain ⟨i, hi⟩ := List.mem_iff_getElem?.mp ht
    obtain ⟨hlt, _⟩ := List.getElem?_eq_some_iff.mp hi
    have hi' : i ∈ call.order := call.shuffled.mem_iff.mpr (List.mem_range.mpr hlt)
    have hlooked := hq.all hroom i hi' t hi (skips_eq_false_iff.mpr hdraw)
    have hspec := walkFrom_spec hday hfloor (hpos t hlooked)
    cases hwalk : (walkOf cfg p call t.1).2 with
    | none => exact hspec.2.1 hwalk
    | some day => exact absurd (hq.url_mem_out hlooked hwalk) hout

/-! ## A pass within one day -/

/-- Days that are recorded stay recorded, so open days were open before. -/
theorem OpenDay.mono {cfg : ScrapeConfig} {st st' : ScrapeState} {todayStart start : ℕ}
    {url : List Char} (h : ∀ date url, st.dayDone date url = true → st'.dayDone date url = true)
    (hopen : OpenDay cfg st' todayStart url start) : OpenDay cfg st todayStart url start := by
  refine ⟨hopen.aligned, hopen.floor, hopen.past, ?_⟩
  rw [Bool.eq_false_iff]
  intro hdone
  have hdone' := h _ _ hdone
  rw [hopen.notDone] at hdone'
  cases hdone'

theorem CursorOk.mono {cfg : ScrapeConfig} {st st' : ScrapeState} {todayStart : ℕ}
    {url : List Char} {pos : Option BlockPos}
    (h : ∀ date url, st.dayDone date url = true → st'.dayDone date url = true)
    (hpos : CursorOk cfg st todayStart url pos) : CursorOk cfg st' todayStart url pos := by
  unfold CursorOk at *
  cases hp : pos.getD (.block 0) with
  | parked =>
    rw [hp] at hpos
    exact fun start hopen => hpos start (hopen.mono h)
  | block k =>
    rw [hp] at hpos
    exact fun start hopen => hpos start (hopen.mono h)

/-- Finishing a unit undoes no day. -/
theorem recordDone_mono (info : RelayInfo) (date url : List Char) (start seen new now : ℕ)
    (st : ScrapeState) {date' url' : List Char} (h : st.dayDone date' url' = true) :
    (recordDone info date url start seen new now st).dayDone date' url' = true := by
  rw [recordDone, ScrapeState.putRelay_dayDone, ScrapeState.putDay_dayDone]
  split
  · rfl
  · exact h

/-- Every position means what it says, on the day given for its relay. -/
def CursorsOk (cfg : ScrapeConfig) (p : Pass) (onDay : List Char → ℕ) : Prop :=
  ∀ url, CursorOk cfg p.state (onDay url) url (p.blocks url)

theorem cursorsOk_start (cfg : ScrapeConfig) (st : ScrapeState) (onDay : List Char → ℕ) :
    CursorsOk cfg (passStart st) onDay := by
  intro url start hopen
  rw [blockWindow_zero]
  exact hopen.past

/-- A call that finds positions which mean what they say leaves such positions. -/
theorem cursorsOk_plan {cfg : ScrapeConfig} {p : Pass} {call : PlanCall} (hday : SameDay call)
    (hfloor : cfg.minDate % 86400 = 0)
    (hpos : ∀ t ∈ (planBatch cfg p call).looked,
      CursorOk cfg p.state (dayStart call.now) t.1 (p.blocks t.1)) (url : List Char) :
    if url ∈ (planBatch cfg p call).looked.map Prod.fst then
      CursorOk cfg p.state (dayStart call.now) url ((planBatch cfg p call).blocks url)
    else (planBatch cfg p call).blocks url = p.blocks url := by
  have hq := planned_planBatch cfg p call
  split
  case isTrue hmem =>
    obtain ⟨t, ht, rfl⟩ := List.mem_map.mp hmem
    rw [hq.walked t ht]
    exact (walkFrom_spec hday hfloor (hpos t ht)).2.2
  case isFalse hout => exact hq.other url hout

/-- **One step within a day.** -/
theorem cursorsOk_step {cfg : ScrapeConfig} (hfloor : cfg.minDate % 86400 = 0) {day : ℕ}
    {p p' : Pass} {a : PassAct} (hp : CursorsOk cfg p fun _ => day)
    (hday : ∀ call, a = .plan call → dayStart call.now = day ∧ SameDay call)
    (hstep : passStep cfg p a = some p') : CursorsOk cfg p' fun _ => day := by
  intro url
  cases a with
  | plan call =>
    obtain ⟨hnow, hsame⟩ := hday call rfl
    simp only [passStep] at hstep
    split at hstep
    case isFalse => cases hstep
    case isTrue =>
      cases hstep
      have hplan := cursorsOk_plan hsame hfloor (p := p) (fun t _ => hnow ▸ hp t.1) url
      show CursorOk cfg p.state day url ((planBatch cfg p call).blocks url)
      split at hplan
      case isTrue => exact hnow ▸ hplan
      case isFalse =>
        rw [hplan]
        exact hp url
  | start u =>
    cases hstep
    exact hp url
  | finish u date info start seen new now =>
    cases hstep
    exact (hp url).mono fun date' url' h => recordDone_mono info date u start seen new now _ h
  | fail u info =>
    cases hstep
    have hmono : ∀ date url', p.state.dayDone date url' = true →
        (p.state.putRelay u info).dayDone date url' = true := fun _ _ h => h
    exact (hp url).mono hmono

/-- **The planner is sound and complete.** After any number of calls on one day, with units started,
finished and failed in between, the next call on that day plans a good batch. -/
theorem plans_newest_open_days {cfg : ScrapeConfig} (hfloor : cfg.minDate % 86400 = 0)
    (st : ScrapeState) {day : ℕ} {as : List PassAct}
    (hday : ∀ call, PassAct.plan call ∈ as → dayStart call.now = day ∧ SameDay call) {p : Pass}
    (hrun : run (passStep cfg) (passStart st) as = some p) {call : PlanCall}
    (hnow : dayStart call.now = day) (hsame : SameDay call) : GoodBatch cfg p call := by
  have hok : Along (passStep cfg) (fun _ a => ∀ call, a = PassAct.plan call →
      dayStart call.now = day ∧ SameDay call) (passStart st) as :=
    along_of_mem fun a ha call heq => hday call (heq ▸ ha)
  have hp := run_invariant (fun p a p' hp hda hstep => cursorsOk_step hfloor hp hda hstep)
    (cursorsOk_start cfg st fun _ => day) hok hrun
  exact goodBatch_of_cursorOk hsame hfloor fun t _ => hnow ▸ hp t.1

/-- A call for one relay, at `now`. -/
def oneCall (url : List Char) (now : ℕ) : PlanCall where
  targets := [(url, {})]
  urls := List.nodup_singleton url
  limit := 1
  order := [0]
  shuffled := perm_range_one
  draw := fun _ => 0
  now := now
  clock := fun _ _ _ => now

/-- A first call on 2023-11-16, and the start of its unit. -/
def firstCall : List PassAct :=
  [.plan (oneCall "wss://r".toList (someDay + 90000)), .start "wss://r".toList]

/-- A second call on that day. -/
theorem plans_second_batch :
    ∃ p, run (passStep someConfig) (passStart blankState) firstCall = some p ∧
      GoodBatch someConfig p (oneCall "wss://q".toList (someDay + 90005)) := by
  have hday : ∀ call, PassAct.plan call ∈ firstCall →
      dayStart call.now = someDay + 86400 ∧ SameDay call := by
    intro call hcall
    rcases List.mem_cons.mp hcall with heq | hcall
    · cases heq
      exact ⟨by decide, fun _ _ _ => rfl⟩
    · cases List.mem_singleton.mp hcall
  exact ⟨_, rfl, @plans_newest_open_days someConfig (by decide) blankState (someDay + 86400)
    firstCall hday _ rfl (oneCall "wss://q".toList (someDay + 90005)) (by decide)
    (fun _ _ _ => rfl)⟩

end NostrSearch.Indexer
