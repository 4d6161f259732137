import NostrSearch.Indexer.ReqPages
import NostrSearch.Lib.Tiling

/-!
# The windows of a reconciled day

The window loop of `scrape_day` takes the hours of the day, newest first, and splits a window whose
set may be truncated. `Tiled` is what every turn keeps: the windows on the stack lie end to end
from the start of the day to the point where the accepted ones begin, and those reach to its end.
It does not depend on what the relay answers or on the ceiling learned so far; the ceiling only
decides how far a window is split (`windows_tile_day`).
-/

namespace NostrSearch.Indexer

open NostrSearch.Core NostrSearch.Lib

variable {W : Type*}

/-! ## What a turn does -/

section turns

variable {net : Client W} {sink : Sink W} {floorSecs : ℕ} {s s' : NegState W}

/-- The window on top of the stack is split in two. -/
structure Splits (floorSecs : ℕ) (s s' : NegState W) (lo hi : ℕ) (rest : List (ℕ × ℕ)) : Prop where
  wide : floorSecs ≤ (hi - lo) / 2
  stack : s'.stack = (lo + (hi - lo) / 2, hi) :: (lo, lo + (hi - lo) / 2) :: rest
  accepted : s'.accepted = s.accepted
  passed : s'.day.passed = s.day.passed

/-- The window on top of the stack is accepted, with the ids `remote`, and what the sink is missing
of them is fetched. -/
structure Accepts (net : Client W) (sink : Sink W) (floorSecs : ℕ) (s s' : NegState W) (lo hi : ℕ)
    (rest : List (ℕ × ℕ)) (remote : List String) : Prop where
  kept : (s.day.info.learn remote.length).splits floorSecs lo hi remote.length = false
  stack : s'.stack = rest
  fetched : ∃ w d, d.passed = s.day.passed ∧
    fetchChunks net sink (chunks GAP_CHUNK (sink.missing remote w).1) d = (.ok (), s'.day) ∧
    s'.accepted =
      { lo := lo, hi := hi, remote := remote, missing := (sink.missing remote w).1 } :: s.accepted

theorem acceptWindow_again {lo hi : ℕ} {remote : List String}
    (h : acceptWindow net sink lo hi remote s = .again s') :
    s'.stack = s.stack ∧ s'.day.info = s.day.info ∧
      ∃ w d, d.passed = s.day.passed ∧
        fetchChunks net sink (chunks GAP_CHUNK (sink.missing remote w).1) d = (.ok (), s'.day) ∧
        s'.accepted =
          { lo := lo, hi := hi, remote := remote, missing := (sink.missing remote w).1 } ::
            s.accepted := by
  rw [acceptWindow] at h
  split at h
  case h_1 => cases h
  case h_2 day hfetch =>
    cases h
    refine ⟨rfl, ?_, s.day.world, { s.day with
      world := (sink.missing remote s.day.world).2
      seen := s.day.seen + remote.length }, rfl, hfetch, rfl⟩
    have hinfo := congrArg (fun out => out.2.info) hfetch
    rw [fetchChunks_info] at hinfo
    exact hinfo.symm

theorem acceptWindow_leave {lo hi : ℕ} {remote : List String} {out : NegEnd × NegState W}
    (h : acceptWindow net sink lo hi remote s = .leave out) :
    (∃ e, out.1 = .failed e) ∧ out.2.accepted = s.accepted := by
  rw [acceptWindow] at h
  split at h
  case h_1 e day hfetch =>
    cases h
    exact ⟨⟨e, rfl⟩, rfl⟩
  case h_2 => cases h

/-- A turn that goes round again reconciled the window on top of the stack, and split or accepted
it. -/
theorem negTurn_again (h : negTurn net sink floorSecs s = .again s') :
    ∃ lo hi rest out w, s.stack = (lo, hi) :: rest ∧
      syncWindow net sink lo hi s.day.world = (.ok out, w) ∧
      s'.day.info = s.day.info.learn out.remote.length ∧
      (Splits floorSecs s s' lo hi rest ∨
        Accepts net sink floorSecs s s' lo hi rest out.remote) := by
  rw [negTurn] at h
  split at h
  case h_1 => cases h
  case h_2 lo hi rest hstack =>
    split at h
    case h_2 => cases h
    case h_1 out w hsync =>
      refine ⟨lo, hi, rest, out, w, hstack, hsync, ?_⟩
      by_cases hsplit : (s.day.info.learn out.remote.length).splits floorSecs lo hi
        out.remote.length = true
      · simp only [hsplit, if_true] at h
        cases h
        have hwide : floorSecs ≤ (hi - lo) / 2 := (of_decide_eq_true hsplit).2
        exact ⟨rfl, Or.inl ⟨hwide, rfl, rfl, rfl⟩⟩
      · rw [Bool.not_eq_true] at hsplit
        simp only [hsplit, Bool.false_eq_true, if_false] at h
        obtain ⟨hstack', hinfo, hfetched⟩ := acceptWindow_again h
        exact ⟨hinfo, Or.inr ⟨hsplit, hstack', hfetched⟩⟩

/-- Leaving the loop accepts no window, and it is left with `finished` when the stack is empty. -/
theorem negTurn_leave {out : NegEnd × NegState W}
    (h : negTurn net sink floorSecs s = .leave out) :
    out.2.accepted = s.accepted ∧
      (out.1 = .finished → s.stack = [] ∧ out.2.day.passed = s.day.passed) := by
  rw [negTurn] at h
  split at h
  case h_1 hstack =>
    cases h
    exact ⟨rfl, fun _ => ⟨hstack, rfl⟩⟩
  case h_2 lo hi rest hstack =>
    split at h
    case h_1 out' w hsync =>
      dsimp only at h
      split at h
      case isTrue => cases h
      case isFalse =>
        obtain ⟨⟨e, he⟩, hacc⟩ := acceptWindow_leave h
        exact ⟨hacc, fun hfin => by rw [he] at hfin; cases hfin⟩
    case h_2 msg w hsync =>
      cases h
      rw [giveUp]
      split
      case isTrue => exact ⟨rfl, fun hfin => by cases hfin⟩
      case isFalse =>
        split
        case isTrue => exact ⟨rfl, fun hfin => by cases hfin⟩
        case isFalse => exact ⟨rfl, fun hfin => by cases hfin⟩

end turns

/-! ## Windows end to end -/

/-- A window that was accepted, without its ids. -/
def Accepted.window (a : Accepted) : ℕ × ℕ := (a.lo, a.hi)

/-- The stack lies end to end from `start` to where the accepted windows begin, and these reach to
`stop`. -/
def Tiled (start stop : ℕ) (s : NegState W) : Prop :=
  ∃ mid, Tiles start s.stack.reverse mid ∧ Tiles mid (s.accepted.map Accepted.window) stop

theorem tiles_hourWindows {s stop : ℕ} (h : s ≤ stop) : Tiles s (hourWindows s stop) stop := by
  fun_induction hourWindows s stop with
  | case1 s hlt e ih =>
    have hle : e ≤ stop := Nat.min_le_right _ _
    have hpos : 0 < NEG_WINDOW_SECS := by decide
    have hlt' : s < e := by
      show s < min (s + NEG_WINDOW_SECS) stop
      omega
    exact ⟨rfl, hlt', ih hle⟩
  | case2 s hge =>
    show s = stop
    omega

theorem tiled_start {start stop : ℕ} (h : start ≤ stop) (d : DayRun W) :
    Tiled start stop (negStart start stop d) := by
  refine ⟨stop, ?_, rfl⟩
  show Tiles start (hourWindows start stop).reverse.reverse stop
  rw [List.reverse_reverse]
  exact tiles_hourWindows h

/-- The work that is left: a window of `n` seconds can be visited `2 * n - 1` times, itself and its
parts. -/
def work (stack : List (ℕ × ℕ)) : ℕ := (stack.map fun w => 2 * (w.2 - w.1) - 1).sum

/-- **One turn.** The windows stay end to end, and there is less work left. -/
theorem tiled_again {net : Client W} {sink : Sink W} {floorSecs start stop : ℕ}
    (hfloor : 0 < floorSecs) {s s' : NegState W} (hs : Tiled start stop s)
    (h : negTurn net sink floorSecs s = .again s') :
    Tiled start stop s' ∧ work s'.stack < work s.stack := by
  obtain ⟨lo, hi, rest, out, w, hstack, _, _, hcase⟩ := negTurn_again h
  obtain ⟨mid, hleft, hright⟩ := hs
  rw [hstack, List.reverse_cons] at hleft
  obtain ⟨hrest, hne, hhi⟩ := tiles_concat.mp hleft
  rcases hcase with hsplit | hacc
  · have hwide := hsplit.wide
    have hlo : lo < lo + (hi - lo) / 2 := by omega
    have hmid : lo + (hi - lo) / 2 < hi := by omega
    refine ⟨⟨mid, ?_, ?_⟩, ?_⟩
    · rw [hsplit.stack, List.reverse_cons, List.reverse_cons]
      exact hleft.split hlo hmid
    · rw [hsplit.accepted]
      exact hright
    · rw [hsplit.stack, hstack, work, work]
      simp only [List.map_cons, List.sum_cons]
      omega
  · obtain ⟨_, _, _, _, haccepted⟩ := hacc.fetched
    refine ⟨⟨lo, ?_, ?_⟩, ?_⟩
    · rw [hacc.stack]
      exact hrest
    · rw [haccepted]
      exact ⟨rfl, hne, hhi ▸ hright⟩
    · rw [hacc.stack, hstack, work, work, List.map_cons, List.sum_cons]
      have hpos : 0 < hi - lo := by
        have hlt : lo < hi := hne
        omega
      show _ < 2 * (hi - lo) - 1 + _
      omega

/-- A stack that has been worked off has left windows that lie end to end over the whole day. -/
theorem accepted_tile {net : Client W} {sink : Sink W} {floorSecs start stop : ℕ}
    (hfloor : 1 ≤ floorSecs) (hday : start ≤ stop) {d : DayRun W} {turns : ℕ} {s : NegState W}
    (hloop : negBranch net sink floorSecs start stop turns d = some (.finished, s)) :
    Tiles start (s.accepted.map Accepted.window) stop := by
  have hrule := @loop_rule _ _ (negTurn net sink floorSecs) (Tiled start stop)
    (fun out => out.1 = .finished → Tiles start (out.2.accepted.map Accepted.window) stop)
    (fun s s' hs h => (tiled_again hfloor hs h).1) ?_ turns _ _ (tiled_start hday d) hloop
  · exact hrule rfl
  · rintro s out ⟨mid, hleft, hright⟩ hleave hfin
    obtain ⟨hacc, hdone⟩ := negTurn_leave hleave
    rw [(hdone hfin).1] at hleft
    have hmid : start = mid := hleft
    rw [hacc, hmid]
    exact hright

/-- Every second of a finished day is in an accepted window. -/
theorem exists_accepted {net : Client W} {sink : Sink W} {floorSecs start stop : ℕ}
    (hfloor : 1 ≤ floorSecs) (hday : start ≤ stop) {d : DayRun W} {turns : ℕ} {s : NegState W}
    (hloop : negBranch net sink floorSecs start stop turns d = some (.finished, s)) {t : ℕ}
    (hstart : start ≤ t) (hstop : t < stop) : ∃ a ∈ s.accepted, a.lo ≤ t ∧ t < a.hi := by
  obtain ⟨w, hw, hlo, hhi⟩ := (accepted_tile hfloor hday hloop).exists_mem hstart hstop
  obtain ⟨a, ha, rfl⟩ := List.mem_map.mp hw
  exact ⟨a, ha, hlo, hhi⟩

/-! ## The ceiling -/

/-- The relay presents its ids in a window, but no more than `C` of them. -/
def PresentsAtMost (net : Client W) (r : RelayStore) (C : ℕ) : Prop :=
  ∀ lo hi items w out w', net.sync lo hi items w = (.ok out, w') →
    out.remote.length = min C (r.within lo hi).length

/-- No accepted window that could have been split holds more than `C` events. -/
def Untruncated (r : RelayStore) (floorSecs C : ℕ) (accepted : List Accepted) : Prop :=
  ∀ a ∈ accepted, C < (r.within a.lo (a.hi - 1)).length → (a.hi - a.lo) / 2 < floorSecs

theorem syncWindow_ok {net : Client W} {sink : Sink W} {lo hi : ℕ} {w w' : W}
    {out : Reconciliation} (h : syncWindow net sink lo hi w = (.ok out, w')) :
    ∃ items w₁, net.sync lo (hi - 1) items w₁ = (.ok out, w') := by
  rw [syncWindow] at h
  dsimp only at h
  split at h
  case h_1 => cases h
  case h_2 w₁ _ => exact ⟨_, w₁, h⟩

/-- A set of `C` ids reaches the ceiling of a relay that never presented more, so its window is
split as long as it can be. -/
theorem untruncated_again {net : Client W} {sink : Sink W} {r : RelayStore} {floorSecs C : ℕ}
    (hC : NEG_CAP_FLOOR ≤ C) (hrelay : PresentsAtMost net r C) {s s' : NegState W}
    (hs : s.day.info.negCap ≤ C ∧ Untruncated r floorSecs C s.accepted)
    (h : negTurn net sink floorSecs s = .again s') :
    s'.day.info.negCap ≤ C ∧ Untruncated r floorSecs C s'.accepted := by
  obtain ⟨hcap, hacc⟩ := hs
  obtain ⟨lo, hi, rest, out, w, _, hsync, hinfo, hcase⟩ := negTurn_again h
  obtain ⟨items, w₁, hnet⟩ := syncWindow_ok hsync
  have hn : out.remote.length = min C (r.within lo (hi - 1)).length := hrelay _ _ _ _ _ _ hnet
  have hmod : out.remote.length % 2 ^ 32 ≤ out.remote.length := Nat.mod_le _ _
  have hlearn : (s.day.info.learn out.remote.length).negCap ≤ C := by
    show max s.day.info.negCap (out.remote.length % 2 ^ 32) ≤ C
    omega
  refine ⟨hinfo ▸ hlearn, ?_⟩
  rcases hcase with hsplit | hkeep
  · rw [hsplit.accepted]
    exact hacc
  · obtain ⟨_, _, _, _, haccepted⟩ := hkeep.fetched
    rw [haccepted]
    intro a ha
    rcases List.mem_cons.mp ha with rfl | ha
    · intro hmore
      have hfull : out.remote.length = C := by
        have hlt : C < (r.within lo (hi - 1)).length := hmore
        omega
      have hkept : ¬ (max (s.day.info.learn out.remote.length).negCap NEG_CAP_FLOOR ≤
          out.remote.length ∧ floorSecs ≤ (hi - lo) / 2) := of_decide_eq_false hkeep.kept
      by_contra hwide
      exact hkept ⟨by omega, not_lt.mp hwide⟩
    · exact hacc a ha

/-- **The windows of a day.** The window loop ends; where it ends with the stack empty, the accepted
windows lie end to end over the whole day; and of a relay that cuts every set at `C` ids, and never
presented more, no window that could have been split is accepted with more than `C` events in it. -/
theorem windows_tile_day (net : Client W) (sink : Sink W) {floorSecs start stop : ℕ}
    (hfloor : 1 ≤ floorSecs) (hday : start ≤ stop) (d : DayRun W) :
    (∃ n, ∀ turns, n ≤ turns → ∃ out, negBranch net sink floorSecs start stop turns d = some out) ∧
      (∀ turns s, negBranch net sink floorSecs start stop turns d = some (.finished, s) →
        Tiles start (s.accepted.map Accepted.window) stop) ∧
      ∀ r C, NEG_CAP_FLOOR ≤ C → d.info.negCap ≤ C → PresentsAtMost net r C →
        ∀ turns out, negBranch net sink floorSecs start stop turns d = some out →
          Untruncated r floorSecs C out.2.accepted := by
  have hstart := tiled_start hday d
  refine ⟨?_, ?_, ?_⟩
  · exact loop_ends (fun s : NegState W => work s.stack)
      (fun s s' hs h => tiled_again hfloor hs h) hstart
  · exact fun turns s hloop => accepted_tile hfloor hday hloop
  · intro r C hC hcap hrelay turns out hloop
    refine @loop_rule _ _ (negTurn net sink floorSecs)
      (fun s => s.day.info.negCap ≤ C ∧ Untruncated r floorSecs C s.accepted)
      (fun out => Untruncated r floorSecs C out.2.accepted)
      (fun s s' hs h => untruncated_again hC hrelay hs h) ?_ turns _ _ ⟨hcap, ?_⟩ hloop
    · rintro s out ⟨_, hacc⟩ hleave
      rw [(negTurn_leave hleave).1]
      exact hacc
    · intro a ha
      cases ha

/-! ## A ceiling from elsewhere -/

/-- A relay that presents no more than `C` ids of a window. -/
def cappedRelay (r : RelayStore) (C : ℕ) : Client Unit where
  relay w := (.ok (), w)
  sync lo hi _ w :=
    (.ok ⟨((r.within lo hi).map NostrEvent.id).take C,
      (((r.nodup_within lo hi).map_on fun _ hx _ hy => RelayStore.eq_of_id
        (RelayStore.mem_within.mp hx).1 (RelayStore.mem_within.mp hy).1).sublist
          (List.take_sublist C _))⟩, w)
  req f w := (.ok (answer (newestPage r C f)), w)
  toLowercase := asciiLower

/-- A sink that has everything. -/
def fullSink : Sink Unit where
  missing _ w := ([], w)
  localItems _ _ w := ([], w)
  process _ w := (0, w)

theorem presentsAtMost_cappedRelay (r : RelayStore) (C : ℕ) :
    PresentsAtMost (cappedRelay r C) r C := by
  intro lo hi items w out w' h
  cases h
  rw [List.length_take, List.length_map]

private theorem acceptWindow_fullSink (net : Client Unit) (lo hi : ℕ) (remote : List String)
    (s : NegState Unit) : acceptWindow net fullSink lo hi remote s = .again { s with
      day := { s.day with seen := s.day.seen + remote.length }
      syncedAny := true
      accepted := { lo := lo, hi := hi, remote := remote, missing := [] } :: s.accepted } := by
  have hnone : chunks GAP_CHUNK ([] : List String) = [] := rfl
  simp only [acceptWindow, fullSink, hnone, fetchChunks]

/-- With a larger ceiling on record no set looks truncated: every window is accepted as it is. -/
theorem accepts_every_window (r : RelayStore) (C floorSecs : ℕ) (stack : List (ℕ × ℕ))
    (s : NegState Unit) (hstack : s.stack = stack) (hcap : C < s.day.info.negCap) :
    ∃ s', loop (negTurn (cappedRelay r C) fullSink floorSecs) (stack.length + 1) s =
        some (.finished, s') ∧ s.accepted ⊆ s'.accepted ∧
      ∀ w ∈ stack, ∃ a ∈ s'.accepted, a.window = w := by
  induction stack generalizing s with
  | nil =>
    refine ⟨s, ?_, List.Subset.refl _, fun w hw => by cases hw⟩
    have hleave : negTurn (cappedRelay r C) fullSink floorSecs s = .leave (.finished, s) := by
      rw [negTurn, hstack]
    exact loop_leave hleave 0
  | cons w rest ih =>
    obtain ⟨lo, hi⟩ := w
    set ids := ((r.within lo (hi - 1)).map NostrEvent.id).take C with hids
    have hlen : ids.length ≤ C := by
      rw [hids, List.length_take]
      exact Nat.min_le_left _ _
    -- the ceiling on record is larger than the set
    have hsplit : (s.day.info.learn ids.length).splits floorSecs lo hi ids.length = false := by
      apply decide_eq_false
      rintro ⟨hle, _⟩
      have hmax : s.day.info.negCap ≤ (s.day.info.learn ids.length).negCap := Nat.le_max_left _ _
      omega
    have hagain : negTurn (cappedRelay r C) fullSink floorSecs s = .again { s with
        stack := rest
        day := { s.day with
          info := s.day.info.learn ids.length
          seen := s.day.seen + ids.length }
        syncedAny := true
        accepted := { lo := lo, hi := hi, remote := ids, missing := [] } :: s.accepted } := by
      rw [negTurn, hstack]
      show (if (s.day.info.learn ids.length).splits floorSecs lo hi ids.length = true then _
        else acceptWindow _ _ _ _ ids _) = _
      rw [if_neg (by rw [hsplit]; exact Bool.false_ne_true), acceptWindow_fullSink]
    obtain ⟨s', hloop, hsub, hall⟩ := ih { s with
        stack := rest
        day := { s.day with
          info := s.day.info.learn ids.length
          seen := s.day.seen + ids.length }
        syncedAny := true
        accepted := { lo := lo, hi := hi, remote := ids, missing := [] } :: s.accepted } rfl
      (lt_of_lt_of_le hcap (Nat.le_max_left _ _))
    refine ⟨s', ?_, fun a ha => hsub (List.mem_cons_of_mem _ ha), ?_⟩
    · rw [List.length_cons, loop_again hagain]
      exact hloop
    · intro w hw
      rcases List.mem_cons.mp hw with rfl | hw
      · exact ⟨_, hsub List.mem_cons_self, rfl⟩
      · exact hall w hw

/-- So many events in the first second of a day. -/
def burstStore (n : ℕ) : RelayStore where
  events := (List.range n).map fun i => plainEvent (String.ofList (List.replicate i 'a')) someDay
  ids := by
    rw [List.map_map]
    refine List.Nodup.map (fun i j h => ?_) List.nodup_range
    have hlen := congrArg (fun s : String => s.toList.length) h
    simpa [plainEvent] using hlen

theorem within_burstStore (n : ℕ) {lo hi : ℕ} (hlo : lo ≤ someDay) (hhi : someDay ≤ hi) :
    ((burstStore n).within lo hi).length = n := by
  have hall : (burstStore n).within lo hi = (burstStore n).events := by
    apply List.filter_eq_self.mpr
    intro e he
    obtain ⟨i, _, rfl⟩ := List.mem_map.mp he
    exact decide_eq_true ⟨hlo, hhi⟩
  rw [hall]
  show ((List.range n).map _).length = n
  rw [List.length_map, List.length_range]

/-- A relay that now cuts its sets at 5000 ids, with a record of a set of 10000: the hour that holds
5001 events is accepted, though it could have been split. -/
theorem accepts_truncated_hour :
    PresentsAtMost (cappedRelay (burstStore 5001) 5000) (burstStore 5001) 5000 ∧
      NEG_CAP_FLOOR ≤ 5000 ∧
      ∃ turns s, negBranch (cappedRelay (burstStore 5001) 5000) fullSink 600 someDay
          (someDay + 86400) turns { world := (), info := { negCap := 10000 } } =
            some (.finished, s) ∧
        ¬ Untruncated (burstStore 5001) 600 5000 s.accepted := by
  refine ⟨presentsAtMost_cappedRelay _ _, le_rfl, ?_⟩
  obtain ⟨s, hloop, _, hall⟩ := accepts_every_window (burstStore 5001) 5000 600
    (hourWindows someDay (someDay + 86400)).reverse
    (negStart someDay (someDay + 86400) { world := (), info := { negCap := 10000 } }) rfl
    (by decide)
  refine ⟨_, s, hloop, fun huntruncated => ?_⟩
  have hfirst : (someDay, someDay + 3600) ∈ hourWindows someDay (someDay + 86400) := by
    rw [hourWindows, if_pos (by decide)]
    exact List.mem_cons_self
  obtain ⟨a, ha, hwindow⟩ := hall _ (List.mem_reverse.mpr hfirst)
  obtain ⟨hlo, hhi⟩ := Prod.mk.inj hwindow
  have hhalf := huntruncated a ha (by
    rw [within_burstStore 5001 (le_of_eq hlo) (by omega)]
    decide)
  omega

/-- The same relay met for the first time. -/
theorem burst_day_tiled :
    (∃ n, ∀ turns, n ≤ turns → ∃ out, negBranch (cappedRelay (burstStore 5001) 5000) fullSink 600
        someDay (someDay + 86400) turns { world := (), info := {} } = some out) ∧
      (∀ turns s, negBranch (cappedRelay (burstStore 5001) 5000) fullSink 600 someDay
          (someDay + 86400) turns { world := (), info := {} } = some (.finished, s) →
        Tiles someDay (s.accepted.map Accepted.window) (someDay + 86400)) ∧
      ∀ turns out, negBranch (cappedRelay (burstStore 5001) 5000) fullSink 600 someDay
          (someDay + 86400) turns { world := (), info := {} } = some out →
        Untruncated (burstStore 5001) 600 5000 out.2.accepted := by
  obtain ⟨hends, htiles, hcut⟩ := windows_tile_day (cappedRelay (burstStore 5001) 5000) fullSink
    (by decide : 1 ≤ 600) (by decide : someDay ≤ someDay + 86400) { world := (), info := {} }
  exact ⟨hends, htiles,
    hcut _ 5000 le_rfl (Nat.zero_le 5000) (presentsAtMost_cappedRelay (burstStore 5001) 5000)⟩

end NostrSearch.Indexer
