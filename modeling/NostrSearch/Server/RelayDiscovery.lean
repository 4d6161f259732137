import NostrSearch.Indexer.RelayScan
import NostrSearch.Indexer.StateDb
import NostrSearch.Stats.RelayCounts

/-!
# The discovery loop

Between two passes the scraper asks for relays, if that is due, and pins some. When it last did so
successfully is read from the state database, not kept in memory: a node that restarts does not ask
again for that reason alone (`discovery_spaced`). It asks the `relays` report, and scans the index
if the report has nothing. A turn of the loop deletes nothing, and of a relay that is known it
changes the number of its sources only (`turn_exact`).

Writes of units and of the admin API come between any two steps. `done` is a history variable.
-/

namespace NostrSearch.Server

open NostrSearch.Core NostrSearch.Lib NostrSearch.Indexer NostrSearch.Stats

def USIZE_MAX : ℕ := 2 ^ 64 - 1

structure ScraperOptions where
  maxRelays : ℕ
  minSources : ℕ
  pinnedRelays : List (List Char)
  rediscoverSecs : ℕ

/-- What can be asked. There is no report if the writer does not answer. -/
structure TargetSources where
  report : Option Relays
  index : IndexRoot

/-- `relay_targets`. -/
def relayTargets (report : Option Relays) : List (List Char × ℕ) :=
  (report.map fun s => s.ranked.map fun t => (t.1.toList, t.2)).getD []

/-- The report is preferred. -/
def TargetSources.found (p : ScanRules) (src : TargetSources) : Option (List (List Char × ℕ)) :=
  if relayTargets src.report = [] then discoverRelays p src.index
  else some (relayTargets src.report)

namespace ScraperOptions

variable (opts : ScraperOptions)

def due (db : StateDb) (now : ℕ) : Bool :=
  db.lastDiscovery.all fun t => decide (opts.rediscoverSecs ≤ now - t)

def atMost : ℕ := if opts.maxRelays = 0 then USIZE_MAX else opts.maxRelays

/-- The relays that are taken over. -/
def kept (found : List (List Char × ℕ)) : List (List Char × ℕ) :=
  cutRanking opts.minSources opts.atMost found

/-- Their records, with `sources` in 32 bits. -/
def rows (db : StateDb) (found : List (List Char × ℕ)) : RelayTable :=
  discovered (fun url => (db.relays.find? fun r => decide (r.1 = url)).map Prod.snd)
    ((opts.kept found).map fun f => (f.1, f.2 % 2 ^ 32))

end ScraperOptions

/-- A relay is pinned, if it is not known by that or almost that URL. -/
def pinRelay (db : StateDb) (url : List Char) : StateDb :=
  if db.relays.any fun r => decide (trimSlashes r.1 = trimSlashes url) then db
  else db.putRelay (trimSlashes url) {}

inductive DiscoveryStage
  | idle
  /-- discovery is due -/
  | asking (now : UInt64)
  | writing (rows : RelayTable) (now : UInt64)
  | pinning (urls : List (List Char))
  | passing

structure Discoverer where
  db : StateDb
  stage : DiscoveryStage
  /-- When the discoveries that were completed began, the last of them first. -/
  done : List UInt64

inductive LoopAct
  | wake (now : UInt64)
  | answer (src : TargetSources)
  /-- the next record is written, or the time -/
  | put
  | pin
  | leave

inductive DiscoveryAct
  | loop (l : LoopAct)
  | restart
  /-- a write of another task -/
  | other (a : DbAct)

/-- Discovery alone records its time. -/
def isForeign : DbAct → Bool
  | .discovered _ => false
  | _ => true

section defs

variable (opts : ScraperOptions) (p : ScanRules)

/-- One step of the task that discovers. -/
def loopStep (s : Discoverer) : LoopAct → Option Discoverer
  | .wake now =>
    match s.stage with
    | .idle =>
      if opts.due s.db now.toNat || s.db.relays.isEmpty then some { s with stage := .asking now }
      else some { s with stage := .pinning opts.pinnedRelays }
    | _ => none
  | .answer src =>
    match s.stage with
    | .asking now =>
      match src.found p with
      | none => some { s with stage := .pinning opts.pinnedRelays }
      | some found => some { s with stage := .writing (opts.rows s.db found) now }
    | _ => none
  | .put =>
    match s.stage with
    | .writing ((url, info) :: rows) now =>
      some { s with db := s.db.putRelay url info, stage := .writing rows now }
    | .writing [] now =>
      some { db := s.db.setLastDiscovery now.toNat, stage := .pinning opts.pinnedRelays,
             done := now :: s.done }
    | _ => none
  | .pin =>
    match s.stage with
    | .pinning (url :: urls) => some { s with db := pinRelay s.db url, stage := .pinning urls }
    | .pinning [] => some { s with stage := .passing }
    | _ => none
  | .leave =>
    match s.stage with
    | .passing => some { s with stage := .idle }
    | _ => none

/-- One step of the node, as far as it is about discovery. -/
def discoveryStep (s : Discoverer) : DiscoveryAct → Option Discoverer
  | .loop l => loopStep opts p s l
  | .restart => some { s with stage := .idle }
  | .other a => if isForeign a then some { s with db := a.onDb s.db } else none

end defs

/-! ## What is written -/

section db

variable {db : StateDb}

theorem relays_ne_nil : db.relays ≠ [] ↔ ∃ url, (db.toState.relays url).isSome := by
  rw [Ne, List.eq_nil_iff_forall_not_mem, not_forall]
  constructor
  · rintro ⟨⟨url, info⟩, h⟩
    exact ⟨url, by rw [StateDb.mem_relays.mp (not_not.mp h)]; rfl⟩
  · rintro ⟨url, h⟩
    obtain ⟨info, hinfo⟩ := Option.isSome_iff_exists.mp h
    exact ⟨(url, info), not_not.mpr (StateDb.mem_relays.mpr hinfo)⟩

theorem find_relays (db : StateDb) (url : List Char) :
    (db.relays.find? fun r => decide (r.1 = url)).map Prod.snd = db.toState.relays url := by
  cases h : db.relays.find? fun r => decide (r.1 = url) with
  | none =>
    rw [Option.map_none]
    cases hurl : db.toState.relays url with
    | none => rfl
    | some info =>
      have hmem := List.find?_eq_none.mp h (url, info) (StateDb.mem_relays.mpr hurl)
      exact absurd (decide_eq_true rfl) hmem
  | some r =>
    obtain ⟨u, info⟩ := r
    have hu : u = url := of_decide_eq_true
      (List.find?_some (p := fun r : List Char × RelayInfo => decide (r.1 = url)) h)
    rw [← hu, StateDb.mem_relays.mp (List.mem_of_find?_eq_some h), Option.map_some]

/-- No write takes a relay away. -/
theorem isSome_onDb (a : DbAct) {url : List Char} (h : (db.toState.relays url).isSome) :
    ((a.onDb db).toState.relays url).isSome := by
  have hput : ∀ (st : ScrapeState) (u : List Char) (info : RelayInfo),
      (st.relays url).isSome → ((st.putRelay u info).relays url).isSome := by
    intro st u info hst
    rw [ScrapeState.putRelay_relays, Function.update_apply]
    split
    case isTrue => rfl
    case isFalse => exact hst
  rw [show (a.onDb db).toState = (a.onState (db.toState, db.lastDiscovery)).1 from
    congrArg Prod.fst (StateDb.refines_step db a)]
  cases a with
  | putRelay u info hfits => exact hput _ u info h
  | putDay date u d => exact h
  | resetRelay u =>
    show (((db.toState.resetRelay u).getD db.toState).relays url).isSome
    rw [ScrapeState.resetRelay]
    cases db.toState.relays u with
    | none => exact h
    | some old => exact hput _ u _ h
  | resetDays f => exact h
  | discovered unix => exact h

theorem lastDiscovery_onDb {a : DbAct} (ha : isForeign a = true) :
    (a.onDb db).lastDiscovery = db.lastDiscovery := by
  rw [show (a.onDb db).lastDiscovery = (a.onState (db.toState, db.lastDiscovery)).2 from
    congrArg Prod.snd (StateDb.refines_step db a)]
  cases a with
  | discovered unix => cases ha
  | _ => rfl

/-- A pin is written under no URL that is known. -/
theorem pinRelay_cases (db : StateDb) (url : List Char) :
    (∃ r ∈ db.relays, trimSlashes r.1 = trimSlashes url) ∧ pinRelay db url = db ∨
      (¬ ∃ r ∈ db.relays, trimSlashes r.1 = trimSlashes url) ∧
        pinRelay db url = (DbAct.putRelay (trimSlashes url) {} fits_default).onDb db := by
  unfold pinRelay
  split
  case isTrue h =>
    rw [List.any_eq_true] at h
    obtain ⟨r, hr, heq⟩ := h
    exact Or.inl ⟨⟨r, hr, of_decide_eq_true heq⟩, rfl⟩
  case isFalse h =>
    refine Or.inr ⟨?_, rfl⟩
    rintro ⟨r, hr, heq⟩
    exact h (List.any_eq_true.mpr ⟨r, hr, decide_eq_true heq⟩)

/-- The records that are written fit. -/
theorem fits_rows (opts : ScraperOptions) (db : StateDb) (found : List (List Char × ℕ)) :
    ∀ r ∈ opts.rows db found, Fits r.2 := by
  intro r hr
  obtain ⟨f, hf, rfl⟩ := List.mem_map.mp hr
  obtain ⟨k, -, rfl⟩ := List.mem_map.mp hf
  have hlt : k.2 % 2 ^ 32 < 2 ^ 32 := Nat.mod_lt _ (Nat.two_pow_pos 32)
  dsimp only
  rw [find_relays]
  cases h : db.toState.relays k.1 with
  | none => exact fits_default.withSources hlt
  | some info =>
    rw [StateDb.toState_relays, Option.bind_eq_some_iff] at h
    obtain ⟨v, -, hv⟩ := h
    exact (fits_of_decode hv).withSources hlt

end db

/-! ## How often is asked -/

/-- What holds in a run that began with a relay on record. -/
structure Sound (opts : ScraperOptions) (start : Option ℕ) (s : Discoverer) : Prop where
  known : s.db.relays ≠ []
  last : s.db.lastDiscovery = (s.done.map UInt64.toNat ++ start.toList).head?
  spaced : (s.done.map UInt64.toNat ++ start.toList).Pairwise fun later earlier =>
    opts.rediscoverSecs ≤ later - earlier
  due : ∀ now, (s.stage = .asking now ∨ ∃ rows, s.stage = .writing rows now) →
    opts.due s.db now.toNat = true
  fits : ∀ rows now, s.stage = .writing rows now → ∀ r ∈ rows, Fits r.2

variable {opts : ScraperOptions} {p : ScanRules} {start : Option ℕ} {s s' u : Discoverer}

theorem due_iff {db : StateDb} {now : ℕ} :
    opts.due db now = true ↔ ∀ t ∈ db.lastDiscovery, opts.rediscoverSecs ≤ now - t := by
  rw [ScraperOptions.due, Option.all_eq_true]
  exact forall₂_congr fun t _ => decide_eq_true_iff

/-- A write that does not record a discovery. -/
theorem Sound.write (h : Sound opts start s) {a : DbAct} (ha : isForeign a = true)
    {stage : DiscoveryStage}
    (hdue : ∀ now, (stage = .asking now ∨ ∃ rows, stage = .writing rows now) →
      opts.due s.db now.toNat = true)
    (hfits : ∀ rows now, stage = .writing rows now → ∀ r ∈ rows, Fits r.2) :
    Sound opts start { s with db := a.onDb s.db, stage } where
  known := by
    obtain ⟨url, hurl⟩ := relays_ne_nil.mp h.known
    exact relays_ne_nil.mpr ⟨url, isSome_onDb a hurl⟩
  last := (lastDiscovery_onDb ha).trans h.last
  spaced := h.spaced
  due now hnow := by
    rw [due_iff, lastDiscovery_onDb ha, ← due_iff]
    exact hdue now hnow
  fits := hfits

/-- A move that writes nothing. -/
theorem Sound.move (h : Sound opts start s) {stage : DiscoveryStage}
    (hdue : ∀ now, (stage = .asking now ∨ ∃ rows, stage = .writing rows now) →
      opts.due s.db now.toNat = true)
    (hfits : ∀ rows now, stage = .writing rows now → ∀ r ∈ rows, Fits r.2) :
    Sound opts start { s with stage } :=
  { h with due := hdue, fits := hfits }

/-- Nothing is asked or written in the other stages. -/
theorem Sound.away (h : Sound opts start s) {stage : DiscoveryStage}
    (hasking : ∀ now, stage ≠ .asking now) (hwriting : ∀ rows now, stage ≠ .writing rows now) :
    Sound opts start { s with stage } := by
  refine h.move (fun now hnow => ?_) fun rows now heq => absurd heq (hwriting rows now)
  rcases hnow with heq | ⟨rows, heq⟩
  · exact absurd heq (hasking now)
  · exact absurd heq (hwriting rows now)

theorem Sound.complete (h : Sound opts start s) {now : UInt64}
    (hnow : opts.due s.db now.toNat = true) :
    Sound opts start { db := s.db.setLastDiscovery now.toNat, stage := .pinning opts.pinnedRelays,
                       done := now :: s.done } where
  known := by
    obtain ⟨url, hurl⟩ := relays_ne_nil.mp h.known
    refine relays_ne_nil.mpr ⟨url, ?_⟩
    rwa [StateDb.toState_setLastDiscovery]
  last := StateDb.lastDiscovery_set s.db now
  spaced := by
    rw [List.map_cons, List.cons_append, List.pairwise_cons]
    refine ⟨fun t ht => ?_, h.spaced⟩
    -- the last time is the largest, and it is long ago
    rw [due_iff, h.last] at hnow
    have hspaced := h.spaced
    cases htimes : s.done.map UInt64.toNat ++ start.toList with
    | nil =>
      rw [htimes] at ht
      exact absurd ht List.not_mem_nil
    | cons last times =>
      rw [htimes, List.pairwise_cons] at hspaced
      rw [htimes, List.head?_cons] at hnow
      have hlast := hnow last rfl
      rw [htimes] at ht
      rcases List.mem_cons.mp ht with rfl | ht
      · exact hlast
      · have hearlier := hspaced.1 t ht
        omega
  due now' hnow' := by
    rcases hnow' with heq | ⟨rows, heq⟩ <;> cases heq
  fits rows now' heq := by cases heq

/-- What the loop does in one step. -/
inductive LoopMove (opts : ScraperOptions) (p : ScanRules) (s : Discoverer) :
    LoopAct → Discoverer → Prop
  | ask (now : UInt64) (hstage : s.stage = .idle)
      (hdue : opts.due s.db now.toNat = true ∨ s.db.relays = []) :
      LoopMove opts p s (.wake now) { s with stage := .asking now }
  | skip (now : UInt64) (hstage : s.stage = .idle)
      (hdue : ¬ (opts.due s.db now.toNat = true ∨ s.db.relays = [])) :
      LoopMove opts p s (.wake now) { s with stage := .pinning opts.pinnedRelays }
  | failed (src : TargetSources) (now : UInt64) (hstage : s.stage = .asking now)
      (hfound : src.found p = none) :
      LoopMove opts p s (.answer src) { s with stage := .pinning opts.pinnedRelays }
  | found (src : TargetSources) (now : UInt64) (found : List (List Char × ℕ))
      (hstage : s.stage = .asking now) (hfound : src.found p = some found) :
      LoopMove opts p s (.answer src) { s with stage := .writing (opts.rows s.db found) now }
  | put (url : List Char) (info : RelayInfo) (rows : RelayTable) (now : UInt64)
      (hstage : s.stage = .writing ((url, info) :: rows) now) :
      LoopMove opts p s .put { s with db := s.db.putRelay url info, stage := .writing rows now }
  | complete (now : UInt64) (hstage : s.stage = .writing [] now) :
      LoopMove opts p s .put { db := s.db.setLastDiscovery now.toNat,
                               stage := .pinning opts.pinnedRelays, done := now :: s.done }
  | pin (url : List Char) (urls : List (List Char)) (hstage : s.stage = .pinning (url :: urls)) :
      LoopMove opts p s .pin { s with db := pinRelay s.db url, stage := .pinning urls }
  | pinned (hstage : s.stage = .pinning []) : LoopMove opts p s .pin { s with stage := .passing }
  | leave (hstage : s.stage = .passing) : LoopMove opts p s .leave { s with stage := .idle }

theorem loopMove {l : LoopAct} (hs : loopStep opts p s l = some s') : LoopMove opts p s l s' := by
  cases l with
  | wake now =>
    rw [loopStep] at hs
    split at hs
    case h_2 => cases hs
    case h_1 hstage =>
      split at hs
      case isTrue hdue =>
        cases hs
        rw [Bool.or_eq_true, List.isEmpty_iff] at hdue
        exact .ask now hstage hdue
      case isFalse hdue =>
        cases hs
        rw [Bool.or_eq_true, List.isEmpty_iff] at hdue
        exact .skip now hstage hdue
  | answer src =>
    rw [loopStep] at hs
    split at hs
    case h_2 => cases hs
    case h_1 now hstage =>
      split at hs
      case h_1 hfound =>
        cases hs
        exact .failed src now hstage hfound
      case h_2 found hfound =>
        cases hs
        exact .found src now found hstage hfound
  | put =>
    rw [loopStep] at hs
    split at hs
    case h_1 url info rows now hstage =>
      cases hs
      exact .put url info rows now hstage
    case h_2 now hstage =>
      cases hs
      exact .complete now hstage
    case h_3 => cases hs
  | pin =>
    rw [loopStep] at hs
    split at hs
    case h_1 url urls hstage =>
      cases hs
      exact .pin url urls hstage
    case h_2 hstage =>
      cases hs
      exact .pinned hstage
    case h_3 => cases hs
  | leave =>
    rw [loopStep] at hs
    split at hs
    case h_1 hstage =>
      cases hs
      exact .leave hstage
    case h_2 => cases hs

theorem sound_loop {l : LoopAct} (h : Sound opts start s) (hs : LoopMove opts p s l s') :
    Sound opts start s' := by
  cases hs with
  | ask now hstage hdue =>
    refine h.move (fun now' hnow' => ?_) fun rows now' heq => by cases heq
    rcases hnow' with heq | ⟨rows, heq⟩
    · cases heq
      exact hdue.resolve_right h.known
    · cases heq
  | skip => exact h.away (by rintro now ⟨⟩) (by rintro rows now ⟨⟩)
  | failed => exact h.away (by rintro now ⟨⟩) (by rintro rows now ⟨⟩)
  | found src now found hstage =>
    refine h.move (fun now' hnow' => ?_) fun rows now' heq => ?_
    · rcases hnow' with heq | ⟨rows, heq⟩
      · cases heq
      · cases heq
        exact h.due now (Or.inl hstage)
    · cases heq
      exact fits_rows opts s.db found
  | put url info rows now hstage =>
    have hfits := h.fits _ now hstage
    refine h.write (a := .putRelay url info (hfits _ List.mem_cons_self)) rfl (fun now' hnow' => ?_)
      fun rows' now' heq => ?_
    · rcases hnow' with heq | ⟨rows', heq⟩
      · cases heq
      · cases heq
        exact h.due now (Or.inr ⟨_, hstage⟩)
    · cases heq
      exact fun r hr => hfits r (List.mem_cons_of_mem _ hr)
  | complete now hstage => exact h.complete (h.due now (Or.inr ⟨_, hstage⟩))
  | pin url urls =>
    rcases pinRelay_cases s.db url with ⟨-, heq⟩ | ⟨-, heq⟩
    · rw [heq]
      exact h.away (by rintro now ⟨⟩) (by rintro rows now ⟨⟩)
    · rw [heq]
      refine h.write rfl (fun now hnow => ?_) fun rows now heq => by cases heq
      rcases hnow with heq | ⟨rows, heq⟩ <;> cases heq
  | pinned => exact h.away (by rintro now ⟨⟩) (by rintro rows now ⟨⟩)
  | leave => exact h.away (by rintro now ⟨⟩) (by rintro rows now ⟨⟩)

/-- No step takes a relay away. -/
theorem isSome_loop {l : LoopAct} {url : List Char} (h : Sound opts start s)
    (hs : LoopMove opts p s l s') (hurl : (s.db.toState.relays url).isSome) :
    (s'.db.toState.relays url).isSome := by
  cases hs with
  | put u info rows now hstage =>
    exact isSome_onDb (.putRelay u info (h.fits _ now hstage _ List.mem_cons_self)) hurl
  | complete now => exact isSome_onDb (.discovered now) hurl
  | pin u =>
    rcases pinRelay_cases s.db u with ⟨-, heq⟩ | ⟨-, heq⟩
    · rw [heq]
      exact hurl
    · rw [heq]
      exact isSome_onDb _ hurl
  | _ => exact hurl

/-- One step keeps what holds, and the relays that are known. -/
theorem sound_step {a : DiscoveryAct} {url : List Char}
    (h : Sound opts start s ∧ (s.db.toState.relays url).isSome)
    (hs : discoveryStep opts p s a = some s') :
    Sound opts start s' ∧ (s'.db.toState.relays url).isSome := by
  cases a with
  | loop l => exact ⟨sound_loop h.1 (loopMove hs), isSome_loop h.1 (loopMove hs) h.2⟩
  | restart =>
    cases hs
    exact ⟨h.1.away (by rintro now ⟨⟩) (by rintro rows now ⟨⟩), h.2⟩
  | other a =>
    rw [discoveryStep, Option.ite_none_right_eq_some] at hs
    obtain ⟨ha, hs⟩ := hs
    cases hs
    exact ⟨h.1.write ha h.1.due h.1.fits, isSome_onDb a h.2⟩

/-- **Discoveries are spaced.** Once a relay is on record, any two discoveries that are completed
are as far apart as they should be, however often the node restarts in between and whatever else is
written; whether another is due is decided by the last of them; and no relay is lost. -/
theorem discovery_spaced {as : List DiscoveryAct} (hidle : s.stage = .idle) (hdone : s.done = [])
    (hknown : s.db.relays ≠ []) (hrun : run (discoveryStep opts p) s as = some u) :
    let times := u.done.map UInt64.toNat ++ s.db.lastDiscovery.toList
    (times.Pairwise fun later earlier => opts.rediscoverSecs ≤ later - earlier) ∧
      u.db.lastDiscovery = times.head? ∧
      (∀ now u', discoveryStep opts p u (.loop (.wake now)) = some u' →
        (u'.stage = .asking now ↔ ∀ t ∈ times.head?, opts.rediscoverSecs ≤ now.toNat - t)) ∧
      ∀ url, (s.db.toState.relays url).isSome → (u.db.toState.relays url).isSome := by
  intro times
  have hstart : Sound opts s.db.lastDiscovery s := by
    refine ⟨hknown, ?_, ?_, ?_, ?_⟩
    · rw [hdone, List.map_nil, List.nil_append]
      cases s.db.lastDiscovery <;> rfl
    · rw [hdone, List.map_nil, List.nil_append]
      cases s.db.lastDiscovery with
      | none => exact List.Pairwise.nil
      | some t => exact List.pairwise_singleton _ t
    · rw [hidle]
      rintro now (heq | ⟨rows, heq⟩) <;> cases heq
    · rw [hidle]
      rintro rows now ⟨⟩
  have hrun' : ∀ url, (s.db.toState.relays url).isSome →
      Sound opts s.db.lastDiscovery u ∧ (u.db.toState.relays url).isSome := by
    intro url hurl
    exact @run_invariant' _ _ _
      (fun s' => Sound opts s.db.lastDiscovery s' ∧ (s'.db.toState.relays url).isSome)
      (fun s' a s'' h hs => sound_step h hs) s u as ⟨hstart, hurl⟩ hrun
  obtain ⟨url, hurl⟩ := relays_ne_nil.mp hknown
  have hsound := (hrun' url hurl).1
  refine ⟨hsound.spaced, hsound.last, fun now u' hs => ?_, fun url hurl => (hrun' url hurl).2⟩
  rw [← show u.db.lastDiscovery = times.head? from hsound.last, ← due_iff]
  have hmove : LoopMove opts p u (.wake now) u' := loopMove hs
  cases hmove with
  | ask _ _ hdue => exact iff_of_true rfl (hdue.resolve_right hsound.known)
  | skip _ _ hdue => exact iff_of_false (by rintro ⟨⟩) fun h => hdue (Or.inl h)

private def dailyOptions : ScraperOptions where
  maxRelays := 0
  minSources := 3
  pinnedRelays := []
  rediscoverSecs := 86400

private def plainRules : ScanRules where
  toLowercase := id
  isIp _ := false
  hash _ := 0

private def knownNode : Discoverer where
  db := StateDb.putRelay .empty "wss://r".toList {}
  stage := .idle
  done := []

private def askAndRestart : List DiscoveryAct :=
  [.loop (.wake 100), .loop (.answer { report := none, index := .absent }), .loop .put, .restart]

/-- A node that asked at second 100, and was restarted. -/
theorem spaced_over_restart : ∃ u : Discoverer,
    run (discoveryStep dailyOptions plainRules) knownNode askAndRestart = some u ∧
      u.db.lastDiscovery = some 100 := by
  refine ⟨_, rfl, ?_⟩
  have hknown : knownNode.db.relays ≠ [] :=
    relays_ne_nil.mpr ⟨"wss://r".toList, by
      rw [knownNode, StateDb.toState_putRelay _ _ fits_default, ScrapeState.putRelay_relays,
        Function.update_self]
      rfl⟩
  exact (@discovery_spaced dailyOptions plainRules knownNode _ askAndRestart rfl rfl hknown rfl).2.1

/-! ## What a turn changes -/

/-- The rest of a turn. -/
def pinAll (urls : List (List Char)) (db : StateDb) : StateDb := urls.foldl pinRelay db

def writeRows (rows : RelayTable) (db : StateDb) : StateDb :=
  rows.foldl (fun db r => db.putRelay r.1 r.2) db

section turn

variable (opts : ScraperOptions) (p : ScanRules) (src : TargetSources)

def completed (rows : RelayTable) (now : ℕ) (db : StateDb) : StateDb :=
  (writeRows rows db).setLastDiscovery now

/-- What the answer comes to. -/
def answered (now : ℕ) (db : StateDb) : StateDb :=
  (src.found p).elim db fun found => completed (opts.rows db found) now db

/-- The database at the end of the turn, if nobody else writes. -/
def Discoverer.finish (s : Discoverer) : StateDb :=
  match s.stage with
  | .idle => s.db
  | .asking now => pinAll opts.pinnedRelays (answered opts p src now.toNat s.db)
  | .writing rows now => pinAll opts.pinnedRelays (completed rows now.toNat s.db)
  | .pinning urls => pinAll urls s.db
  | .passing => s.db

end turn

variable {src : TargetSources}

theorem finish_loop {l : LoopAct} (hl : l = .answer src ∨ l = .put ∨ l = .pin)
    (hs : LoopMove opts p s l s') : s'.finish opts p src = s.finish opts p src := by
  cases hs with
  | ask => rcases hl with hl | hl | hl <;> cases hl
  | skip => rcases hl with hl | hl | hl <;> cases hl
  | leave => rcases hl with hl | hl | hl <;> cases hl
  | failed src' now hstage hfound =>
    rcases hl with hl | hl | hl <;> cases hl
    simp only [Discoverer.finish, hstage, answered, hfound, Option.elim_none]
  | found src' now found hstage hfound =>
    rcases hl with hl | hl | hl <;> cases hl
    simp only [Discoverer.finish, hstage, answered, hfound, Option.elim_some]
  | put url info rows now hstage =>
    simp only [Discoverer.finish, hstage]
    rfl
  | complete now hstage =>
    simp only [Discoverer.finish, hstage]
    rfl
  | pin url urls hstage =>
    simp only [Discoverer.finish, hstage]
    rfl
  | pinned hstage =>
    simp only [Discoverer.finish, hstage]
    rfl

/-- What pins change. -/
structure Pins (urls : List (List Char)) (db db' : StateDb) : Prop where
  days : db'.toState.days = db.toState.days
  last : db'.lastDiscovery = db.lastDiscovery
  known : ∀ url info, db.toState.relays url = some info → db'.toState.relays url = some info
  new : ∀ url info, db.toState.relays url = none → db'.toState.relays url = some info →
    info = {} ∧ (∃ pin ∈ urls, url = trimSlashes pin) ∧
      ∀ u, (db.toState.relays u).isSome → trimSlashes u ≠ url
  pinned : ∀ pin ∈ urls, ∃ url, (db'.toState.relays url).isSome ∧ trimSlashes url = trimSlashes pin

theorem trimSlashes_idem (url : List Char) : trimSlashes (trimSlashes url) = trimSlashes url :=
  List.rdropWhile_idempotent (fun c => decide (c = '/')) url

theorem Pins.nil (db : StateDb) : Pins [] db db where
  days := rfl
  last := rfl
  known _ _ h := h
  new url info hnone hsome := by
    rw [hnone] at hsome
    cases hsome
  pinned := List.forall_mem_nil _

theorem Pins.one (db : StateDb) (url : List Char) : Pins [url] db (pinRelay db url) := by
  have hknown : (∃ r ∈ db.relays, trimSlashes r.1 = trimSlashes url) ↔
      ∃ u, (db.toState.relays u).isSome ∧ trimSlashes u = trimSlashes url := by
    constructor
    · rintro ⟨⟨u, info⟩, hr, heq⟩
      exact ⟨u, by rw [StateDb.mem_relays.mp hr]; rfl, heq⟩
    · rintro ⟨u, hu, heq⟩
      obtain ⟨info, hinfo⟩ := Option.isSome_iff_exists.mp hu
      exact ⟨(u, info), StateDb.mem_relays.mpr hinfo, heq⟩
  rcases pinRelay_cases db url with ⟨hin, heq⟩ | ⟨hnew, heq⟩
  · rw [heq]
    refine { Pins.nil db with new := fun u info hnone hsome => ?_, pinned := ?_ }
    · rw [hnone] at hsome
      cases hsome
    · exact List.forall_mem_singleton.mpr (hknown.mp hin)
  · rw [hknown, not_exists] at hnew
    have hstate : (pinRelay db url).toState = db.toState.putRelay (trimSlashes url) {} := by
      rw [heq]
      exact StateDb.toState_putRelay db _ fits_default
    have hself : db.toState.relays (trimSlashes url) = none := by
      rw [← Option.not_isSome_iff_eq_none]
      exact fun h => hnew _ ⟨h, trimSlashes_idem url⟩
    refine ⟨by rw [hstate]; rfl, by rw [heq]; exact lastDiscovery_onDb rfl, ?_, ?_, ?_⟩
    · intro u info hu
      rw [hstate, ScrapeState.putRelay_relays, Function.update_of_ne]
      · exact hu
      · rintro rfl
        rw [hself] at hu
        cases hu
    · intro u info hnone hsome
      rw [hstate, ScrapeState.putRelay_relays] at hsome
      by_cases hu : u = trimSlashes url
      · rw [hu, Function.update_self, Option.some.injEq] at hsome
        exact ⟨hsome.symm, ⟨url, List.mem_singleton_self url, hu⟩,
          fun v hv hveq => hnew v ⟨hv, hveq.trans hu⟩⟩
      · rw [Function.update_of_ne hu, hnone] at hsome
        cases hsome
    · refine List.forall_mem_singleton.mpr ⟨trimSlashes url, ?_, trimSlashes_idem url⟩
      rw [hstate, ScrapeState.putRelay_relays, Function.update_self]
      rfl

theorem Pins.trans {urls urls' : List (List Char)} {db db' db'' : StateDb} (h : Pins urls db db')
    (h' : Pins urls' db' db'') : Pins (urls ++ urls') db db'' where
  days := h'.days.trans h.days
  last := h'.last.trans h.last
  known url info hinfo := h'.known url info (h.known url info hinfo)
  new url info hnone hsome := by
    cases hmid : db'.toState.relays url with
    | none =>
      obtain ⟨hinfo, ⟨pin, hpin, hurl⟩, hu⟩ := h'.new url info hmid hsome
      refine ⟨hinfo, ⟨pin, List.mem_append_right _ hpin, hurl⟩, fun u hsomeu => hu u ?_⟩
      obtain ⟨i, hi⟩ := Option.isSome_iff_exists.mp hsomeu
      rw [h.known u i hi]
      rfl
    | some mid =>
      have hmid' := h'.known url mid hmid
      rw [hsome, Option.some.injEq] at hmid'
      rw [hmid']
      obtain ⟨hinfo, ⟨pin, hpin, hurl⟩, hu⟩ := h.new url mid hnone hmid
      exact ⟨hinfo, ⟨pin, List.mem_append_left _ hpin, hurl⟩, hu⟩
  pinned pin hpin := by
    rcases List.mem_append.mp hpin with hpin | hpin
    · obtain ⟨url, hurl, heq⟩ := h.pinned pin hpin
      obtain ⟨i, hi⟩ := Option.isSome_iff_exists.mp hurl
      exact ⟨url, by rw [h'.known url i hi]; rfl, heq⟩
    · exact h'.pinned pin hpin

theorem pins_pinAll (urls : List (List Char)) (db : StateDb) : Pins urls db (pinAll urls db) := by
  induction urls generalizing db with
  | nil => exact Pins.nil db
  | cons url urls ih => exact (Pins.one db url).trans (ih (pinRelay db url))

/-! ### Records -/

section rows

variable {rows : RelayTable} {db : StateDb}

theorem toState_writeRows (hfits : ∀ r ∈ rows, Fits r.2) :
    (writeRows rows db).toState = rows.foldl (fun st r => st.putRelay r.1 r.2) db.toState := by
  induction rows generalizing db with
  | nil => rfl
  | cons r rows ih =>
    obtain ⟨hr, hrows⟩ := List.forall_mem_cons.mp hfits
    rw [List.foldl_cons, ← StateDb.toState_putRelay db r.1 hr, ← ih hrows]
    rfl

theorem days_putAll (st : ScrapeState) :
    (rows.foldl (fun st r => st.putRelay r.1 r.2) st).days = st.days := by
  induction rows generalizing st with
  | nil => rfl
  | cons r rows ih => exact ih (st.putRelay r.1 r.2)

theorem relays_putAll_of_notMem (st : ScrapeState) {url : List Char}
    (h : url ∉ rows.map Prod.fst) :
    (rows.foldl (fun st r => st.putRelay r.1 r.2) st).relays url = st.relays url := by
  induction rows generalizing st with
  | nil => rfl
  | cons r rows ih =>
    rw [List.map_cons, List.mem_cons, not_or] at h
    rw [List.foldl_cons, ih _ h.2, ScrapeState.putRelay_relays, Function.update_of_ne h.1]

theorem relays_putAll_of_mem (st : ScrapeState) {url : List Char} {info : RelayInfo}
    (hnodup : (rows.map Prod.fst).Nodup) (h : (url, info) ∈ rows) :
    (rows.foldl (fun st r => st.putRelay r.1 r.2) st).relays url = some info := by
  induction rows generalizing st with
  | nil => exact absurd h List.not_mem_nil
  | cons r rows ih =>
    rw [List.map_cons, List.nodup_cons] at hnodup
    rw [List.foldl_cons]
    rcases List.mem_cons.mp h with rfl | h
    · rw [relays_putAll_of_notMem _ hnodup.1, ScrapeState.putRelay_relays, Function.update_self]
    · exact ih _ hnodup.2 h

end rows

/-! ### What is found -/

/-- The order of texts is that of their characters. -/
theorem ranks_toList (a b : String × ℕ) :
    Ranks (a.1.toList, a.2) (b.1.toList, b.2) ↔ Ranks a b := by
  unfold Ranks
  rw [String.le_iff_toList_le]

theorem ranked_relayTargets (report : Option Relays) :
    (relayTargets report).Pairwise Ranks ∧ ((relayTargets report).map Prod.fst).Nodup := by
  cases report with
  | none => exact ⟨List.Pairwise.nil, List.nodup_nil⟩
  | some s =>
    rw [relayTargets, Option.map_some, Option.getD_some]
    constructor
    · rw [List.pairwise_map]
      exact (sorted_ranking (m := s.data)).imp fun {a b} h => (ranks_toList a b).mpr h
    · rw [List.map_map]
      have hnodup : (s.ranked.map Prod.fst).Nodup := nodup_ranking
      have hmap := hnodup.map (f := String.toList) fun _ _ h => String.toList_inj.mp h
      rwa [List.map_map] at hmap

theorem ranked_discoverRelays {root : IndexRoot} {l : List (List Char × ℕ)}
    (h : discoverRelays p root = some l) : l.Pairwise Ranks ∧ (l.map Prod.fst).Nodup := by
  cases root with
  | absent =>
    cases h
    exact ⟨List.Pairwise.nil, List.nodup_nil⟩
  | unreadable => cases h
  | dir entries =>
    obtain ⟨m, -, rfl⟩ := Option.map_eq_some_iff.mp h
    exact ⟨sorted_ranking, nodup_ranking⟩

/-- Either source answers with a ranking. -/
theorem ranked_found {l : List (List Char × ℕ)} (h : src.found p = some l) :
    l.Pairwise Ranks ∧ (l.map Prod.fst).Nodup := by
  rw [TargetSources.found] at h
  split at h
  case isTrue => exact ranked_discoverRelays h
  case isFalse =>
    cases h
    exact ranked_relayTargets src.report

theorem keys_rows (db : StateDb) (found : List (List Char × ℕ)) :
    (opts.rows db found).map Prod.fst = (opts.kept found).map Prod.fst := by
  rw [ScraperOptions.rows, discovered, List.map_map, List.map_map]
  rfl

theorem mem_rows {db : StateDb} {found : List (List Char × ℕ)} {url : List Char} {n : ℕ}
    (h : (url, n) ∈ opts.kept found) :
    (url, { (db.toState.relays url).getD {} with sources := n % 2 ^ 32 }) ∈ opts.rows db found := by
  rw [ScraperOptions.rows, discovered, List.map_map, List.mem_map]
  refine ⟨(url, n), h, ?_⟩
  dsimp only [Function.comp]
  rw [find_relays]

/-- What a discovery changes: the relays that are taken over, and nothing else. -/
theorem answered_spec (now : UInt64) (db : StateDb) :
    let kept := ((src.found p).map opts.kept).getD []
    let db' := answered opts p src now.toNat db
    db'.toState.days = db.toState.days ∧
      db'.lastDiscovery = (if (src.found p).isSome then some now.toNat else db.lastDiscovery) ∧
      (∀ url n, (url, n) ∈ kept → db'.toState.relays url =
        some { (db.toState.relays url).getD {} with sources := n % 2 ^ 32 }) ∧
      ∀ url, url ∉ kept.map Prod.fst → db'.toState.relays url = db.toState.relays url := by
  intro kept db'
  cases hfound : src.found p with
  | none =>
    have hkept : kept = [] := by
      unfold kept
      rw [hfound]
      rfl
    have hdb : db' = db := by
      unfold db' answered
      rw [hfound]
      rfl
    rw [hkept, hdb]
    exact ⟨rfl, rfl, fun url n h => absurd h List.not_mem_nil, fun url h => rfl⟩
  | some found =>
    have hkept : kept = opts.kept found := by
      unfold kept
      rw [hfound]
      rfl
    have hdb : db' = completed (opts.rows db found) now.toNat db := by
      unfold db' answered
      rw [hfound]
      rfl
    have hstate : db'.toState =
        (opts.rows db found).foldl (fun st r => st.putRelay r.1 r.2) db.toState := by
      rw [hdb, completed, StateDb.toState_setLastDiscovery,
        toState_writeRows (fits_rows opts db found)]
    rw [hstate, hkept]
    refine ⟨days_putAll _, ?_, fun url n hmem => ?_, fun url hurl => ?_⟩
    · rw [hdb]
      exact StateDb.lastDiscovery_set _ now
    · refine relays_putAll_of_mem _ ?_ (mem_rows hmem)
      rw [keys_rows]
      exact nodup_cut (ranked_found hfound).2
    · exact relays_putAll_of_notMem _ (by rwa [keys_rows])

/-- A turn that nobody else writes in. -/
theorem finish_turn {now : UInt64} {rest : List LoopAct} (hidle : s.stage = .idle)
    (hrest : ∀ l ∈ rest, l = .answer src ∨ l = .put ∨ l = .pin)
    (hrun : run (loopStep opts p) s (.wake now :: rest) = some u) (hu : u.stage = .passing) :
    u.db = pinAll opts.pinnedRelays
      (if opts.due s.db now.toNat || s.db.relays.isEmpty then answered opts p src now.toNat s.db
      else s.db) := by
  obtain ⟨s', hs', hrun'⟩ := run_cons_some.mp hrun
  have hfinish : u.finish opts p src = s'.finish opts p src := by
    refine @run_invariant _ _ _ (fun _ l => l = .answer src ∨ l = .put ∨ l = .pin)
      (fun v => v.finish opts p src = s'.finish opts p src) ?_ s' u rest rfl
      (along_of_mem hrest) hrun'
    exact fun v l v' hv hl hv' => (finish_loop hl (loopMove hv')).trans hv
  rw [Discoverer.finish, hu] at hfinish
  rw [show u.db = s'.finish opts p src from hfinish]
  rw [loopStep, hidle] at hs'
  dsimp only at hs'
  split at hs'
  case isTrue hdue =>
    cases hs'
    rw [if_pos hdue]
    rfl
  case isFalse hdue =>
    cases hs'
    rw [if_neg hdue]
    rfl

/-- **A turn.** Discovery takes over the relays with enough sources, and if there are too many the
ones ranked first. Of a relay that is known it changes the number of sources, and nothing else is
changed at all; a pin that is known, with or without slashes at its end, is not written a second
time; and only a discovery that had an answer is recorded. -/
theorem turn_exact {now : UInt64} {rest : List LoopAct} (hidle : s.stage = .idle)
    (hrest : ∀ l ∈ rest, l = .answer src ∨ l = .put ∨ l = .pin)
    (hrun : run (loopStep opts p) s (.wake now :: rest) = some u) (hu : u.stage = .passing) :
    let found := if opts.due s.db now.toNat || s.db.relays.isEmpty then src.found p else none
    let kept := (found.map opts.kept).getD []
    let before := s.db.toState
    let after := u.db.toState
    (∀ l, found = some l → ∀ e, e ∈ kept → e ∈ l ∧ opts.minSources ≤ e.2) ∧
    (∀ l, found = some l → ∀ e ∈ l, opts.minSources ≤ e.2 → e ∉ kept →
      kept.length = opts.atMost ∧ ∀ d ∈ kept, Ranks d e) ∧
    after.days = before.days ∧
    u.db.lastDiscovery = (if found.isSome then some now.toNat else s.db.lastDiscovery) ∧
    (∀ url n, (url, n) ∈ kept →
      after.relays url = some { (before.relays url).getD {} with sources := n % 2 ^ 32 }) ∧
    (∀ url info, url ∉ kept.map Prod.fst → before.relays url = some info →
      after.relays url = some info) ∧
    (∀ url info, url ∉ kept.map Prod.fst → before.relays url = none →
      after.relays url = some info →
        info = {} ∧ (∃ pin ∈ opts.pinnedRelays, url = trimSlashes pin) ∧
        ∀ known, (before.relays known).isSome → trimSlashes known ≠ url) ∧
    ∀ pin ∈ opts.pinnedRelays,
      ∃ url, (after.relays url).isSome ∧ trimSlashes url = trimSlashes pin := by
  intro found kept before after
  have hturn := finish_turn hidle hrest hrun hu
  -- what discovery leaves, whether it is due or not
  have hmid : ∃ mid : StateDb, u.db = pinAll opts.pinnedRelays mid ∧
      mid.toState.days = before.days ∧
      mid.lastDiscovery = (if found.isSome then some now.toNat else s.db.lastDiscovery) ∧
      (∀ url n, (url, n) ∈ kept → mid.toState.relays url =
        some { (before.relays url).getD {} with sources := n % 2 ^ 32 }) ∧
      ∀ url, url ∉ kept.map Prod.fst → mid.toState.relays url = before.relays url := by
    refine ⟨_, hturn, ?_⟩
    unfold kept found
    by_cases hdue : (opts.due s.db now.toNat || s.db.relays.isEmpty) = true
    · rw [if_pos hdue, if_pos hdue]
      exact answered_spec now s.db
    · rw [if_neg hdue, if_neg hdue]
      exact ⟨rfl, rfl, fun url n h => absurd h List.not_mem_nil, fun url h => rfl⟩
  have hranked : ∀ l, found = some l → kept = opts.kept l ∧ l.Pairwise Ranks := by
    intro l hl
    refine ⟨by unfold kept; rw [hl]; rfl, ?_⟩
    unfold found at hl
    rw [Option.ite_none_right_eq_some] at hl
    exact (ranked_found hl.2).1
  obtain ⟨mid, hmid, hdays, hlast, hkept, hother⟩ := hmid
  have hpins : Pins opts.pinnedRelays mid u.db := by
    rw [hmid]
    exact pins_pinAll _ _
  have hisSome : ∀ url, (before.relays url).isSome → (mid.toState.relays url).isSome := by
    intro url hurl
    by_cases hin : url ∈ kept.map Prod.fst
    · obtain ⟨⟨v, n⟩, hmem, rfl⟩ := List.mem_map.mp hin
      rw [hkept v n hmem]
      rfl
    · rwa [hother url hin]
  refine ⟨fun l hl e he => ?_, fun l hl e he hcount hout => ?_, hpins.days.trans hdays,
    hpins.last.trans hlast, fun url n h => hpins.known url _ (hkept url n h),
    fun url info hurl h => hpins.known url info ((hother url hurl).trans h),
    fun url info hurl hnone hsome => ?_, hpins.pinned⟩
  · rw [(hranked l hl).1] at he
    exact mem_of_cut he
  · rw [(hranked l hl).1] at hout ⊢
    exact ranks_of_cut (hranked l hl).2 he hcount hout
  · obtain ⟨hinfo, hpin, hnew⟩ := hpins.new url info ((hother url hurl).trans hnone) hsome
    exact ⟨hinfo, hpin, fun known h => hnew known (hisSome known h)⟩

private def pinnedOptions : ScraperOptions where
  maxRelays := 0
  minSources := 3
  pinnedRelays := ["wss://r/".toList]
  rediscoverSecs := 86400

/-- A relay that is known is pinned with a slash behind it. -/
theorem pinned_once : ∃ u : Discoverer,
    run (loopStep pinnedOptions plainRules) knownNode
      [.wake 100, .answer { report := none, index := .absent }, .put, .pin, .pin] = some u ∧
      ∃ url, (u.db.toState.relays url).isSome ∧
        trimSlashes url = trimSlashes "wss://r/".toList := by
  refine ⟨_, rfl, ?_⟩
  have hturn := @turn_exact pinnedOptions plainRules knownNode _
    { report := none, index := .absent } 100 [.answer { report := none, index := .absent }, .put, .pin, .pin] rfl (by simp) rfl rfl
  obtain ⟨-, -, -, -, -, -, -, hpins⟩ := hturn
  exact hpins "wss://r/".toList List.mem_cons_self

/-! ## The two sources -/

/-- What the scan reads URLs with, when the report reads them with these parsers. -/
def scanRules (parsers : RelayParsers) (hash : List Char → UInt64) : ScanRules where
  toLowercase := parsers.toLowercase
  isIp := parsers.isIp
  hash := hash

section agreement

variable {parsers : RelayParsers} {hash : List Char → UInt64} {url : String} {x : Handed}

theorem mem_ads {y : Handed} : (url, x) ∈ Relays.ads parsers y ↔
    x = y ∧ ∃ v ∈ x.ev.tagChars "r" ++ x.ev.tagChars "u",
      normalizeRelayUrl parsers.toLowercase parsers.isIp v = some url.toList := by
  have hurl : ∀ raw : String, Relays.urlOf parsers raw = some url ↔
      normalizeRelayUrl parsers.toLowercase parsers.isIp raw.toList = some url.toList := by
    intro raw
    rw [Relays.urlOf, Option.map_eq_some_iff]
    constructor
    · rintro ⟨u, hu, rfl⟩
      rw [hu, String.toList_ofList]
    · exact fun hu => ⟨url.toList, hu, String.ofList_toList⟩
  have htags : x.ev.tagChars "r" ++ x.ev.tagChars "u" =
      (Relays.advertised x.ev).map String.toList := by
    rw [Relays.advertised, List.map_append]
    rfl
  rw [Relays.ads, List.mem_filterMap, htags]
  constructor
  · rintro ⟨raw, hraw, h⟩
    rw [Option.map_eq_some_iff] at h
    obtain ⟨u, hu, heq⟩ := h
    obtain ⟨rfl, rfl⟩ := Prod.mk.inj heq
    exact ⟨rfl, raw.toList, List.mem_map_of_mem hraw, (hurl raw).mp hu⟩
  · rintro ⟨rfl, v, hv, h⟩
    obtain ⟨raw, hraw, rfl⟩ := List.mem_map.mp hv
    exact ⟨raw, hraw, by rw [(hurl raw).mpr h]; rfl⟩

theorem mem_items_ads {items : List Handed} : (url, x) ∈ items.flatMap (Relays.ads parsers) ↔
    x ∈ items ∧ ∃ v ∈ x.ev.tagChars "r" ++ x.ev.tagChars "u",
      normalizeRelayUrl parsers.toLowercase parsers.isIp v = some url.toList := by
  rw [List.mem_flatMap]
  constructor
  · rintro ⟨y, hy, h⟩
    obtain ⟨rfl, hv⟩ := mem_ads.mp h
    exact ⟨hy, hv⟩
  · rintro ⟨hx, hv⟩
    exact ⟨x, hx, mem_ads.mpr ⟨rfl, hv⟩⟩

/-- **The report and the scan agree.** A report that had room for all relays, and an index of the
same relay lists, name the same relays, and they count the same advertisers: the report by their
keys, in a sketch, and the scan by hashes. -/
theorem report_agrees {r : Recipe Handed} {s : Relays} (h : Relays.Reports parsers r s)
    (hroom : (Relays.urls (r.items.flatMap (Relays.ads parsers))).card ≤ MAX_RELAYS)
    (rules : TextRules) (hash : List Char → UInt64) (docOf : Handed → Document)
    (hdocOf : ∀ x ∈ r.items, x.ev.kind = KIND_RELAY_LIST ∧
      ∃ wotTier lang, docOf x = toDocument rules x.ev wotTier lang)
    {entries : List RootEntry}
    (hdocs : ∀ d, d.kind = KIND_RELAY_LIST →
      (d ∈ entries.flatMap RootEntry.docs ↔ ∃ x ∈ r.items, docOf x = d))
    {out : List (List Char × ℕ)}
    (hout : discoverRelays (scanRules parsers hash) (.dir entries) = some out) :
    (∀ url : String, url ∈ s.data ↔ url.toList ∈ out.map Prod.fst) ∧
      ∀ (url : String) (e : RelayStats) (n : ℕ),
        s.data.lookup url = some e → (url.toList, n) ∈ out →
          let own := Relays.ownAds (r.items.flatMap (Relays.ads parsers)) url
          e.hll = (own.map fun x => x.ctx.author).foldl Hll.insert Hll.default ∧
            n = (own.map fun x =>
              hash (normalizeHex x.ev.pubkey.toList)).toFinset.card % 2 ^ 32 := by
  -- who lists a relay, by the documents and by the events
  have hlists : ∀ (url : String) (k : UInt64),
      (∃ d ∈ entries.flatMap RootEntry.docs, Lists (scanRules parsers hash) d url.toList k) ↔
        ∃ x ∈ Relays.ownAds (r.items.flatMap (Relays.ads parsers)) url,
          hash (normalizeHex x.ev.pubkey.toList) = k := by
    intro url k
    constructor
    · rintro ⟨d, hd, hl⟩
      obtain ⟨x, hx, rfl⟩ := (hdocs d hl.1).mp hd
      obtain ⟨-, tier, lang, heq⟩ := hdocOf x hx
      rw [heq, lists_toDocument] at hl
      exact ⟨x, Relays.mem_ownAds.mpr (mem_items_ads.mpr ⟨hx, hl.2.2⟩), hl.2.1⟩
    · rintro ⟨x, hx, hk⟩
      obtain ⟨hx, hv⟩ := mem_items_ads.mp (Relays.mem_ownAds.mp hx)
      obtain ⟨hkind, tier, lang, heq⟩ := hdocOf x hx
      have hl : Lists (scanRules parsers hash) (docOf x) url.toList k := by
        rw [heq, lists_toDocument]
        exact ⟨hkind, hk, hv⟩
      exact ⟨docOf x, (hdocs _ hl.1).mpr ⟨x, hx, rfl⟩, hl⟩
  obtain ⟨hkeys, hest, hle⟩ := Relays.reports_join h hroom
  rcases discoverRelays_spec (scanRules parsers hash) entries with ⟨-, hnone⟩ | ⟨-, m, hm, hsome⟩
  · rw [hnone] at hout
    cases hout
  · rw [hsome, Option.some.injEq] at hout
    rw [← hout]
    refine ⟨fun url => ?_, fun url e n he hn => ?_⟩
    · rw [← Finmap.mem_keys, hkeys, Relays.mem_urls, List.mem_map]
      constructor
      · rintro ⟨x, hx⟩
        have hmem := (hm.mem url.toList _).mpr
          ((hlists url _).mpr ⟨x, Relays.mem_ownAds.mpr hx, rfl⟩)
        cases hu : m.lookup url.toList with
        | none =>
          rw [hu, Option.getD_none] at hmem
          exact absurd hmem (Finset.notMem_empty _)
        | some a => exact ⟨_, mem_ranking.mpr ⟨a, hu, rfl⟩, rfl⟩
      · rintro ⟨⟨u, n⟩, hn, rfl⟩
        obtain ⟨authors, ⟨k, hk⟩, hauthors, -⟩ := (mem_scanned_ranking hm).mp hn
        obtain ⟨x, hx, -⟩ := (hlists url k).mp ((hauthors k).mp hk)
        exact ⟨x, Relays.mem_ownAds.mp hx⟩
    · refine ⟨(Relays.counts_of_level hest hle he).hll, ?_⟩
      obtain ⟨authors, -, hauthors, rfl⟩ := (mem_scanned_ranking hm).mp hn
      congr 2
      ext k
      rw [hauthors, hlists, List.mem_toFinset, List.mem_map]

private def listParsers : RelayParsers where
  toLowercase := id
  isIp _ := false
  len _ := 0

private def listedOnce : Handed where
  ev :=
    { id := "", pubkey := "ab", createdAt := 1700000000, kind := 10002
      tags := [["r", "wss://relay.damus.io"]], content := "", sig := "" }
  ctx :=
    { now := 1700000000, author := Vector.replicate 32 0, eventId := Vector.replicate 32 0
      world := World.empty }

private def listRules : TextRules where
  lower := id
  profile _ := none

private def listIndex : List RootEntry :=
  [.dir "2023-11".toList (some (some [toDocument listRules listedOnce.ev 0 none]))]

/-- One relay list, folded and indexed. -/
theorem list_agrees : ∃ s out, Relays.Reports listParsers (.fold .new listedOnce) s ∧
    discoverRelays (scanRules listParsers fun _ => 0) (.dir listIndex) = some out ∧
      ∀ url : String, url ∈ s.data ↔ url.toList ∈ out.map Prod.fst := by
  have hreport : Relays.Reports listParsers (.fold .new listedOnce) _ := .fold listedOnce .new
  have hout : ∃ out, discoverRelays (scanRules listParsers fun _ => 0) (.dir listIndex) =
      some out := ⟨_, rfl⟩
  obtain ⟨out, hout⟩ := hout
  refine ⟨_, out, hreport, hout, (report_agrees hreport ?_ listRules (fun _ => 0)
    (fun x => toDocument listRules x.ev 0 none) ?_ ?_ hout).1⟩
  · have hone : (Relays.ads listParsers listedOnce).length ≤ 1 := List.length_filterMap_le _ _
    refine (List.toFinset_card_le _).trans ?_
    show (List.map Prod.fst (Relays.ads listParsers listedOnce ++ [])).length ≤ MAX_RELAYS
    rw [List.length_map, List.append_nil, MAX_RELAYS]
    omega
  · intro x hx
    rw [List.mem_singleton.mp hx]
    exact ⟨rfl, 0, none, rfl⟩
  · intro d _
    show d ∈ [toDocument listRules listedOnce.ev 0 none] ↔ _
    rw [List.mem_singleton]
    constructor
    · rintro rfl
      exact ⟨listedOnce, List.mem_singleton_self listedOnce, rfl⟩
    · rintro ⟨x, hx, rfl⟩
      rw [List.mem_singleton.mp hx]

end agreement

end NostrSearch.Server
