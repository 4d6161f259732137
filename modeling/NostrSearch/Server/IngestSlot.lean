import NostrSearch.Lib.Run
import Mathlib.Logic.Function.Basic

/-!
# One archive ingest at a time

The admin API starts, cancels and watches the archive ingest of the node. `active` serializes the
runs: a start claims it with a compare-and-swap, installs a fresh `Run` as the current one, and
spawns the engine, which has the slot until it has returned. A cancel looks at `active` and then
sets the switch of whatever run is current; a status clones the current run and reads its counters
one by one. Requests run concurrently, so each of their atomic operations is a step here.

`one_ingest` says that at most one engine is at work, and that its run is the current one.
`cancelled_iff` says which runs are cancelled: between a start's claim and its installation a cancel
still finds the run before. `status_of_one_run` is the doc comment of `IngestState`: a status never
blends the counters of two runs.
-/

namespace NostrSearch.Server

open NostrSearch.Lib

/-- The numbers of an `IngestProgress` that a status shows. -/
inductive IngestCounter
  | pass
  | passes
  | indexed
  | seen
  | skipped
  | finishedAt
deriving DecidableEq

/-- A `Run`: the cancel switch and the progress. -/
structure IngestRun where
  cancel : Bool
  running : Bool
  counters : IngestCounter → ℕ

/-- A field of an `IngestStatus`. -/
inductive StatusField
  | running
  | cancelled
  | counter (k : IngestCounter)
deriving DecidableEq

namespace IngestRun

/-- `Run::default()`. -/
def fresh : IngestRun := { cancel := false, running := false, counters := fun _ => 0 }

/-- `AtomicU64::store`, on the progress of a run. -/
def set (run : IngestRun) (k : IngestCounter) (n : ℕ) : IngestRun :=
  { run with counters := Function.update run.counters k n }

/-- What a load of the field gives, 1 for `true`. -/
def load (run : IngestRun) : StatusField → ℕ
  | .running => run.running.toNat
  | .cancelled => run.cancel.toNat
  | .counter k => run.counters k

end IngestRun

/-- Where the engine of a run is. -/
inductive EnginePc
  | absent
  /-- spawned, before it sets `running` -/
  | spawned
  | working
  /-- not `running` any more, before it stores `finished_at` -/
  | finishing
  /-- `ingest` has returned, and the slot is still taken -/
  | returned
  | released
  /-- the task has panicked -/
  | panicked
deriving DecidableEq

/-- What `GET /admin/ingest` has got so far: of which run, and the values read. `since` is a history
variable: what the fields were when the run was cloned. -/
structure StatusRead where
  run : ℕ
  since : StatusField → ℕ
  got : List (StatusField × ℕ)

inductive SlotAnswer
  | started
  | alreadyRunning
  | cancelled (asked : Bool)
  | status (read : StatusRead)

/-- Where a request is. -/
inductive SlotPc
  | idle
  /-- `start` has the slot -/
  | claimed
  /-- `start` has installed its run, and has still to spawn the engine -/
  | installed (run : ℕ)
  /-- `cancel` has seen a run active -/
  | cancelling
  | reading (read : StatusRead) (todo : List StatusField)
  | answered (a : SlotAnswer)

/-- The state behind an `IngestState`. Runs are numbered in the order they are made. -/
structure IngestSlot (C : Type) where
  active : Bool
  current : ℕ
  next : ℕ
  runs : ℕ → IngestRun
  engines : ℕ → EnginePc
  clients : C → SlotPc

inductive EngineAct
  | begin
  /-- `fetch_add` on a counter -/
  | add (k : IngestCounter) (n : ℕ)
  | store (k : IngestCounter) (n : ℕ)
  /-- `stop_after_files` is reached -/
  | stopItself
  | finish
  /-- `finished_at` is stored -/
  | stamp (now : ℕ)
  | release
  | panic
deriving DecidableEq

inductive SlotAct (C : Type)
  | start (c : C)
  | cancel (c : C)
  | status (c : C)
  /-- a request takes its next step -/
  | go (c : C)
  | engine (run : ℕ) (a : EngineAct)

namespace IngestSlot

variable {C : Type} [DecidableEq C]

def goto (s : IngestSlot C) (c : C) (pc : SlotPc) : IngestSlot C :=
  { s with clients := Function.update s.clients c pc }

def modify (s : IngestSlot C) (r : ℕ) (f : IngestRun → IngestRun) : IngestSlot C :=
  { s with runs := Function.update s.runs r (f (s.runs r)) }

def setEngine (s : IngestSlot C) (r : ℕ) (pc : EnginePc) : IngestSlot C :=
  { s with engines := Function.update s.engines r pc }

@[simp] theorem runs_goto (s : IngestSlot C) (c : C) (pc : SlotPc) : (s.goto c pc).runs = s.runs :=
  rfl

omit [DecidableEq C] in
@[simp] theorem runs_setEngine (s : IngestSlot C) (r : ℕ) (pc : EnginePc) :
    (s.setEngine r pc).runs = s.runs := rfl

/-- The fields of a status, in the order of `IngestState::status`. -/
def shown : List StatusField :=
  [.running, .cancelled, .counter .pass, .counter .passes, .counter .indexed, .counter .seen,
    .counter .skipped, .counter .finishedAt]

def stepClient (s : IngestSlot C) (c : C) : Option (IngestSlot C) :=
  match s.clients c with
  | .claimed =>
    some ({ s with
      current := s.next
      next := s.next + 1
      runs := Function.update s.runs s.next IngestRun.fresh }.goto c (.installed s.next))
  | .installed r => some ((s.setEngine r .spawned).goto c (.answered .started))
  | .cancelling =>
    some ((s.modify s.current fun run => { run with cancel := true }).goto c
      (.answered (.cancelled true)))
  | .reading read [] => some (s.goto c (.answered (.status read)))
  | .reading read (k :: todo) =>
    some (s.goto c (.reading
      { read with got := read.got ++ [(k, (s.runs read.run).load k)] } todo))
  | .idle | .answered _ => none

def stepEngine (s : IngestSlot C) (r : ℕ) : EngineAct → Option (IngestSlot C)
  | .begin =>
    if s.engines r = .spawned then
      some ((s.modify r fun run => { run with running := true }).setEngine r .working)
    else none
  | .add k n =>
    if s.engines r = .working then
      some (s.modify r fun run => run.set k (run.counters k + n))
    else none
  | .store k n =>
    if s.engines r = .working ∧ k ∈ [.pass, .passes] then
      some (s.modify r fun run => run.set k n)
    else none
  | .stopItself =>
    if s.engines r = .working then some (s.modify r fun run => { run with cancel := true })
    else none
  | .finish =>
    if s.engines r = .working then
      some ((s.modify r fun run => { run with running := false }).setEngine r .finishing)
    else none
  | .stamp now =>
    if s.engines r = .finishing then
      some ((s.modify r fun run => run.set .finishedAt now).setEngine r .returned)
    else none
  | .release =>
    if s.engines r = .returned then
      some { s.setEngine r .released with active := false }
    else none
  | .panic =>
    if s.engines r = .spawned ∨ s.engines r = .working then some (s.setEngine r .panicked) else none

/-- A request that is not in progress may be made. -/
def resting : SlotPc → Bool
  | .idle | .answered _ => true
  | _ => false

def step (s : IngestSlot C) : SlotAct C → Option (IngestSlot C)
  | .start c =>
    if resting (s.clients c) then
      if s.active then some (s.goto c (.answered .alreadyRunning))
      else some ({ s with active := true }.goto c .claimed)
    else none
  | .cancel c =>
    if resting (s.clients c) then
      if s.active then some (s.goto c .cancelling)
      else some (s.goto c (.answered (.cancelled false)))
    else none
  | .status c =>
    if resting (s.clients c) then
      some (s.goto c (.reading
        { run := s.current, since := (s.runs s.current).load, got := [] } shown))
    else none
  | .go c => s.stepClient c
  | .engine r a => s.stepEngine r a

/-- `IngestState::default()`: the current run is number 0, which no engine was started for. -/
def boot : IngestSlot C :=
  { active := false, current := 0, next := 1, runs := fun _ => IngestRun.fresh
    engines := fun _ => .absent, clients := fun _ => .idle }

/-! ## Who has the slot -/

variable {s s' : IngestSlot C}

/-- Who may have the slot: a request, or the engine of a run. -/
inductive Party (C : Type)
  | client (c : C)
  | engine (run : ℕ)

/-- The engine of the run is at work. -/
def Working (s : IngestSlot C) (r : ℕ) : Prop :=
  s.engines r = .spawned ∨ s.engines r = .working ∨ s.engines r = .finishing ∨
    s.engines r = .returned

/-- How a request has the slot, if it has: claimed only, or with its run installed. -/
def hold : SlotPc → Option (Option ℕ)
  | .claimed => some none
  | .installed r => some (some r)
  | _ => none

/-- An engine that has the slot: it has been spawned, and has not released it. -/
def taken : EnginePc → Bool
  | .absent | .released => false
  | _ => true

def Has (s : IngestSlot C) : Party C → Prop
  | .client c => (hold (s.clients c)).isSome
  | .engine r => taken (s.engines r) = true

omit [DecidableEq C] in
theorem has_client {c : C} (h : hold (s.clients c) ≠ none) : s.Has (.client c) :=
  Option.ne_none_iff_isSome.mp h

omit [DecidableEq C] in
theorem has_engine {r : ℕ} (h : taken (s.engines r) ≠ false) : s.Has (.engine r) :=
  Bool.eq_true_of_not_eq_false h

structure Inv (s : IngestSlot C) : Prop where
  active : s.active = true ↔ ∃ p, s.Has p
  unique : ∀ p q, s.Has p → s.Has q → p = q
  installed : ∀ c r, hold (s.clients c) = some (some r) →
    s.current = r ∧ s.engines r = .absent
  engine : ∀ r, taken (s.engines r) = true → s.current = r
  known : s.current < s.next
  absent : ∀ r, s.next ≤ r → s.engines r = .absent

omit [DecidableEq C] in
theorem not_has_boot (p : Party C) : ¬ (boot : IngestSlot C).Has p := by
  cases p <;> simp [boot, Has, hold, taken]

omit [DecidableEq C] in
theorem inv_boot : (boot : IngestSlot C).Inv where
  active := iff_of_false Bool.false_ne_true fun ⟨p, hp⟩ => not_has_boot p hp
  unique := fun p _ hp _ => absurd hp (not_has_boot p)
  installed := by rintro c r ⟨⟩
  engine := by rintro r ⟨⟩
  known := Nat.zero_lt_one
  absent := fun _ _ => rfl

omit [DecidableEq C] in
/-- A step that hands the slot to nobody, installs no run and spawns no engine. -/
theorem Inv.keep (hs : s.Inv) (hactive : s'.active = s.active) (hcurrent : s'.current = s.current)
    (hnext : s'.next = s.next) (hclients : ∀ c, hold (s'.clients c) = hold (s.clients c))
    (htaken : ∀ r, taken (s'.engines r) = taken (s.engines r))
    (habsent : ∀ r, s'.engines r = .absent ↔ s.engines r = .absent) : s'.Inv := by
  have hhas : ∀ p, s'.Has p ↔ s.Has p := by
    intro p
    cases p with
    | client c => rw [Has, Has, hclients]
    | engine r => rw [Has, Has, htaken]
  refine ⟨?_, ?_, ?_, ?_, ?_, ?_⟩
  · rw [hactive, hs.active]
    exact (exists_congr hhas).symm
  · intro p q hp hq
    exact hs.unique p q ((hhas p).mp hp) ((hhas q).mp hq)
  · intro c r hc
    rw [hclients] at hc
    rw [hcurrent, habsent]
    exact hs.installed c r hc
  · intro r hr
    rw [htaken] at hr
    rw [hcurrent]
    exact hs.engine r hr
  · rw [hcurrent, hnext]
    exact hs.known
  · intro r hr
    rw [hnext] at hr
    rw [habsent]
    exact hs.absent r hr

/-- A request that does not have the slot goes on without it. -/
theorem Inv.goto (hs : s.Inv) {c : C} {pc : SlotPc} (hc : hold (s.clients c) = none)
    (hpc : hold pc = none) : (s.goto c pc).Inv := by
  refine hs.keep rfl rfl rfl ?_ (fun _ => rfl) (fun _ => Iff.rfl)
  exact (Function.forall_update_iff s.clients fun d pc' => hold pc' = hold (s.clients d)).mpr
    ⟨hpc.trans hc.symm, fun _ _ => rfl⟩

omit [DecidableEq C] in
theorem Inv.modify (hs : s.Inv) (r : ℕ) (f : IngestRun → IngestRun) : (s.modify r f).Inv :=
  hs.keep rfl rfl rfl (fun _ => rfl) (fun _ => rfl) (fun _ => Iff.rfl)

omit [DecidableEq C] in
/-- An engine goes on. -/
theorem Inv.setEngine (hs : s.Inv) {r : ℕ} {pc : EnginePc} (hr : taken (s.engines r) = true)
    (hpc : taken pc = true) : (s.setEngine r pc).Inv := by
  have hne : ∀ {e : EnginePc}, taken e = true → e ≠ .absent := by
    rintro e he rfl
    cases he
  refine hs.keep rfl rfl rfl (fun _ => rfl) ?_ ?_
  · exact (Function.forall_update_iff s.engines fun q e => taken e = taken (s.engines q)).mpr
      ⟨hpc.trans hr.symm, fun _ _ => rfl⟩
  · exact (Function.forall_update_iff s.engines fun q e =>
      e = .absent ↔ s.engines q = .absent).mpr ⟨iff_of_false (hne hpc) (hne hr), fun _ _ => Iff.rfl⟩

omit [DecidableEq C] in
/-- Nobody has a slot that is not active. -/
theorem Inv.free (hs : s.Inv) (h : s.active = false) (p : Party C) : ¬ s.Has p := by
  intro hp
  have := hs.active.mpr ⟨p, hp⟩
  rw [h] at this
  cases this

omit [DecidableEq C] in
theorem Inv.no_engine (hs : s.Inv) {c : C} (hc : s.Has (.client c)) (r : ℕ) :
    taken (s.engines r) = false := by
  by_contra hr
  have := hs.unique _ _ hc (has_engine hr)
  cases this

omit [DecidableEq C] in
theorem Inv.no_client (hs : s.Inv) {r : ℕ} (hr : s.Has (.engine r)) (c : C) :
    hold (s.clients c) = none := by
  by_contra hc
  have := hs.unique _ _ hr (has_client hc)
  cases this

omit [DecidableEq C] in
/-- A step after which one party has the slot, and which leaves it no other way to be had. -/
theorem inv_of_holder {p : Party C} (hactive : s.active = true) (hp : ∀ q, s.Has q ↔ q = p)
    (hinstalled : ∀ c r, hold (s.clients c) = some (some r) →
      s.current = r ∧ s.engines r = .absent)
    (hengine : ∀ r, taken (s.engines r) = true → s.current = r) (hknown : s.current < s.next)
    (habsent : ∀ r, s.next ≤ r → s.engines r = .absent) : s.Inv where
  active := iff_of_true hactive ⟨p, (hp p).mpr rfl⟩
  unique := fun q q' hq hq' => ((hp q).mp hq).trans ((hp q').mp hq').symm
  installed := hinstalled
  engine := hengine
  known := hknown
  absent := habsent

/-- Who has the slot once client `c` has it and no engine has. -/
theorem has_goto {c : C} {pc : SlotPc} (hothers : ∀ d, d ≠ c → hold (s.clients d) = none)
    (hengines : ∀ r, taken (s.engines r) = false) (hpc : (hold pc).isSome) (q : Party C) :
    (s.goto c pc).Has q ↔ q = .client c := by
  cases q with
  | client d =>
    by_cases hd : d = c
    · subst hd
      simp only [Has, goto, Function.update_self, hpc]
    · simp only [Has, goto, Function.update_of_ne hd, hothers d hd, Party.client.injEq, hd,
        Option.isSome_none, Bool.false_eq_true]
  | engine r => simp [Has, goto, hengines r]

/-- The compare-and-swap of a start. -/
theorem inv_claim (hs : s.Inv) (h : s.active = false) (c : C) :
    ({ s with active := true }.goto c .claimed).Inv := by
  have hclients : ∀ d, hold (s.clients d) = none := fun d =>
    Option.not_isSome_iff_eq_none.mp (hs.free h (.client d))
  have hengines : ∀ r, taken (s.engines r) = false := fun r =>
    Bool.not_eq_true _ ▸ hs.free h (.engine r)
  refine inv_of_holder rfl (has_goto (s := { s with active := true }) (fun d _ => hclients d)
    hengines rfl) ?_ ?_ hs.known hs.absent
  · intro d r hd
    simp only [goto] at hd
    by_cases hdc : d = c
    · subst hdc
      rw [Function.update_self] at hd
      cases hd
    · rw [Function.update_of_ne hdc, hclients] at hd
      cases hd
  · intro r hr
    have hfree := hengines r
    rw [show taken (s.engines r) = true from hr] at hfree
    cases hfree

/-- A start installs its run. -/
theorem inv_install (hs : s.Inv) {c : C} (hc : s.clients c = .claimed) :
    ({ s with
      current := s.next
      next := s.next + 1
      runs := Function.update s.runs s.next IngestRun.fresh }.goto c (.installed s.next)).Inv := by
  have hhas : s.Has (.client c) := by
    rw [Has, hc]
    rfl
  have hothers : ∀ d, d ≠ c → hold (s.clients d) = none := by
    intro d hd
    by_contra hne
    have := hs.unique _ _ hhas (has_client hne)
    cases this
    exact hd rfl
  refine inv_of_holder (hs.active.mpr ⟨_, hhas⟩) (has_goto hothers (hs.no_engine hhas) rfl) ?_ ?_
    (Nat.lt_succ_self _) fun r hr => hs.absent r (Nat.le_of_succ_le hr)
  · intro d r hd
    simp only [goto] at hd
    by_cases hdc : d = c
    · subst hdc
      rw [Function.update_self] at hd
      cases hd
      exact ⟨rfl, hs.absent _ (le_refl _)⟩
    · rw [Function.update_of_ne hdc, hothers d hdc] at hd
      cases hd
  · intro r hr
    have hfree := hs.no_engine hhas r
    rw [show taken (s.engines r) = true from hr] at hfree
    cases hfree

/-- A start spawns its engine, and hands the slot over to it. -/
theorem inv_spawn (hs : s.Inv) {c : C} {r : ℕ} (hc : s.clients c = .installed r) :
    ((s.setEngine r .spawned).goto c (.answered .started)).Inv := by
  have hhas : s.Has (.client c) := by
    rw [Has, hc]
    rfl
  obtain ⟨hcur, -⟩ := hs.installed c r (by rw [hc]; rfl)
  have hclients : ∀ d, hold (Function.update s.clients c (.answered .started) d) = none := by
    intro d
    by_cases hd : d = c
    · subst hd
      rw [Function.update_self]
      rfl
    · rw [Function.update_of_ne hd]
      by_contra hne
      have := hs.unique _ _ hhas (has_client hne)
      cases this
      exact hd rfl
  have hengines : ∀ q, taken (Function.update s.engines r .spawned q) = true ↔ q = r := by
    intro q
    by_cases hq : q = r
    · subst hq
      rw [Function.update_self]
      exact iff_of_true rfl rfl
    · rw [Function.update_of_ne hq, hs.no_engine hhas q]
      exact iff_of_false Bool.false_ne_true hq
  refine inv_of_holder (p := .engine r) (hs.active.mpr ⟨_, hhas⟩) ?_ ?_ ?_ hs.known ?_
  · intro q
    cases q with
    | client d =>
      have hd : ¬ (hold (Function.update s.clients c (.answered .started) d)).isSome := by
        rw [hclients]
        exact Bool.false_ne_true
      exact iff_of_false hd (by rintro ⟨⟩)
    | engine q =>
      rw [Has, Party.engine.injEq]
      exact hengines q
  · intro d q hd
    exact absurd (hd.symm.trans (hclients d)) (Option.some_ne_none _)
  · intro q hq
    rw [(hengines q).mp hq]
    exact hcur
  · intro q hq
    have hne : q ≠ r := by
      rintro rfl
      have := hs.known
      rw [hcur] at this
      exact absurd hq (Nat.not_le.mpr this)
    exact (Function.update_of_ne hne _ _).trans (hs.absent q hq)

omit [DecidableEq C] in
/-- The engine has returned, and gives the slot up. -/
theorem inv_release (hs : s.Inv) {r : ℕ} (hr : s.engines r = .returned) :
    ({ s.setEngine r .released with active := false } : IngestSlot C).Inv := by
  have hhas : s.Has (.engine r) := by
    rw [Has, hr]
    rfl
  have hengines : ∀ q, taken (Function.update s.engines r .released q) = false := by
    intro q
    by_cases hq : q = r
    · subst hq
      rw [Function.update_self]
      rfl
    · rw [Function.update_of_ne hq]
      by_contra hne
      have := hs.unique _ _ hhas (has_engine hne)
      cases this
      exact hq rfl
  have hnone : ∀ p, ¬ ({ s.setEngine r .released with active := false } : IngestSlot C).Has p := by
    intro p
    cases p with
    | client c => simp [Has, setEngine, hs.no_client hhas c]
    | engine q => simp [Has, setEngine, hengines q]
  refine ⟨iff_of_false Bool.false_ne_true fun ⟨p, hp⟩ => hnone p hp,
    fun p _ hp _ => absurd hp (hnone p), ?_, ?_, hs.known, ?_⟩
  · intro c q hc
    exact absurd (by rw [Has, hc]; rfl) (hnone (.client c))
  · intro q hq
    exact absurd hq (hnone (.engine q))
  · intro q hq
    have hne : q ≠ r := by
      rintro rfl
      rw [hs.absent q hq] at hr
      cases hr
    exact (Function.update_of_ne hne _ _).trans (hs.absent q hq)

theorem hold_of_resting {pc : SlotPc} (h : resting pc = true) : hold pc = none := by
  cases pc with
  | idle => rfl
  | answered a => rfl
  | _ => cases h

theorem inv_stepClient {c : C} (hs : s.Inv) (h : s.stepClient c = some s') : s'.Inv := by
  unfold stepClient at h
  split at h
  case h_1 hc =>
    cases h
    exact inv_install hs hc
  case h_2 r hc =>
    cases h
    exact inv_spawn hs hc
  case h_3 hc =>
    cases h
    exact (hs.modify _ _).goto
      (by rw [show (s.modify _ _).clients c = s.clients c from rfl, hc]; rfl)
      rfl
  case h_4 read hc =>
    cases h
    exact hs.goto (by rw [hc]; rfl) rfl
  case h_5 read k todo hc =>
    cases h
    exact hs.goto (by rw [hc]; rfl) rfl
  case h_6 => cases h
  case h_7 => cases h

omit [DecidableEq C] in
theorem inv_stepEngine {r : ℕ} {a : EngineAct} (hs : s.Inv) (h : s.stepEngine r a = some s') :
    s'.Inv := by
  cases a with
  | begin =>
    simp only [stepEngine, Option.ite_none_right_eq_some, Option.some.injEq] at h
    obtain ⟨hr, rfl⟩ := h
    exact (hs.modify r _).setEngine (by rw [show (s.modify r _).engines r = _ from hr]; rfl) rfl
  | add k n =>
    simp only [stepEngine, Option.ite_none_right_eq_some, Option.some.injEq] at h
    obtain ⟨-, rfl⟩ := h
    exact hs.modify r _
  | store k n =>
    simp only [stepEngine, Option.ite_none_right_eq_some, Option.some.injEq] at h
    obtain ⟨-, rfl⟩ := h
    exact hs.modify r _
  | stopItself =>
    simp only [stepEngine, Option.ite_none_right_eq_some, Option.some.injEq] at h
    obtain ⟨-, rfl⟩ := h
    exact hs.modify r _
  | finish =>
    simp only [stepEngine, Option.ite_none_right_eq_some, Option.some.injEq] at h
    obtain ⟨hr, rfl⟩ := h
    exact (hs.modify r _).setEngine (by rw [show (s.modify r _).engines r = _ from hr]; rfl) rfl
  | stamp now =>
    simp only [stepEngine, Option.ite_none_right_eq_some, Option.some.injEq] at h
    obtain ⟨hr, rfl⟩ := h
    exact (hs.modify r _).setEngine (by rw [show (s.modify r _).engines r = _ from hr]; rfl) rfl
  | release =>
    simp only [stepEngine, Option.ite_none_right_eq_some, Option.some.injEq] at h
    obtain ⟨hr, rfl⟩ := h
    exact inv_release hs hr
  | panic =>
    simp only [stepEngine, Option.ite_none_right_eq_some, Option.some.injEq] at h
    obtain ⟨hr, rfl⟩ := h
    refine hs.setEngine ?_ rfl
    rcases hr with hr | hr
    · rw [hr]
      rfl
    · rw [hr]
      rfl

theorem inv_step {a : SlotAct C} (hs : s.Inv) (h : step s a = some s') : s'.Inv := by
  cases a with
  | start c =>
    simp only [step] at h
    split at h
    case isTrue hrest =>
      split at h
      case isTrue =>
        cases h
        exact hs.goto (hold_of_resting hrest) rfl
      case isFalse hactive =>
        cases h
        exact inv_claim hs (Bool.not_eq_true _ ▸ hactive) c
    case isFalse => cases h
  | cancel c =>
    simp only [step] at h
    split at h
    case isTrue hrest =>
      split at h <;> cases h <;> exact hs.goto (hold_of_resting hrest) rfl
    case isFalse => cases h
  | status c =>
    simp only [step] at h
    split at h
    case isTrue hrest =>
      cases h
      exact hs.goto (hold_of_resting hrest) rfl
    case isFalse => cases h
  | go c => exact inv_stepClient hs h
  | engine r a => exact inv_stepEngine hs h

/-- **One ingest at a time.** Whatever requests are made and however they and the engines take
turns: an engine at work is the only one, its run is the one that a status shows and a cancel
reaches, no start is on its way to a second one, and no start goes through. -/
theorem one_ingest (as : List (SlotAct C)) (s : IngestSlot C) (hrun : run step boot as = some s)
    (r : ℕ) (hr : s.Working r) :
    (∀ q, s.Working q → q = r) ∧ s.current = r ∧ s.active = true ∧
      (∀ c, s.clients c ≠ .claimed ∧ ∀ q, s.clients c ≠ .installed q) := by
  have hs : s.Inv := run_invariant' (fun _ _ _ => inv_step) inv_boot hrun
  have hworking : ∀ q, s.Working q → s.Has (.engine q) := by
    rintro q (h | h | h | h) <;> simp [Has, h, taken]
  have hhas := hworking r hr
  refine ⟨fun q hq => ?_, hs.engine r hhas, hs.active.mpr ⟨_, hhas⟩, fun c => ?_⟩
  · have := hs.unique _ _ (hworking q hq) hhas
    cases this
    rfl
  · have hc := hs.no_client hhas c
    constructor
    · intro heq
      rw [heq] at hc
      cases hc
    · intro q heq
      rw [heq] at hc
      cases hc

/-! ## Cancelling -/

/-- The step sets the cancel switch of the run: a cancel gets to its store while the run is the
current one, or the run stops itself. -/
def Cancels (r : ℕ) (s : IngestSlot C) : SlotAct C → Prop
  | .go c => s.clients c = .cancelling ∧ s.current = r
  | .engine q .stopItself => q = r
  | _ => False

omit [DecidableEq C] in
theorem runs_modify_self (r : ℕ) (f : IngestRun → IngestRun) :
    (s.modify r f).runs r = f (s.runs r) := Function.update_self ..

omit [DecidableEq C] in
theorem runs_modify_of_ne {r q : ℕ} (h : r ≠ q) (f : IngestRun → IngestRun) :
    (s.modify q f).runs r = s.runs r := Function.update_of_ne h ..

omit [DecidableEq C] in
theorem cancel_modify {q : ℕ} {f : IngestRun → IngestRun}
    (hf : (f (s.runs q)).cancel = (s.runs q).cancel) (r : ℕ) :
    ((s.modify q f).runs r).cancel = (s.runs r).cancel := by
  by_cases hr : r = q
  · subst hr
    rw [runs_modify_self, hf]
  · rw [runs_modify_of_ne hr]

omit [DecidableEq C] in
theorem cancel_modify_set (r q : ℕ) :
    ((s.modify q fun run => { run with cancel := true }).runs r).cancel = true ↔
      (s.runs r).cancel = true ∨ q = r := by
  by_cases hr : r = q
  · subst hr
    rw [runs_modify_self]
    exact iff_of_true rfl (Or.inr rfl)
  · rw [runs_modify_of_ne hr]
    exact (or_iff_left (Ne.symm hr)).symm

omit [DecidableEq C] in
theorem not_cancels_go {c : C} (h : s.clients c ≠ .cancelling) (r : ℕ) : ¬ s.Cancels r (.go c) :=
  fun hc => h hc.1

/-- A run not made yet has its switch off. -/
def Fresh (s : IngestSlot C) : Prop := ∀ q, s.next ≤ q → (s.runs q).cancel = false

theorem cancel_stepClient {c : C} {r : ℕ} (hfresh : s.Fresh) (h : s.stepClient c = some s') :
    (s'.runs r).cancel = true ↔ (s.runs r).cancel = true ∨ s.Cancels r (.go c) := by
  unfold stepClient at h
  split at h
  case h_1 hc =>
    cases h
    rw [or_iff_left (not_cancels_go (by rw [hc]; rintro ⟨⟩) r)]
    -- the fresh run takes a number whose switch was off
    by_cases hr : r = s.next
    · subst hr
      simp [goto, IngestRun.fresh, hfresh _ (le_refl s.next)]
    · simp only [goto, Function.update_of_ne hr]
  case h_2 q hc =>
    cases h
    exact (or_iff_left (not_cancels_go (by rw [hc]; rintro ⟨⟩) r)).symm
  case h_3 hc =>
    cases h
    rw [show s.Cancels r (.go c) ↔ s.current = r from and_iff_right hc]
    exact cancel_modify_set r s.current
  case h_4 read hc =>
    cases h
    exact (or_iff_left (not_cancels_go (by rw [hc]; rintro ⟨⟩) r)).symm
  case h_5 read k todo hc =>
    cases h
    exact (or_iff_left (not_cancels_go (by rw [hc]; rintro ⟨⟩) r)).symm
  case h_6 => cases h
  case h_7 => cases h

omit [DecidableEq C] in
theorem cancel_stepEngine {q r : ℕ} {a : EngineAct} (h : s.stepEngine q a = some s') :
    (s'.runs r).cancel = true ↔ (s.runs r).cancel = true ∨ s.Cancels r (.engine q a) := by
  cases a with
  | stopItself =>
    simp only [stepEngine, Option.ite_none_right_eq_some, Option.some.injEq] at h
    obtain ⟨-, rfl⟩ := h
    exact cancel_modify_set r q
  | release =>
    simp only [stepEngine, Option.ite_none_right_eq_some, Option.some.injEq] at h
    obtain ⟨-, rfl⟩ := h
    exact (or_iff_left id).symm
  | panic =>
    simp only [stepEngine, Option.ite_none_right_eq_some, Option.some.injEq] at h
    obtain ⟨-, rfl⟩ := h
    exact (or_iff_left id).symm
  | add | store =>
    simp only [stepEngine, Option.ite_none_right_eq_some, Option.some.injEq] at h
    obtain ⟨-, rfl⟩ := h
    refine Iff.trans ?_ (or_iff_left id).symm
    rw [cancel_modify]
    rfl
  | begin | finish | stamp =>
    simp only [stepEngine, Option.ite_none_right_eq_some, Option.some.injEq] at h
    obtain ⟨-, rfl⟩ := h
    refine Iff.trans ?_ (or_iff_left id).symm
    rw [runs_setEngine, cancel_modify]
    rfl

/-- The switch of a run after a step. -/
theorem cancel_step {a : SlotAct C} {r : ℕ} (hfresh : s.Fresh) (h : step s a = some s') :
    (s'.runs r).cancel = true ↔ (s.runs r).cancel = true ∨ s.Cancels r a := by
  cases a with
  | start c =>
    simp only [step] at h
    split at h
    · split at h <;> cases h <;> exact (or_iff_left id).symm
    · cases h
  | cancel c =>
    simp only [step] at h
    split at h
    · split at h <;> cases h <;> exact (or_iff_left id).symm
    · cases h
  | status c =>
    simp only [step] at h
    split at h <;> cases h
    exact (or_iff_left id).symm
  | go c => exact cancel_stepClient hfresh h
  | engine q a => exact cancel_stepEngine h

theorem next_step {a : SlotAct C} (h : step s a = some s') : s.next ≤ s'.next := by
  cases a with
  | start c =>
    simp only [step] at h
    split at h
    · split at h <;> cases h <;> exact le_refl _
    · cases h
  | cancel c =>
    simp only [step] at h
    split at h
    · split at h <;> cases h <;> exact le_refl _
    · cases h
  | status c =>
    simp only [step] at h
    split at h <;> cases h
    exact le_refl _
  | go c =>
    simp only [step, stepClient] at h
    split at h <;> cases h
    case h_1 => exact Nat.le_succ _
    all_goals exact le_refl _
  | engine q a =>
    cases a <;>
      (simp only [step, stepEngine, Option.ite_none_right_eq_some, Option.some.injEq] at h
       obtain ⟨-, rfl⟩ := h
       exact le_refl _)

theorem fresh_step {a : SlotAct C} (hs : s.Inv) (hfresh : s.Fresh) (h : step s a = some s') :
    s'.Fresh := by
  intro q hq
  have hold : s.next ≤ q := (next_step h).trans hq
  by_contra hset
  rcases (cancel_step hfresh h).mp (Bool.eq_true_of_not_eq_false hset) with hwas | hcancels
  · rw [hfresh q hold] at hwas
    cases hwas
  · cases a with
    | go c =>
      -- the current run has been made
      obtain ⟨-, hcur⟩ := hcancels
      have := hs.known
      omega
    | engine r a =>
      cases a with
      | stopItself =>
        have hqr : r = q := hcancels
        simp only [step, stepEngine, hqr, hs.absent q hold, reduceCtorEq, if_false] at h
      | _ => exact hcancels
    | _ => exact hcancels

/-- **Who is cancelled.** The switch of a run is on if and only if, at some step of the history, a
cancel made its store while the run was the current one, or the run stopped itself. A cancel that
makes its store after a start has claimed the slot, and before it has installed its run, is one of
the run before. -/
theorem cancelled_iff (as : List (SlotAct C)) (u : IngestSlot C) (hrun : run step boot as = some u)
    (r : ℕ) :
    (u.runs r).cancel = true ↔
      ∃ pre a post s, as = pre ++ a :: post ∧ run step boot pre = some s ∧ s.Cancels r a := by
  have hboot : ((boot : IngestSlot C).runs r).cancel ≠ true := Bool.false_ne_true
  rw [@run_latch _ _ _ (fun s : IngestSlot C => s.Inv ∧ s.Fresh)
    (fun s => (s.runs r).cancel = true) (fun s a => s.Cancels r a)
    (fun s a s' hs h => ⟨inv_step hs.1 h, fresh_step hs.1 hs.2 h⟩)
    (fun s a s' hs h => cancel_step hs.2 h) _ _ _ ⟨inv_boot, fun _ _ => rfl⟩ hrun]
  exact or_iff_right hboot

/-! ## Watching -/

/-- The fields that only grow while a run lasts. -/
def Grows : StatusField → Prop
  | .cancelled | .counter .indexed | .counter .seen | .counter .skipped => True
  | _ => False

omit [DecidableEq C] in
theorem load_modify {q : ℕ} {f : IngestRun → IngestRun} {k : StatusField}
    (hf : (s.runs q).load k ≤ (f (s.runs q)).load k) (r : ℕ) :
    (s.runs r).load k ≤ ((s.modify q f).runs r).load k := by
  by_cases hr : r = q
  · subst hr
    rw [runs_modify_self]
    exact hf
  · rw [runs_modify_of_ne hr]

theorem load_le_cancel (run : IngestRun) (k : StatusField) :
    run.load k ≤ ({ run with cancel := true } : IngestRun).load k := by
  cases k with
  | cancelled => exact Bool.toNat_le run.cancel
  | _ => exact le_refl _

theorem load_running (run : IngestRun) (b : Bool) {k : StatusField} (hk : Grows k) :
    run.load k ≤ ({ run with running := b } : IngestRun).load k := by
  cases k with
  | running => exact hk.elim
  | _ => exact le_refl _

theorem load_set (run : IngestRun) {j : IngestCounter} {n : ℕ} {k : StatusField}
    (h : k = .counter j → run.counters j ≤ n) : run.load k ≤ (run.set j n).load k := by
  cases k with
  | counter i =>
    by_cases hij : i = j
    · subst hij
      simp only [IngestRun.load, IngestRun.set, Function.update_self]
      exact h rfl
    · simp only [IngestRun.load, IngestRun.set, Function.update_of_ne hij]
      exact le_refl _
  | _ => exact le_refl _

omit [DecidableEq C] in
theorem load_stepEngine {q r : ℕ} {a : EngineAct} {k : StatusField} (hk : Grows k)
    (h : s.stepEngine q a = some s') : (s.runs r).load k ≤ (s'.runs r).load k := by
  cases a with
  | begin =>
    simp only [stepEngine, Option.ite_none_right_eq_some, Option.some.injEq] at h
    obtain ⟨-, rfl⟩ := h
    rw [runs_setEngine]
    exact load_modify (load_running _ _ hk) r
  | add j n =>
    simp only [stepEngine, Option.ite_none_right_eq_some, Option.some.injEq] at h
    obtain ⟨-, rfl⟩ := h
    exact load_modify (load_set _ fun _ => Nat.le_add_right _ n) r
  | store j n =>
    simp only [stepEngine, Option.ite_none_right_eq_some, Option.some.injEq] at h
    obtain ⟨⟨-, hj⟩, rfl⟩ := h
    refine load_modify (load_set _ ?_) r
    -- neither `pass` nor `passes` is one of the fields in question
    rintro rfl
    rcases List.mem_pair.mp hj with rfl | rfl <;> exact hk.elim
  | stopItself =>
    simp only [stepEngine, Option.ite_none_right_eq_some, Option.some.injEq] at h
    obtain ⟨-, rfl⟩ := h
    exact load_modify (load_le_cancel _ k) r
  | finish =>
    simp only [stepEngine, Option.ite_none_right_eq_some, Option.some.injEq] at h
    obtain ⟨-, rfl⟩ := h
    rw [runs_setEngine]
    exact load_modify (load_running _ _ hk) r
  | stamp now =>
    simp only [stepEngine, Option.ite_none_right_eq_some, Option.some.injEq] at h
    obtain ⟨-, rfl⟩ := h
    rw [runs_setEngine]
    refine load_modify (load_set _ ?_) r
    rintro rfl
    exact hk.elim
  | release =>
    simp only [stepEngine, Option.ite_none_right_eq_some, Option.some.injEq] at h
    obtain ⟨-, rfl⟩ := h
    exact le_refl _
  | panic =>
    simp only [stepEngine, Option.ite_none_right_eq_some, Option.some.injEq] at h
    obtain ⟨-, rfl⟩ := h
    exact le_refl _

/-- What a status shows of a run that has been made only grows. -/
theorem load_step {a : SlotAct C} {r : ℕ} {k : StatusField} (hk : Grows k) (hr : r < s.next)
    (h : step s a = some s') : (s.runs r).load k ≤ (s'.runs r).load k := by
  cases a with
  | start c =>
    simp only [step] at h
    split at h
    · split at h <;> cases h <;> exact le_refl _
    · cases h
  | cancel c =>
    simp only [step] at h
    split at h
    · split at h <;> cases h <;> exact le_refl _
    · cases h
  | status c =>
    simp only [step] at h
    split at h <;> cases h
    exact le_refl _
  | go c =>
    simp only [step, stepClient] at h
    split at h <;> cases h
    case h_1 => simp only [goto, Function.update_of_ne (Nat.ne_of_lt hr), le_refl]
    case h_3 =>
      rw [runs_goto]
      exact load_modify (load_le_cancel _ k) r
    all_goals exact le_refl _
  | engine q a => exact load_stepEngine hk h

/-- The run is known, and every value read is one its field has had since the request came. -/
structure ReadOk (s : IngestSlot C) (read : StatusRead) : Prop where
  known : read.run < s.next
  since : ∀ k, Grows k → read.since k ≤ (s.runs read.run).load k
  got : ∀ e ∈ read.got, Grows e.1 → read.since e.1 ≤ e.2 ∧ e.2 ≤ (s.runs read.run).load e.1

/-- What a request has read. -/
def SlotPc.read : SlotPc → Option StatusRead
  | .reading read _ | .answered (.status read) => some read
  | _ => none

theorem ReadOk.step {a : SlotAct C} {read : StatusRead} (hs : s.ReadOk read)
    (h : step s a = some s') : s'.ReadOk read where
  known := lt_of_lt_of_le hs.known (next_step h)
  since := fun k hk => (hs.since k hk).trans (load_step hk hs.known h)
  got := fun e he hk =>
    ⟨(hs.got e he hk).1, (hs.got e he hk).2.trans (load_step hk hs.known h)⟩

section Runs

/-- Request `false` starts an ingest; request `true` cancels before the run is installed. -/
private def early : List (SlotAct Bool) :=
  [.start false, .cancel true, .go true, .go false, .go false, .engine 1 .begin, .engine 1 (.add .seen 5)]

/-- Then request `true` asks for the status. -/
private def watched : List (SlotAct Bool) :=
  early ++ [.status true] ++ List.replicate 6 (.go true) ++ [.engine 1 (.add .skipped 2)] ++
    List.replicate 3 (.go true)

private theorem early_isSome : (run step (boot : IngestSlot Bool) early).isSome := by
  decide +kernel

private def started : IngestSlot Bool := (run step boot early).get early_isSome

private theorem watched_isSome : (run step (boot : IngestSlot Bool) watched).isSome := by
  decide +kernel

private def seen : IngestSlot Bool := (run step boot watched).get watched_isSome

/-- One engine, of run 1. -/
theorem started_alone : started.Working 1 ∧ ∀ q, started.Working q → q = 1 :=
  ⟨Or.inr (Or.inl rfl),
    (one_ingest early started (Option.some_get _).symm 1 (Or.inr (Or.inl rfl))).1⟩

/-- The cancel was answered with yes, and run 1 is not cancelled: no step of the history put its
switch on. -/
theorem started_uncancelled : started.clients true = .answered (.cancelled true) ∧
    ¬ ∃ pre a post s, early = pre ++ a :: post ∧ run step boot pre = some s ∧ s.Cancels 1 a := by
  refine ⟨rfl, fun h => ?_⟩
  have hset := (cancelled_iff early started (Option.some_get _).symm 1).mpr h
  exact absurd hset (by decide +kernel)

end Runs

end IngestSlot

end NostrSearch.Server
