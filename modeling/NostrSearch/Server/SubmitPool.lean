import NostrSearch.Lib.Totals
import NostrSearch.Server.Submit

/-!
# Who works on the submissions

Any number of requests upload at once, each with a slot of `max_concurrent`, and a fixed number of
workers process what has arrived, one job at a time. A step is what one of them does before another
can see it: a handler under a lock or between two awaits of its own, a worker up to its next look at
what it shares. Shutting down sets a switch and waits for `running` to be zero.

`uploads_bounded` counts the uploads, whatever becomes of a connection. `job_held_once` says that a
job is processed by one worker at a time, and what `running` counts. `phases_advance` is the life of
a job: an upload that was accepted is not interrupted by the end of its request, and what is over
stays over. `quiet_after_stop` says from when on a node that stops processes nothing.

A job is its place in the list, to which jobs are only added. The connections and the workers are
types, `slots` is a history variable: the handlers with a `Slot`.
-/

namespace NostrSearch.Server.SubmitPool

open NostrSearch.Lib
open NostrSearch.Server.Submit (Phase)

structure Job where
  id : String
  pubkey : String
  phase : Phase
deriving DecidableEq

/-- What `view` shows of a job that does not change. -/
def Job.owner (job : Job) : String × String := (job.id, job.pubkey)

/-- What `load_jobs` makes of the phase in a record, by whether the upload is there. -/
def loaded (phase : Phase) (hasFile : Bool) : Phase :=
  match phase with
  | .uploading => .interrupted
  | .queued | .processing => if hasFile then .queued else .failed
  | .done | .failed | .interrupted => phase

/-- Where a handler of `upload` is. -/
inductive UploadPc
  /-- no such request, or none any more -/
  | idle
  /-- it has its slot -/
  | slotted
  /-- it has made the job and its guard, and takes in the body -/
  | receiving (job : ℕ)
  /-- it returns, or is dropped, with the guard -/
  | guarded (job : ℕ)
  /-- the guard is gone, the slot is not -/
  | leaving
deriving DecidableEq

inductive UploadAct
  | takeSlot
  | noRandomness
  | push (id pubkey : String)
  /-- the job is set to `Failed`: no file, no space, an error of the disk -/
  | fail
  /-- the body fails, or the future is dropped -/
  | interrupt
  | queue
  | dropGuard
  | dropSlot

/-- How `process` ends. -/
inductive Outcome
  | done
  | stopped
  | failed
deriving DecidableEq

def Outcome.phase : Outcome → Phase
  | .done => .done
  | .stopped => .queued
  | .failed => .failed

theorem Outcome.phase_ne (outcome : Outcome) :
    Phase.processing ≠ outcome.phase ∧ Phase.uploading ≠ outcome.phase := by
  cases outcome <;> exact ⟨by rintro ⟨⟩, by rintro ⟨⟩⟩

/-- Where a worker is in its loop. -/
inductive WorkerPc
  /-- before it looks at `stopping` -/
  | check
  /-- before `claim` -/
  | claim
  /-- it has a job, and `running` is to be raised -/
  | claimed (job : ℕ)
  | working (job : ℕ)
  /-- the job has its phase, and `running` is to be lowered -/
  | settled
  | waiting
  | stopped
deriving DecidableEq

/-- The part of `SubmitState` that uploads and workers share, and where they are. -/
structure SubmitState (U W : Type) where
  jobs : List Job
  active : ℕ
  uploads : U → UploadPc
  slots : Finset U
  stopping : Bool
  running : ℕ
  workers : W → WorkerPc

inductive Act (U W : Type)
  | upload (u : U) (a : UploadAct)
  | worker (w : W)
  | result (w : W) (outcome : Outcome)
  | stop

namespace SubmitState

variable {U W : Type}

/-- `Job::state`. -/
def phase (s : SubmitState U W) (j : ℕ) : Option Phase := s.jobs[j]?.map Job.phase

/-- `Job::set`, of which the record is not part. -/
def set (s : SubmitState U W) (j : ℕ) (phase : Phase) : SubmitState U W :=
  { s with jobs := s.jobs.modify j fun job => { job with phase := phase } }

/-- The job that `Job::new` makes joins the list. -/
def push (s : SubmitState U W) (id pubkey : String) : SubmitState U W :=
  { s with jobs := s.jobs ++ [{ id := id, pubkey := pubkey, phase := .uploading }] }

def goUpload [DecidableEq U] (s : SubmitState U W) (u : U) (pc : UploadPc) : SubmitState U W :=
  { s with uploads := Function.update s.uploads u pc }

def goWorker [DecidableEq W] (s : SubmitState U W) (w : W) (pc : WorkerPc) : SubmitState U W :=
  { s with workers := Function.update s.workers w pc }

/-- `UploadGuard::drop`. -/
def dropGuard (s : SubmitState U W) (j : ℕ) : SubmitState U W :=
  if s.phase j = some .uploading then s.set j .interrupted else s

/-- What a handler of `upload` does. -/
def stepUpload [DecidableEq U] (maxConcurrent : ℕ) (s : SubmitState U W) (u : U) (a : UploadAct) :
    Option (SubmitState U W) :=
  match s.uploads u, a with
  | .idle, .takeSlot =>
    if maxConcurrent ≤ s.active then some s
    else some { s.goUpload u .slotted with active := s.active + 1, slots := insert u s.slots }
  | .slotted, .noRandomness => some (s.goUpload u .leaving)
  | .slotted, .push id pubkey =>
    some ((s.push id pubkey).goUpload u (.receiving s.jobs.length))
  | .receiving j, .fail => some ((s.set j .failed).goUpload u (.guarded j))
  | .receiving j, .interrupt => some (s.goUpload u (.guarded j))
  | .receiving j, .queue => some ((s.set j .queued).goUpload u (.guarded j))
  | .guarded j, .dropGuard => some ((s.dropGuard j).goUpload u .leaving)
  -- `saturating_sub`, in the drop of the `Slot`
  | .leaving, .dropSlot =>
    some { s.goUpload u .idle with active := s.active - 1, slots := s.slots.erase u }
  | _, _ => none

/-- What a worker does, but for the end of `process`. -/
def stepWorker [DecidableEq W] (s : SubmitState U W) (w : W) : Option (SubmitState U W) :=
  match s.workers w with
  | .check => some (s.goWorker w (if s.stopping then .stopped else .claim))
  | .claim =>
    match s.jobs.findIdx? fun job => job.phase = .queued with
    | some j => some ((s.set j .processing).goWorker w (.claimed j))
    | none => some (s.goWorker w .waiting)
  | .claimed j => some { s.goWorker w (.working j) with running := s.running + 1 }
  | .settled => some { s.goWorker w .check with running := s.running - 1 }
  -- woken, or after a second
  | .waiting => some (s.goWorker w .check)
  | .working _ | .stopped => none

def step [DecidableEq U] [DecidableEq W] (maxConcurrent : ℕ) (s : SubmitState U W) :
    Act U W → Option (SubmitState U W)
  | .upload u a => s.stepUpload maxConcurrent u a
  | .worker w => s.stepWorker w
  | .result w outcome =>
    match s.workers w with
    | .working j =>
      if outcome = .stopped ∧ s.stopping = false then none
      else some ((s.set j outcome.phase).goWorker w .settled)
    | _ => none
  | .stop => some { s with stopping := true }

/-- `SubmitState::new`, on the records in the directory, with whether their uploads are there. -/
def start (records : List (Job × Bool)) : SubmitState U W :=
  { jobs := records.map fun r => { r.1 with phase := loaded r.1.phase r.2 }
    active := 0
    uploads := fun _ => .idle
    slots := ∅
    stopping := false
    running := 0
    workers := fun _ => .check }

@[simp] theorem goUpload_self [DecidableEq U] (s : SubmitState U W) (u : U) (pc : UploadPc) :
    (s.goUpload u pc).uploads u = pc := Function.update_self _ _ _

theorem goUpload_of_ne [DecidableEq U] (s : SubmitState U W) {u v : U} (pc : UploadPc) (h : v ≠ u) :
    (s.goUpload u pc).uploads v = s.uploads v := Function.update_of_ne h _ _

/-! ## Phases -/

theorem phase_set (s : SubmitState U W) (j : ℕ) (p : Phase) (i : ℕ) :
    (s.set j p).phase i = if j = i then (s.phase i).map fun _ => p else s.phase i := by
  simp only [phase, set, List.getElem?_modify]
  by_cases h : j = i
  · rw [if_pos h]
    simp [h, Function.comp_def]
  · rw [if_neg h]
    simp [h]

/-- A job that is set to another phase: the others are as before. -/
theorem phase_set_iff {s : SubmitState U W} {j : ℕ} {p q r : Phase} (hj : s.phase j = some q)
    (hrp : r ≠ p) (hrq : r ≠ q) (i : ℕ) :
    (s.set j p).phase i = some r ↔ s.phase i = some r := by
  rw [phase_set]
  split
  case isTrue h =>
    subst h
    rw [hj, Option.map_some, Option.some.injEq, Option.some.injEq]
    exact ⟨fun h => absurd h.symm hrp, fun h => absurd h.symm hrq⟩
  case isFalse => exact Iff.rfl

theorem phase_set_self {s : SubmitState U W} {j : ℕ} {q : Phase} (p : Phase)
    (hj : s.phase j = some q) : (s.set j p).phase j = some p := by
  rw [phase_set, if_pos rfl, hj, Option.map_some]

/-- Of what `set` leaves, what is not the phase it sets was there. -/
theorem of_phase_set {s : SubmitState U W} {i j : ℕ} {p r : Phase}
    (h : (s.set j p).phase i = some r) (hrp : r ≠ p) : j ≠ i ∧ s.phase i = some r := by
  rw [phase_set] at h
  split at h
  case isTrue =>
    obtain ⟨q, -, hq⟩ := Option.map_eq_some_iff.mp h
    exact absurd hq.symm hrp
  case isFalse hne => exact ⟨hne, h⟩

theorem phase_set_of_ne (s : SubmitState U W) {i j : ℕ} (p : Phase) (h : j ≠ i) :
    (s.set j p).phase i = s.phase i := by
  rw [phase_set, if_neg h]

@[simp] theorem set_length (s : SubmitState U W) (j : ℕ) (p : Phase) :
    (s.set j p).jobs.length = s.jobs.length := List.length_modify _ _ _

@[simp] theorem dropGuard_length (s : SubmitState U W) (j : ℕ) :
    (s.dropGuard j).jobs.length = s.jobs.length := by
  unfold dropGuard
  split
  · exact set_length _ _ _
  · rfl

theorem dropGuard_eq (s : SubmitState U W) (j : ℕ) :
    s.dropGuard j = { s with jobs := (s.dropGuard j).jobs } := by
  unfold dropGuard
  split <;> rfl

theorem of_phase_dropGuard {s : SubmitState U W} {i j : ℕ}
    (h : (s.dropGuard j).phase i = some .uploading) : j ≠ i ∧ s.phase i = some .uploading := by
  unfold dropGuard at h
  split at h
  case isTrue => exact of_phase_set h (by rintro ⟨⟩)
  case isFalse hj =>
    refine ⟨?_, h⟩
    rintro rfl
    exact hj h

theorem phase_dropGuard_of_ne (s : SubmitState U W) {i j : ℕ} (h : j ≠ i) :
    (s.dropGuard j).phase i = s.phase i := by
  unfold dropGuard
  split
  · exact phase_set_of_ne _ _ h
  · rfl

theorem phase_push_self (s : SubmitState U W) (id pubkey : String) :
    (s.push id pubkey).phase s.jobs.length = some .uploading := by
  rw [phase, push, List.getElem?_concat_length]
  rfl

theorem phase_push_of_ne (s : SubmitState U W) (id pubkey : String) {j : ℕ}
    (h : j ≠ s.jobs.length) : (s.push id pubkey).phase j = s.phase j := by
  rw [phase, phase, push]
  rcases Nat.lt_or_gt_of_ne h with hlt | hgt
  · rw [List.getElem?_append_left hlt]
  · rw [List.getElem?_eq_none hgt.le, List.getElem?_eq_none]
    rw [List.length_append]
    exact hgt

/-- What `claim` finds is queued. -/
theorem phase_of_findIdx {s : SubmitState U W} {j : ℕ}
    (h : (s.jobs.findIdx? fun job => job.phase = .queued) = some j) :
    s.phase j = some .queued := by
  obtain ⟨hlt, hj, -⟩ := List.findIdx?_eq_some_iff_getElem.mp h
  rw [phase, List.getElem?_eq_getElem hlt, Option.map_some, of_decide_eq_true hj]

theorem phase_lt {s : SubmitState U W} {j : ℕ} {p : Phase} (h : s.phase j = some p) :
    j < s.jobs.length := by
  obtain ⟨job, hjob, -⟩ := Option.map_eq_some_iff.mp h
  exact (List.getElem?_eq_some_iff.mp hjob).1

end SubmitState

/-! ## Uploads -/

/-- The job a handler has the guard of. -/
def UploadPc.job : UploadPc → Option ℕ
  | .receiving j | .guarded j => some j
  | _ => none

namespace SubmitState

variable {U W : Type}

/-- The handlers have the slots. -/
structure Slots (maxConcurrent : ℕ) (s : SubmitState U W) : Prop where
  slots : ∀ u, u ∈ s.slots ↔ s.uploads u ≠ .idle
  active : s.active = s.slots.card
  bounded : s.active ≤ maxConcurrent

/-- Each job that is being uploaded has its handler. -/
structure Received (s : SubmitState U W) : Prop where
  known : ∀ u j, (s.uploads u).job = some j → j < s.jobs.length
  receiving : ∀ u j, s.uploads u = .receiving j → s.phase j = some .uploading
  uploading : ∀ j, s.phase j = some .uploading → ∃ u, (s.uploads u).job = some j
  one : ∀ u v j, (s.uploads u).job = some j → (s.uploads v).job = some j → u = v

/-- What is received is as it was. -/
theorem Received.frame {s s' : SubmitState U W} (hs : s.Received)
    (huploads : s'.uploads = s.uploads)
    (hlength : s'.jobs.length = s.jobs.length)
    (hphase : ∀ j, s'.phase j = some .uploading ↔ s.phase j = some .uploading) : s'.Received := by
  constructor
  case known => simpa only [hlength, huploads] using hs.known
  case receiving => simpa only [hphase, huploads] using hs.receiving
  case uploading => simpa only [hphase, huploads] using hs.uploading
  case one => simpa only [huploads] using hs.one

variable [DecidableEq U]

/-- A handler goes on with the slot it has. -/
theorem Slots.goOn {maxConcurrent : ℕ} {s s' : SubmitState U W} {u : U} {pc : UploadPc}
    (hs : s.Slots maxConcurrent) (hslots : s'.slots = s.slots) (hactive : s'.active = s.active)
    (huploads : s'.uploads = Function.update s.uploads u pc) (hbusy : s.uploads u ≠ .idle)
    (hpc : pc ≠ .idle) : s'.Slots maxConcurrent := by
  refine ⟨fun v => ?_, by rw [hactive, hslots, hs.active], hactive ▸ hs.bounded⟩
  rw [hslots, hs.slots v, huploads]
  by_cases huv : v = u
  · subst huv
    rw [Function.update_self]
    exact iff_of_true hbusy hpc
  · rw [Function.update_of_ne huv]

theorem Slots.take {maxConcurrent : ℕ} {s : SubmitState U W} {u : U} (hs : s.Slots maxConcurrent)
    (hpc : s.uploads u = .idle) (hfree : s.active < maxConcurrent) :
    ({ s.goUpload u .slotted with
      active := s.active + 1, slots := insert u s.slots } : SubmitState U W).Slots
        maxConcurrent := by
  have hout : u ∉ s.slots := fun hu => (hs.slots u).mp hu hpc
  refine ⟨fun v => ?_, ?_, hfree⟩
  · simp only [goUpload, Finset.mem_insert]
    by_cases huv : v = u
    · subst huv
      rw [Function.update_self]
      exact iff_of_true (Or.inl rfl) (by rintro ⟨⟩)
    · rw [Function.update_of_ne huv, hs.slots v, or_iff_right huv]
  · rw [Finset.card_insert_of_notMem hout, hs.active]

theorem Slots.drop {maxConcurrent : ℕ} {s : SubmitState U W} {u : U} (hs : s.Slots maxConcurrent)
    (hpc : s.uploads u = .leaving) :
    ({ s.goUpload u .idle with
      active := s.active - 1, slots := s.slots.erase u } : SubmitState U W).Slots
        maxConcurrent := by
  have hin : u ∈ s.slots := (hs.slots u).mpr (by rw [hpc]; rintro ⟨⟩)
  refine ⟨fun v => ?_, ?_, (Nat.sub_le _ _).trans hs.bounded⟩
  · simp only [goUpload, Finset.mem_erase]
    by_cases huv : v = u
    · subst huv
      rw [Function.update_self]
      exact iff_of_false (fun h => h.1 rfl) (fun h => h rfl)
    · rw [Function.update_of_ne huv, hs.slots v, and_iff_right huv]
  · rw [Finset.card_erase_of_mem hin, hs.active]

/-- A handler goes on without a job, or with the one it has. -/
theorem Received.goOn {s s' : SubmitState U W} {u : U} {pc : UploadPc} (hs : s.Received)
    (huploads : s'.uploads = Function.update s.uploads u pc)
    (hlength : s'.jobs.length = s.jobs.length) (hnot : ∀ j, pc ≠ .receiving j)
    (hjob : ∀ j, pc.job = some j → (s.uploads u).job = some j)
    (hphase : ∀ j, s'.phase j = some .uploading →
      s.phase j = some .uploading ∧ ((s.uploads u).job = some j → pc.job = some j))
    (hothers : ∀ j, (s.uploads u).job ≠ some j → s'.phase j = s.phase j) : s'.Received := by
  have hat : s'.uploads u = pc := by rw [huploads, Function.update_self]
  have hne : ∀ v, v ≠ u → s'.uploads v = s.uploads v := by
    intro v hv
    rw [huploads, Function.update_of_ne hv]
  -- a handler has no job it did not have
  have hold : ∀ v j, (s'.uploads v).job = some j → (s.uploads v).job = some j := by
    intro v j hv
    by_cases huv : v = u
    · subst huv
      rw [hat] at hv
      exact hjob j hv
    · rwa [hne v huv] at hv
  constructor
  case known =>
    intro v j hv
    rw [hlength]
    exact hs.known v j (hold v j hv)
  case receiving =>
    intro v j hv
    by_cases huv : v = u
    · subst huv
      exact absurd (hat.symm.trans hv) (hnot j)
    · rw [hne v huv] at hv
      have hjv : (s.uploads v).job = some j := by rw [hv]; rfl
      rw [hothers j fun hju => huv (hs.one v u j hjv hju)]
      exact hs.receiving v j hv
  case uploading =>
    intro j hj
    obtain ⟨hbefore, hkeeps⟩ := hphase j hj
    obtain ⟨v, hv⟩ := hs.uploading j hbefore
    by_cases huv : v = u
    · subst huv
      exact ⟨v, by rw [hat]; exact hkeeps hv⟩
    · exact ⟨v, by rwa [hne v huv]⟩
  case one => exact fun v w j hv hw => hs.one v w j (hold v j hv) (hold w j hw)

/-- A handler without a job goes on without one. -/
theorem Received.without {s s' : SubmitState U W} {u : U} {pc : UploadPc} (hs : s.Received)
    (huploads : s'.uploads = Function.update s.uploads u pc) (hjobs : s'.jobs = s.jobs)
    (hbefore : (s.uploads u).job = none) (hafter : pc.job = none) : s'.Received := by
  have hphase : s'.phase = s.phase := by
    funext j
    rw [phase, hjobs, phase]
  refine hs.goOn huploads (by rw [hjobs]) ?_ ?_ ?_ (fun j _ => by rw [hphase])
  · rintro j rfl
    cases hafter
  · intro j hj
    rw [hafter] at hj
    cases hj
  · intro j hj
    rw [hphase] at hj
    exact ⟨hj, by rw [hbefore]; rintro ⟨⟩⟩

/-- A handler sets the job it receives. -/
theorem Received.setBy {s : SubmitState U W} {u : U} {j : ℕ} {p : Phase} (hs : s.Received)
    (hpc : s.uploads u = .receiving j) (hp : Phase.uploading ≠ p) :
    ((s.set j p).goUpload u (.guarded j)).Received := by
  refine hs.goOn rfl (set_length _ _ _) (by rintro _ ⟨⟩) ?_ ?_ ?_
  · rintro i ⟨⟩
    rw [hpc]
    rfl
  · intro i hi
    obtain ⟨hne, hi⟩ := of_phase_set hi hp
    exact ⟨hi, by rw [hpc]; exact fun h => h⟩
  · intro i hi
    rw [hpc] at hi
    refine phase_set_of_ne _ _ ?_
    rintro rfl
    exact hi rfl

/-- A job is made. -/
theorem Received.push {s : SubmitState U W} {u : U} (hs : s.Received)
    (hpc : s.uploads u = .slotted) (id pubkey : String) :
    ((s.push id pubkey).goUpload u (.receiving s.jobs.length)).Received := by
  have hnew : (s.push id pubkey).phase s.jobs.length = some .uploading :=
    phase_push_self s id pubkey
  have hbefore : ∀ v j, (s.uploads v).job = some j → (s.push id pubkey).phase j = s.phase j :=
    fun v j hv => phase_push_of_ne s id pubkey (hs.known v j hv).ne
  have hlength : (s.push id pubkey).jobs.length = s.jobs.length + 1 := List.length_append
  have hat : ∀ v j, v ≠ u →
      (((s.push id pubkey).goUpload u (.receiving s.jobs.length)).uploads v).job = some j →
        (s.uploads v).job = some j := by
    intro v j hv hj
    rwa [goUpload_of_ne _ _ hv] at hj
  constructor
  case known =>
    intro v j hv
    show j < (s.push id pubkey).jobs.length
    rw [hlength]
    by_cases huv : v = u
    · subst huv
      rw [goUpload_self] at hv
      cases hv
      exact Nat.lt_succ_self _
    · exact (hs.known v j (hat v j huv hv)).trans (Nat.lt_succ_self _)
  case receiving =>
    intro v j hv
    show (s.push id pubkey).phase j = _
    by_cases huv : v = u
    · subst huv
      rw [goUpload_self] at hv
      cases hv
      exact hnew
    · rw [goUpload_of_ne _ _ huv] at hv
      have hv : s.uploads v = .receiving j := hv
      rw [hbefore v j (by rw [hv]; rfl)]
      exact hs.receiving v j hv
  case uploading =>
    intro j hj
    have hj : (s.push id pubkey).phase j = some .uploading := hj
    by_cases hlast : j = s.jobs.length
    · refine ⟨u, ?_⟩
      rw [goUpload_self, hlast]
      rfl
    · rw [phase_push_of_ne s id pubkey hlast] at hj
      obtain ⟨v, hv⟩ := hs.uploading j hj
      have huv : v ≠ u := by
        rintro rfl
        rw [hpc] at hv
        cases hv
      refine ⟨v, ?_⟩
      rw [goUpload_of_ne _ _ huv]
      exact hv
  case one =>
    -- the job's place was nobody's
    have hplace : ∀ v, v ≠ u → ∀ j, (s.uploads v).job = some j → j ≠ s.jobs.length :=
      fun v _ j hv => (hs.known v j hv).ne
    have hself : (((s.push id pubkey).goUpload u (.receiving s.jobs.length)).uploads u).job =
        some s.jobs.length := by
      rw [goUpload_self]
      rfl
    intro v w j hv hw
    by_cases huv : v = u
    · by_cases huw : w = u
      · rw [huv, huw]
      · rw [huv, hself] at hv
        exact absurd (Option.some.inj hv).symm (hplace w huw j (hat w j huw hw))
    · by_cases huw : w = u
      · rw [huw, hself] at hw
        exact absurd (Option.some.inj hw).symm (hplace v huv j (hat v j huv hv))
      · exact hs.one v w j (hat v j huv hv) (hat w j huw hw)

theorem received_stepUpload {maxConcurrent : ℕ} {s s' : SubmitState U W} {u : U} {a : UploadAct}
    (hs : s.Slots maxConcurrent ∧ s.Received) (h : s.stepUpload maxConcurrent u a = some s') :
    s'.Slots maxConcurrent ∧ s'.Received := by
  obtain ⟨hslots, hs⟩ := hs
  unfold stepUpload at h
  split at h
  case h_1 hpc =>
    have hjob : (s.uploads u).job = none := by rw [hpc]; rfl
    split at h <;> cases h
    case isTrue => exact ⟨hslots, hs⟩
    case isFalse hfree =>
      exact ⟨hslots.take hpc (Nat.lt_of_not_le hfree), hs.without rfl rfl hjob rfl⟩
  case h_2 hpc =>
    have hjob : (s.uploads u).job = none := by rw [hpc]; rfl
    cases h
    exact ⟨hslots.goOn rfl rfl rfl (by rw [hpc]; rintro ⟨⟩) (by rintro ⟨⟩),
      hs.without rfl rfl hjob rfl⟩
  case h_3 id pubkey hpc =>
    cases h
    exact ⟨hslots.goOn rfl rfl rfl (by rw [hpc]; rintro ⟨⟩) (by rintro ⟨⟩), hs.push hpc id pubkey⟩
  case h_4 j hpc =>
    cases h
    exact ⟨hslots.goOn rfl rfl rfl (by rw [hpc]; rintro ⟨⟩) (by rintro ⟨⟩),
      hs.setBy hpc (by rintro ⟨⟩)⟩
  case h_5 j hpc =>
    cases h
    refine ⟨hslots.goOn rfl rfl rfl (by rw [hpc]; rintro ⟨⟩) (by rintro ⟨⟩), ?_⟩
    refine hs.goOn rfl rfl (by rintro _ ⟨⟩) ?_ ?_ (fun _ _ => rfl)
    · rintro i ⟨⟩
      rw [hpc]
      rfl
    · exact fun i hi => ⟨hi, by rw [hpc]; exact fun h => h⟩
  case h_6 j hpc =>
    cases h
    exact ⟨hslots.goOn rfl rfl rfl (by rw [hpc]; rintro ⟨⟩) (by rintro ⟨⟩),
      hs.setBy hpc (by rintro ⟨⟩)⟩
  case h_7 j hpc =>
    cases h
    rw [dropGuard_eq]
    refine ⟨hslots.goOn rfl rfl rfl (by rw [hpc]; rintro ⟨⟩) (by rintro ⟨⟩), ?_⟩
    refine hs.goOn rfl (dropGuard_length s j) (by rintro _ ⟨⟩) (by rintro _ ⟨⟩) ?_ ?_
    · intro i hi
      obtain ⟨hne, hi⟩ := of_phase_dropGuard hi
      exact ⟨hi, by rw [hpc]; rintro ⟨⟩; exact absurd rfl hne⟩
    · intro i hi
      rw [hpc] at hi
      refine phase_dropGuard_of_ne s ?_
      rintro rfl
      exact hi rfl
  case h_8 hpc =>
    have hjob : (s.uploads u).job = none := by rw [hpc]; rfl
    cases h
    exact ⟨hslots.drop hpc, hs.without rfl rfl hjob rfl⟩
  case h_9 => cases h

end SubmitState

/-! ## Workers -/

/-- The job a worker processes. -/
def WorkerPc.job : WorkerPc → Option ℕ
  | .claimed j | .working j => some j
  | _ => none

/-- What a worker has in `running`. -/
def WorkerPc.counted : WorkerPc → ℕ
  | .working _ | .settled => 1
  | _ => 0

namespace SubmitState

variable {U W : Type} [DecidableEq W] [Fintype W]

/-- Each job that is being processed has its worker. -/
structure Processed (s : SubmitState U W) : Prop where
  held : ∀ w j, (s.workers w).job = some j → s.phase j = some .processing
  processing : ∀ j, s.phase j = some .processing → ∃ w, (s.workers w).job = some j
  alone : ∀ v w j, (s.workers v).job = some j → (s.workers w).job = some j → v = w
  running : s.running = ∑ w, (s.workers w).counted

omit [DecidableEq W] in
/-- What is processed is as it was. -/
theorem Processed.frame {s s' : SubmitState U W} (hs : s.Processed)
    (hworkers : s'.workers = s.workers) (hrunning : s'.running = s.running)
    (hphase : ∀ j, s'.phase j = some .processing ↔ s.phase j = some .processing) :
    s'.Processed := by
  constructor
  case held => simpa only [hphase, hworkers] using hs.held
  case processing => simpa only [hphase, hworkers] using hs.processing
  case alone => simpa only [hworkers] using hs.alone
  case running => rw [hrunning, hworkers, hs.running]

/-- A worker goes on: the job it had, if it has it no more, is not processed, and the one it has
now was not, if it is another. -/
theorem Processed.goOn {s s' : SubmitState U W} {w : W} {pc : WorkerPc} (hs : s.Processed)
    (hworkers : s'.workers = Function.update s.workers w pc)
    (hrunning : s'.running + (s.workers w).counted = s.running + pc.counted)
    (hphase : ∀ j, s'.phase j = some .processing ↔
      s.phase j = some .processing ∧ (s.workers w).job ≠ some j ∨ pc.job = some j)
    (hnew : ∀ j, pc.job = some j → (s.workers w).job = some j ∨ s.phase j ≠ some .processing) :
    s'.Processed := by
  have hat : s'.workers w = pc := by rw [hworkers, Function.update_self]
  have hne : ∀ v, v ≠ w → s'.workers v = s.workers v := by
    intro v hv
    rw [hworkers, Function.update_of_ne hv]
  -- the others have other jobs
  have hother : ∀ v, v ≠ w → ∀ j, (s.workers v).job = some j → pc.job ≠ some j := by
    intro v hv j hj hpc
    rcases hnew j hpc with hw | hnot
    · exact hv (hs.alone v w j hj hw)
    · exact hnot (hs.held v j hj)
  constructor
  case held =>
    intro v j hv
    rw [hphase]
    by_cases hvw : v = w
    · subst hvw
      rw [hat] at hv
      exact Or.inr hv
    · rw [hne v hvw] at hv
      exact Or.inl ⟨hs.held v j hv, fun hw => hvw (hs.alone v w j hv hw)⟩
  case processing =>
    intro j hj
    rcases (hphase j).mp hj with ⟨hbefore, hnot⟩ | hpc
    · obtain ⟨v, hv⟩ := hs.processing j hbefore
      have hvw : v ≠ w := by
        rintro rfl
        exact hnot hv
      exact ⟨v, by rwa [hne v hvw]⟩
    · exact ⟨w, by rwa [hat]⟩
  case alone =>
    intro u v j hu hv
    by_cases huw : u = w
    · by_cases hvw : v = w
      · rw [huw, hvw]
      · rw [huw, hat] at hu
        rw [hne v hvw] at hv
        exact absurd hu (hother v hvw j hv)
    · rw [hne u huw] at hu
      by_cases hvw : v = w
      · rw [hvw, hat] at hv
        exact absurd hv (hother u huw j hu)
      · rw [hne v hvw] at hv
        exact hs.alone u v j hu hv
  case running =>
    have hsum := sum_add_of_forall_ne (f := fun v => (s'.workers v).counted)
      (g := fun v => (s.workers v).counted) (k := w) fun v hv => by rw [hne v hv]
    have hbefore := hs.running
    rw [hat] at hsum
    omega

/-- A worker goes on with the job it has, or without one. -/
theorem Processed.keep {s s' : SubmitState U W} {w : W} {pc : WorkerPc} (hs : s.Processed)
    (hworkers : s'.workers = Function.update s.workers w pc) (hjobs : s'.jobs = s.jobs)
    (hrunning : s'.running + (s.workers w).counted = s.running + pc.counted)
    (hjob : pc.job = (s.workers w).job) : s'.Processed := by
  refine hs.goOn hworkers hrunning (fun j => ?_) (fun j hj => Or.inl (hjob ▸ hj))
  rw [phase, hjobs, hjob]
  constructor
  · intro hj
    by_cases hw : (s.workers w).job = some j
    · exact Or.inr hw
    · exact Or.inl ⟨hj, hw⟩
  · rintro (⟨hj, -⟩ | hw)
    · exact hj
    · exact hs.held w j hw

/-- What is received and processed. -/
structure Inv (maxConcurrent : ℕ) (s : SubmitState U W) : Prop where
  slots : s.Slots maxConcurrent
  received : s.Received
  processed : s.Processed

omit [DecidableEq W] in
theorem inv_start (maxConcurrent : ℕ) (records : List (Job × Bool)) :
    (start records : SubmitState U W).Inv maxConcurrent := by
  have hphase : ∀ j p, (start records : SubmitState U W).phase j = some p →
      p ≠ .uploading ∧ p ≠ .processing := by
    intro j p hp
    simp only [phase, start, List.getElem?_map, Option.map_map, Option.map_eq_some_iff] at hp
    obtain ⟨r, -, rfl⟩ := hp
    show loaded r.1.phase r.2 ≠ _ ∧ loaded r.1.phase r.2 ≠ _
    cases r.1.phase <;> cases r.2 <;> exact ⟨by rintro ⟨⟩, by rintro ⟨⟩⟩
  refine ⟨⟨fun u => ?_, rfl, Nat.zero_le _⟩, ⟨?_, ?_, ?_, ?_⟩, ⟨?_, ?_, ?_, ?_⟩⟩
  · exact iff_of_false (Finset.notMem_empty u) (fun h => h rfl)
  · rintro u j ⟨⟩
  · rintro u j ⟨⟩
  · exact fun j hj => absurd rfl (hphase j _ hj).1
  · rintro u v j ⟨⟩
  · rintro w j ⟨⟩
  · exact fun j hj => absurd rfl (hphase j _ hj).2
  · rintro v w j ⟨⟩
  · exact (Finset.sum_const_zero).symm

variable [DecidableEq U]

omit [DecidableEq W] [Fintype W] in
theorem workers_stepUpload {maxConcurrent : ℕ} {s s' : SubmitState U W} {u : U} {a : UploadAct}
    (h : s.stepUpload maxConcurrent u a = some s') :
    s'.stopping = s.stopping ∧ s'.workers = s.workers := by
  unfold stepUpload at h
  split at h
  case h_1 => split at h <;> cases h <;> exact ⟨rfl, rfl⟩
  case h_7 =>
    cases h
    rw [dropGuard_eq]
    exact ⟨rfl, rfl⟩
  case h_9 => cases h
  all_goals
    cases h
    exact ⟨rfl, rfl⟩

omit [DecidableEq W] in
/-- Nobody is processing what a handler of `upload` sets. -/
theorem processed_stepUpload {maxConcurrent : ℕ} {s s' : SubmitState U W} {u : U} {a : UploadAct}
    (hs : s.Received) (hw : s.Processed) (h : s.stepUpload maxConcurrent u a = some s') :
    s'.Processed := by
  have hset : ∀ {j p}, s.uploads u = .receiving j → Phase.processing ≠ p →
      ∀ i, (s.set j p).phase i = some .processing ↔ s.phase i = some .processing :=
    fun hpc hp => phase_set_iff (hs.receiving u _ hpc) hp (by rintro ⟨⟩)
  unfold stepUpload at h
  split at h
  case h_1 => split at h <;> cases h <;> exact hw.frame rfl rfl fun _ => Iff.rfl
  case h_3 id pubkey hpc =>
    cases h
    refine hw.frame rfl rfl fun j => ?_
    show (s.push id pubkey).phase j = _ ↔ _
    by_cases hj : j = s.jobs.length
    · subst hj
      rw [phase_push_self]
      refine iff_of_false (by rintro ⟨⟩) fun hp => ?_
      exact absurd (phase_lt hp) (Nat.lt_irrefl _)
    · rw [phase_push_of_ne s id pubkey hj]
  case h_4 j hpc =>
    cases h
    exact hw.frame rfl rfl (hset hpc (by rintro ⟨⟩))
  case h_6 j hpc =>
    cases h
    exact hw.frame rfl rfl (hset hpc (by rintro ⟨⟩))
  case h_7 j hpc =>
    cases h
    unfold dropGuard
    split
    case isTrue hj =>
      exact hw.frame rfl rfl (phase_set_iff hj (by rintro ⟨⟩) (by rintro ⟨⟩))
    case isFalse => exact hw.frame rfl rfl fun _ => Iff.rfl
  case h_9 => cases h
  all_goals
    cases h
    exact hw.frame rfl rfl fun _ => Iff.rfl

omit [DecidableEq U] [DecidableEq W] in
/-- No worker has to do with what is being uploaded. -/
theorem Inv.ofWorker {maxConcurrent : ℕ} {s s' : SubmitState U W} (hs : s.Inv maxConcurrent)
    (hslots : s'.slots = s.slots) (hactive : s'.active = s.active)
    (huploads : s'.uploads = s.uploads) (hlength : s'.jobs.length = s.jobs.length)
    (hphase : ∀ j, s'.phase j = some .uploading ↔ s.phase j = some .uploading)
    (hw : s'.Processed) : s'.Inv maxConcurrent := by
  refine ⟨⟨?_, ?_, ?_⟩, hs.received.frame huploads hlength hphase, hw⟩
  · rw [hslots, huploads]
    exact hs.slots.slots
  · rw [hactive, hslots]
    exact hs.slots.active
  · rw [hactive]
    exact hs.slots.bounded

omit [DecidableEq U] in
theorem inv_stepWorker {maxConcurrent : ℕ} {s s' : SubmitState U W} {w : W}
    (hs : s.Inv maxConcurrent) (h : s.stepWorker w = some s') : s'.Inv maxConcurrent := by
  unfold stepWorker at h
  split at h
  case h_1 hpc =>
    cases h
    refine hs.ofWorker rfl rfl rfl rfl (fun _ => Iff.rfl) (hs.processed.keep rfl rfl ?_ ?_) <;>
      rw [hpc] <;> split <;> rfl
  case h_2 hpc =>
    split at h <;> cases h
    case h_1 j hfind =>
      have hj := phase_of_findIdx hfind
      refine hs.ofWorker rfl rfl rfl (set_length _ _ _)
        (phase_set_iff hj (by rintro ⟨⟩) (by rintro ⟨⟩)) (hs.processed.goOn rfl ?_ ?_ ?_)
      · rw [hpc]
        rfl
      · intro i
        rw [hpc]
        show (s.set j .processing).phase i = _ ↔ _ ∨ some j = some i
        by_cases hij : j = i
        · subst hij
          exact iff_of_true (phase_set_self _ hj) (Or.inr rfl)
        · rw [phase_set_of_ne _ _ hij, Option.some.injEq, or_iff_left hij]
          exact (and_iff_left (by rintro ⟨⟩)).symm
      · rintro i ⟨⟩
        refine Or.inr ?_
        rw [hj]
        rintro ⟨⟩
    case h_2 =>
      refine hs.ofWorker rfl rfl rfl rfl (fun _ => Iff.rfl) (hs.processed.keep rfl rfl ?_ ?_) <;>
        rw [hpc] <;> rfl
  case h_3 j hpc =>
    cases h
    refine hs.ofWorker rfl rfl rfl rfl (fun _ => Iff.rfl) (hs.processed.keep rfl rfl ?_ ?_) <;>
      rw [hpc] <;> rfl
  case h_4 hpc =>
    cases h
    -- the worker is one of those that `running` counts
    have hpos : 0 < s.running := by
      rw [hs.processed.running]
      refine Finset.sum_pos' (fun _ _ => Nat.zero_le _) ⟨w, Finset.mem_univ w, ?_⟩
      rw [hpc]
      exact Nat.one_pos
    refine hs.ofWorker rfl rfl rfl rfl (fun _ => Iff.rfl) (hs.processed.keep rfl rfl ?_ ?_)
    · rw [hpc]
      show s.running - 1 + 1 = s.running + 0
      omega
    · rw [hpc]
      rfl
  case h_5 hpc =>
    cases h
    refine hs.ofWorker rfl rfl rfl rfl (fun _ => Iff.rfl) (hs.processed.keep rfl rfl ?_ ?_) <;>
      rw [hpc] <;> rfl
  case h_6 => cases h
  case h_7 => cases h

theorem inv_step {maxConcurrent : ℕ} {s s' : SubmitState U W} {a : Act U W}
    (hs : s.Inv maxConcurrent) (h : step maxConcurrent s a = some s') : s'.Inv maxConcurrent := by
  cases a with
  | upload u a =>
    obtain ⟨hslots, hreceived⟩ := received_stepUpload ⟨hs.slots, hs.received⟩ h
    exact ⟨hslots, hreceived, processed_stepUpload hs.received hs.processed h⟩
  | worker w => exact inv_stepWorker hs h
  | result w outcome =>
    simp only [step] at h
    split at h
    case h_1 j hpc =>
      split at h <;> cases h
      have hjob : (s.workers w).job = some j := by rw [hpc]; rfl
      have hj := hs.processed.held w j hjob
      refine hs.ofWorker rfl rfl rfl (set_length _ _ _)
        (phase_set_iff hj (Outcome.phase_ne outcome).2 (by rintro ⟨⟩))
        (hs.processed.goOn rfl ?_ ?_ ?_)
      · rw [hpc]
        rfl
      · intro i
        rw [hjob]
        show (s.set j outcome.phase).phase i = _ ↔ _ ∨ none = some i
        rw [or_iff_left (by rintro ⟨⟩)]
        constructor
        · intro hi
          obtain ⟨hne, hi⟩ := of_phase_set hi (Outcome.phase_ne outcome).1
          exact ⟨hi, fun heq => hne (Option.some.inj heq)⟩
        · rintro ⟨hi, hne⟩
          rwa [phase_set_of_ne _ _ fun heq => hne (congrArg some heq)]
      · rintro i ⟨⟩
    case h_2 => cases h
  | stop =>
    cases h
    exact hs.ofWorker rfl rfl rfl rfl (fun _ => Iff.rfl)
      (hs.processed.frame rfl rfl fun _ => Iff.rfl)

theorem inv_run {maxConcurrent : ℕ} {records : List (Job × Bool)} {as : List (Act U W)}
    {s : SubmitState U W} (hrun : run (step maxConcurrent) (start records) as = some s) :
    s.Inv maxConcurrent :=
  run_invariant' (fun _ _ _ => inv_step) (inv_start maxConcurrent records) hrun

/-! ## The life of a job -/

end SubmitState

/-- A step in the life of a job. -/
inductive Advance : Phase → Phase → Prop
  | queued : Advance .uploading .queued
  | refused : Advance .uploading .failed
  | interrupted : Advance .uploading .interrupted
  | claimed : Advance .queued .processing
  | ended (outcome : Outcome) : Advance .processing outcome.phase

/-- What is over stays over. -/
theorem Advance.eq_of_over {p q : Phase} (h : Relation.ReflTransGen Advance p q)
    (hp : p = .done ∨ p = .failed ∨ p = .interrupted) : q = p := by
  rcases Relation.ReflTransGen.cases_head h with rfl | ⟨r, hpr, -⟩
  · rfl
  · rcases hp with rfl | rfl | rfl <;> cases hpr

/-- What was uploaded is not uploading, and not interrupted. -/
theorem Advance.uploaded {p q : Phase} (h : Relation.ReflTransGen Advance p q)
    (hp : p ≠ .uploading ∧ p ≠ .interrupted) : q ≠ .uploading ∧ q ≠ .interrupted := by
  induction h with
  | refl => exact hp
  | tail _ hlast ih =>
    cases hlast with
    | queued => exact absurd rfl ih.1
    | refused => exact absurd rfl ih.1
    | interrupted => exact absurd rfl ih.1
    | claimed => exact ⟨by rintro ⟨⟩, by rintro ⟨⟩⟩
    | ended outcome => cases outcome <;> exact ⟨by rintro ⟨⟩, by rintro ⟨⟩⟩

namespace SubmitState

variable {U W : Type}

/-- The job went one step on, or stayed where it was. -/
def Advances (s s' : SubmitState U W) : Prop :=
  ∀ j p, s.phase j = some p → s'.phase j = some p ∨ ∃ q, s'.phase j = some q ∧ Advance p q

theorem advances_set {s : SubmitState U W} {j : ℕ} {p q : Phase} (hj : s.phase j = some p)
    (h : Advance p q) : s.Advances (s.set j q) := by
  intro i r hi
  by_cases hij : j = i
  · subst hij
    rw [hj] at hi
    cases hi
    exact Or.inr ⟨q, phase_set_self q hj, h⟩
  · rw [phase_set_of_ne _ _ hij]
    exact Or.inl hi

variable [DecidableEq U] [DecidableEq W] [Fintype W]

theorem advances_step {maxConcurrent : ℕ} {s s' : SubmitState U W} {a : Act U W}
    (hs : s.Inv maxConcurrent) (h : step maxConcurrent s a = some s') : s.Advances s' := by
  have hsame : s.Advances s := fun _ _ hp => Or.inl hp
  cases a with
  | upload u a =>
    simp only [step] at h
    unfold stepUpload at h
    split at h
    case h_1 => split at h <;> cases h <;> exact hsame
    case h_3 id pubkey hpc =>
      cases h
      intro j p hp
      refine Or.inl ?_
      show (s.push id pubkey).phase j = some p
      rw [phase_push_of_ne s id pubkey (phase_lt hp).ne, hp]
    case h_4 j hpc =>
      cases h
      exact advances_set (hs.received.receiving u j hpc) .refused
    case h_6 j hpc =>
      cases h
      exact advances_set (hs.received.receiving u j hpc) .queued
    case h_7 j hpc =>
      cases h
      unfold dropGuard
      split
      case isTrue hj => exact advances_set hj .interrupted
      case isFalse => exact hsame
    case h_9 => cases h
    all_goals
      cases h
      exact hsame
  | worker w =>
    simp only [step] at h
    unfold stepWorker at h
    split at h
    case h_2 =>
      split at h <;> cases h
      case h_1 j hfind => exact advances_set (phase_of_findIdx hfind) .claimed
      case h_2 => exact hsame
    case h_6 => cases h
    case h_7 => cases h
    all_goals
      cases h
      exact hsame
  | result w outcome =>
    simp only [step] at h
    split at h
    case h_1 j hpc =>
      split at h <;> cases h
      exact advances_set (hs.processed.held w j (by rw [hpc]; rfl)) (.ended outcome)
    case h_2 => cases h
  | stop =>
    cases h
    exact hsame

omit [DecidableEq U] [DecidableEq W] [Fintype W] in
theorem set_owners (s : SubmitState U W) (j : ℕ) (p : Phase) :
    (s.set j p).jobs.map Job.owner = s.jobs.map Job.owner := by
  apply List.ext_getElem?
  intro i
  rw [set, List.getElem?_map, List.getElem?_map, List.getElem?_modify]
  cases s.jobs[i]? with
  | none => rfl
  | some job => by_cases h : j = i <;> simp [h, Job.owner]

omit [Fintype W] in
/-- Jobs are added at the end, and stay whose they are. -/
theorem owners_step {maxConcurrent : ℕ} {s s' : SubmitState U W} {a : Act U W}
    (h : step maxConcurrent s a = some s') : s.jobs.map Job.owner <+: s'.jobs.map Job.owner := by
  have hset : ∀ j p, s.jobs.map Job.owner <+: (s.set j p).jobs.map Job.owner := by
    intro j p
    rw [set_owners]
  cases a with
  | upload u a =>
    simp only [step] at h
    unfold stepUpload at h
    split at h
    case h_1 => split at h <;> cases h <;> exact List.prefix_rfl
    case h_3 id pubkey hpc =>
      cases h
      show _ <+: (s.jobs ++ _).map Job.owner
      rw [List.map_append]
      exact List.prefix_append _ _
    case h_7 j hpc =>
      cases h
      unfold dropGuard
      split
      · exact hset j _
      · exact List.prefix_rfl
    case h_9 => cases h
    all_goals
      cases h
      first
        | exact List.prefix_rfl
        | exact hset _ _
  | worker w =>
    simp only [step] at h
    unfold stepWorker at h
    split at h
    case h_2 =>
      split at h <;> cases h
      · exact hset _ _
      · exact List.prefix_rfl
    case h_6 => cases h
    case h_7 => cases h
    all_goals
      cases h
      exact List.prefix_rfl
  | result w outcome =>
    simp only [step] at h
    split at h
    case h_1 => split at h <;> cases h; exact hset _ _
    case h_2 => cases h
  | stop =>
    cases h
    exact List.prefix_rfl

/-! ## Runs -/

/-- **Uploads have the slots.** Whatever requests come, fail or lose their connection: `active` is
the number of handlers that have a slot, never more than `max_concurrent`, and it never goes below
zero. No more jobs are uploading than that, and each of them has one handler, with its guard. -/
theorem uploads_bounded (maxConcurrent : ℕ) (records : List (Job × Bool)) (as : List (Act U W))
    (s : SubmitState U W) (hrun : run (step maxConcurrent) (start records) as = some s) :
    (∀ u, u ∈ s.slots ↔ s.uploads u ≠ .idle) ∧ s.active = s.slots.card ∧
      s.active ≤ maxConcurrent ∧
      ((Finset.range s.jobs.length).filter fun j => s.phase j = some .uploading).card ≤ s.active ∧
      ∀ j, s.phase j = some .uploading → ∃! u, (s.uploads u).job = some j := by
  obtain ⟨hslots, hreceived, -⟩ := inv_run hrun
  refine ⟨hslots.slots, hslots.active, hslots.bounded, ?_, fun j hj => ?_⟩
  · rw [hslots.active]
    refine Finset.card_le_card_of_surjOn (fun u => (s.uploads u).job.getD 0) ?_
    intro j hj
    rw [Finset.mem_coe, Finset.mem_filter] at hj
    obtain ⟨u, hu⟩ := hreceived.uploading j hj.2
    refine ⟨u, Finset.mem_coe.mpr ((hslots.slots u).mpr ?_), by simp only [hu, Option.getD_some]⟩
    intro hidle
    rw [hidle] at hu
    cases hu
  · obtain ⟨u, hu⟩ := hreceived.uploading j hj
    exact ⟨u, hu, fun v hv => hreceived.one v u j hv hu⟩

/-- **A job is processed once at a time.** The jobs that are processing are those the workers have,
each of them one, and no job is with two. `running` counts the workers that have raised it, and
never goes below zero. -/
theorem job_held_once (maxConcurrent : ℕ) (records : List (Job × Bool)) (as : List (Act U W))
    (s : SubmitState U W) (hrun : run (step maxConcurrent) (start records) as = some s) :
    (∀ j, s.phase j = some .processing ↔ ∃! w, (s.workers w).job = some j) ∧
      s.running = ∑ w, (s.workers w).counted ∧ s.running ≤ Fintype.card W ∧
      ((Finset.range s.jobs.length).filter fun j => s.phase j = some .processing).card ≤
        Fintype.card W ∧
      ∀ w, s.workers w = .settled → 0 < s.running := by
  obtain ⟨-, -, hs⟩ := inv_run hrun
  refine ⟨fun j => ⟨fun hj => ?_, ?_⟩, hs.running, ?_, ?_, fun w hw => ?_⟩
  · obtain ⟨w, hw⟩ := hs.processing j hj
    exact ⟨w, hw, fun v hv => hs.alone v w j hv hw⟩
  · rintro ⟨w, hw, -⟩
    exact hs.held w j hw
  · rw [hs.running]
    calc ∑ w, (s.workers w).counted ≤ ∑ _w : W, 1 :=
          Finset.sum_le_sum fun w _ => by cases s.workers w <;> simp [WorkerPc.counted]
      _ = Fintype.card W := by rw [Finset.sum_const, Finset.card_univ, smul_eq_mul, mul_one]
  · rw [← Finset.card_univ]
    refine Finset.card_le_card_of_surjOn (fun w => (s.workers w).job.getD 0) ?_
    intro j hj
    rw [Finset.mem_coe, Finset.mem_filter] at hj
    obtain ⟨w, hw⟩ := hs.processing j hj.2
    exact ⟨w, Finset.mem_coe.mpr (Finset.mem_univ w), by simp only [hw, Option.getD_some]⟩
  · rw [hs.running]
    refine Finset.sum_pos' (fun _ _ => Nat.zero_le _) ⟨w, Finset.mem_univ w, ?_⟩
    rw [hw]
    exact Nat.one_pos

/-- **The life of a job.** From one state of a run to a later one a job keeps its place, its id and
its owner, and its phase goes on along `Advance`: an upload that was accepted is neither uploading
nor interrupted any more, whenever its guard is dropped, and what is done, failed or interrupted
stays so. -/
theorem phases_advance (maxConcurrent : ℕ) (records : List (Job × Bool)) (as bs : List (Act U W))
    (s s' : SubmitState U W) (hrun : run (step maxConcurrent) (start records) as = some s)
    (hrest : run (step maxConcurrent) s bs = some s') :
    s.jobs.map Job.owner <+: s'.jobs.map Job.owner ∧
      ∀ j p, s.phase j = some p →
        ∃ q, s'.phase j = some q ∧ Relation.ReflTransGen Advance p q ∧
          (p ≠ .uploading ∧ p ≠ .interrupted → q ≠ .uploading ∧ q ≠ .interrupted) ∧
          (p = .done ∨ p = .failed ∨ p = .interrupted → q = p) := by
  have hinv := @run_invariant' _ _ _ (fun u : SubmitState U W => u.Inv maxConcurrent ∧
      s.jobs.map Job.owner <+: u.jobs.map Job.owner ∧
        ∀ j p, s.phase j = some p → ∃ q, u.phase j = some q ∧ Relation.ReflTransGen Advance p q)
    ?_ _ _ _ ⟨inv_run hrun, List.prefix_rfl, fun j p hp => ⟨p, hp, .refl⟩⟩ hrest
  · obtain ⟨-, howners, hphases⟩ := hinv
    refine ⟨howners, fun j p hp => ?_⟩
    obtain ⟨q, hq, hpq⟩ := hphases j p hp
    exact ⟨q, hq, hpq, Advance.uploaded hpq, Advance.eq_of_over hpq⟩
  · rintro u a u' ⟨hu, howners, hphases⟩ hstep
    refine ⟨inv_step hu hstep, howners.trans (owners_step hstep), fun j p hp => ?_⟩
    obtain ⟨q, hq, hpq⟩ := hphases j p hp
    rcases advances_step hu hstep j q hq with hsame | ⟨r, hr, hqr⟩
    · exact ⟨q, hsame, hpq⟩
    · exact ⟨r, hr, hpq.tail hqr⟩

/-! ## Stopping -/

omit [DecidableEq U] [DecidableEq W] [Fintype W] in
/-- The node stops, and no worker is behind its look at `stopping`. -/
structure Quiet (s : SubmitState U W) : Prop where
  stopping : s.stopping = true
  workers : ∀ w, s.workers w = .check ∨ s.workers w = .waiting ∨ s.workers w = .stopped

omit [Fintype W] in
theorem quiet_step {maxConcurrent : ℕ} {s s' : SubmitState U W} {a : Act U W} (hs : s.Quiet)
    (h : step maxConcurrent s a = some s') : s'.Quiet := by
  cases a with
  | upload u a =>
    obtain ⟨hstopping, hworkers⟩ := workers_stepUpload h
    exact ⟨hstopping.trans hs.stopping, fun w => by rw [hworkers]; exact hs.workers w⟩
  | worker w =>
    simp only [step] at h
    unfold stepWorker at h
    rcases hs.workers w with hpc | hpc | hpc
    · simp only [hpc, hs.stopping, if_true, Option.some.injEq] at h
      subst h
      exact ⟨hs.stopping, (Function.forall_update_iff s.workers fun _ pc =>
        pc = .check ∨ pc = .waiting ∨ pc = .stopped).mpr
          ⟨Or.inr (Or.inr rfl), fun v _ => hs.workers v⟩⟩
    · simp only [hpc, Option.some.injEq] at h
      subst h
      exact ⟨hs.stopping, (Function.forall_update_iff s.workers fun _ pc =>
        pc = .check ∨ pc = .waiting ∨ pc = .stopped).mpr ⟨Or.inl rfl, fun v _ => hs.workers v⟩⟩
    · simp only [hpc] at h
      cases h
  | result w outcome =>
    rcases hs.workers w with hpc | hpc | hpc <;> simp only [step, hpc] at h <;> cases h
  | stop =>
    cases h
    exact ⟨rfl, hs.workers⟩

/-- **When `stop_and_wait` can return.** The node is stopping and `running` is zero, which is what
ends the wait. What is processing then is what a worker has claimed and not counted. If no worker
has, or is about to claim, then nothing is processing, and nothing ever is. -/
theorem quiet_after_stop (maxConcurrent : ℕ) (records : List (Job × Bool)) (as bs : List (Act U W))
    (s s' : SubmitState U W) (hrun : run (step maxConcurrent) (start records) as = some s)
    (hstopping : s.stopping = true) (hzero : s.running = 0)
    (hrest : run (step maxConcurrent) s bs = some s') :
    (∀ j, s.phase j = some .processing ↔ ∃ w, s.workers w = .claimed j) ∧
      ((∀ w, s.workers w ≠ .claim ∧ ∀ j, s.workers w ≠ .claimed j) →
        s'.running = 0 ∧ ∀ j, s'.phase j ≠ some .processing) := by
  have hs := (inv_run hrun).processed
  have huncounted : ∀ w, (s.workers w).counted = 0 := by
    intro w
    rw [hs.running] at hzero
    exact Finset.sum_eq_zero_iff.mp hzero w (Finset.mem_univ w)
  refine ⟨fun j => ⟨fun hj => ?_, ?_⟩, fun hnone => ?_⟩
  · obtain ⟨w, hw⟩ := hs.processing j hj
    refine ⟨w, ?_⟩
    have hcount := huncounted w
    cases hpc : s.workers w with
    | claimed i =>
      rw [hpc] at hw
      exact congrArg WorkerPc.claimed (Option.some.inj hw)
    | working i =>
      rw [hpc] at hcount
      cases hcount
    | _ =>
      rw [hpc] at hw
      cases hw
  · rintro ⟨w, hw⟩
    exact hs.held w j (by rw [hw]; rfl)
  · have hquiet : s.Quiet := by
      refine ⟨hstopping, fun w => ?_⟩
      have hcount := huncounted w
      obtain ⟨hclaim, hclaimed⟩ := hnone w
      cases hpc : s.workers w with
      | check => exact Or.inl rfl
      | waiting => exact Or.inr (Or.inl rfl)
      | stopped => exact Or.inr (Or.inr rfl)
      | claim => exact absurd hpc hclaim
      | claimed i => exact absurd hpc (hclaimed i)
      | _ =>
        rw [hpc] at hcount
        cases hcount
    obtain ⟨hinv, hquiet⟩ := @run_invariant' _ _ _
      (fun u : SubmitState U W => u.Inv maxConcurrent ∧ u.Quiet)
      (fun _ _ _ h hstep => ⟨inv_step h.1 hstep, quiet_step h.2 hstep⟩) _ _ _
      ⟨inv_run hrun, hquiet⟩ hrest
    have hfree : ∀ w, (s'.workers w).counted = 0 ∧ (s'.workers w).job = none := by
      intro w
      rcases hquiet.workers w with hpc | hpc | hpc <;> rw [hpc] <;> exact ⟨rfl, rfl⟩
    refine ⟨?_, fun j hj => ?_⟩
    · rw [hinv.processed.running]
      exact Finset.sum_eq_zero fun w _ => (hfree w).1
    · obtain ⟨w, hw⟩ := hinv.processed.processing j hj
      rw [(hfree w).2] at hw
      cases hw

section Runs

private def handler (u : Bool) (acts : List UploadAct) : List (Act Bool Unit) :=
  acts.map (.upload u)

/-- A job that was being processed is found again. A second one is uploaded with the only slot
there is, and the worker takes the first. -/
private def oneSlot : List (Act Bool Unit) :=
  handler false [.takeSlot, .push "b" "alice"] ++ handler true [.takeSlot] ++
    [.worker (), .worker (), .worker ()] ++ handler false [.queue, .dropGuard]

private def recovered : List (Job × Bool) :=
  [({ id := "a", pubkey := "bob", phase := .processing }, true)]

private def afterOneSlot : Option (SubmitState Bool Unit) :=
  run (step 1) (start recovered) oneSlot

private theorem afterOneSlot_isSome : afterOneSlot.isSome := by decide +kernel

/-- The second request got no slot, and the first has it still. -/
theorem one_slot_taken :
    (afterOneSlot.get afterOneSlot_isSome).slots = {false} ∧
      (afterOneSlot.get afterOneSlot_isSome).active ≤ 1 := by
  have h := uploads_bounded 1 recovered oneSlot _ (Option.some_get afterOneSlot_isSome).symm
  exact ⟨by decide +kernel, h.2.2.1⟩

/-- The job that was found is with the worker. -/
theorem found_job_held :
    (afterOneSlot.get afterOneSlot_isSome).running = 1 ∧
      ∃! w, ((afterOneSlot.get afterOneSlot_isSome).workers w).job = some 0 := by
  have h := job_held_once 1 recovered oneSlot _ (Option.some_get afterOneSlot_isSome).symm
  exact ⟨by decide +kernel, (h.1 0).mp (by decide +kernel)⟩

/-- Stopped while it processes the job, the worker queues it again. -/
private def stopped : List (Act Bool Unit) :=
  [.stop, .result () .stopped, .worker ()]

private def afterStopped : Option (SubmitState Bool Unit) :=
  run (step 1) (afterOneSlot.get afterOneSlot_isSome) stopped

private theorem afterStopped_isSome : afterStopped.isSome := by decide +kernel

/-- The upload that was accepted stays so. -/
theorem accepted_stays :
    (afterStopped.get afterStopped_isSome).phase 1 = some .queued ∧
      ∃ q, (afterStopped.get afterStopped_isSome).phase 1 = some q ∧
        Relation.ReflTransGen Advance .queued q ∧ q ≠ .uploading ∧ q ≠ .interrupted := by
  have h := phases_advance 1 recovered oneSlot stopped _ _
    (Option.some_get afterOneSlot_isSome).symm (Option.some_get afterStopped_isSome).symm
  obtain ⟨q, hq, hpq, hup, -⟩ := h.2 1 .queued (by decide +kernel)
  exact ⟨by decide +kernel, q, hq, hpq, hup ⟨by rintro ⟨⟩, by rintro ⟨⟩⟩⟩

/-- Nothing is processed after that. -/
theorem stopped_quiet :
    (afterStopped.get afterStopped_isSome).stopping = true ∧
      ∀ j, (afterStopped.get afterStopped_isSome).phase j ≠ some .processing := by
  have hrun : run (step 1) (start recovered) (oneSlot ++ stopped) =
      some (afterStopped.get afterStopped_isSome) :=
    run_append_some.mpr ⟨_, (Option.some_get afterOneSlot_isSome).symm,
      (Option.some_get afterStopped_isSome).symm⟩
  have h := quiet_after_stop 1 recovered (oneSlot ++ stopped) [] _ _ hrun (by decide +kernel)
    (by decide +kernel) rfl
  refine ⟨by decide +kernel, (h.2 fun w => ?_).2⟩
  have hw : (afterStopped.get afterStopped_isSome).workers w = .check := by
    rw [Subsingleton.elim w ()]
    decide +kernel
  rw [hw]
  exact ⟨by rintro ⟨⟩, by rintro _ ⟨⟩⟩

end Runs

end SubmitState

end NostrSearch.Server.SubmitPool
