import Mathlib.Data.List.Sort
import NostrSearch.Lib.Run
import NostrSearch.Server.Submit

/-!
# The files of uploads

An upload is stored as it is sent, under a random id, and what is known of the job is in a record
next to it, which is written anew each time its phase is set. A server that starts loads the records
it can read, and tidies up. `step` is any number of uploads and workers at once, over any number of
lives of the process, which stops at any point.

A record is written to a temporary file, which is then renamed; two threads that write that of one
job have one temporary file. Files are numbered, as a file that is open stays the same under another
name. Of a record there is what is read here. An upload is received in order, and may reach the disk
later. The directory can be listed, files that are there can be removed, and no id is drawn twice.
`accepted` and `finished` are history variables, as is `ids`.
-/

namespace NostrSearch.Server.Uploads

open NostrSearch.Lib NostrSearch.Server.Submit

/-! ## Records -/

structure Record where
  phase : Phase
  error : Option String
  startedAt : ℕ
deriving DecidableEq

/-- What is in a file for a record. -/
inductive Content
  | empty
  | record (r : Record)
  /-- a part of a record, or parts of two -/
  | garbled
deriving DecidableEq

/-- What there is of a job in the directory. -/
structure Files where
  /-- the `.upload` file -/
  upload : Option (List UInt8) := none
  /-- which file is the `.job.json.tmp` -/
  tmp : Option ℕ := none
  /-- which file is the `.job.json` -/
  record : Option ℕ := none
  contents : List Content := []
deriving DecidableEq

/-- The record, if it can be read. -/
def Files.readable (f : Files) : Option Record :=
  match f.record.bind fun i => f.contents[i]? with
  | some (.record r) => some r
  | _ => none

/-- How far a `persist` is. -/
inductive Persist
  | start
  | cloned (r : Record)
  | opened (r : Record) (i : ℕ)
  | written
deriving DecidableEq

inductive Io
  | clone
  | create
  | createError
  /-- what was there already may be left in part -/
  | write (garbled : Bool)
  | writeError
  | rename
  | renameError
deriving DecidableEq

/-- What `persist` does next, if it does not return. -/
def persistStep (job : Record) (f : Files) : Persist → Io → Option (Files × Option Persist)
  | .start, .clone => some (f, some (.cloned job))
  | .cloned r, .create =>
    match f.tmp with
    | some i => some ({ f with contents := f.contents.set i .empty }, some (.opened r i))
    | none =>
      some ({ f with tmp := some f.contents.length, contents := f.contents ++ [.empty] },
        some (.opened r f.contents.length))
  | .cloned _, .createError => some (f, none)
  | .opened r i, .write garbled =>
    if garbled = true ∧ f.contents[i]? = some .empty then none
    else
      some ({ f with contents := f.contents.set i (if garbled then .garbled else .record r) },
        some .written)
  | .opened _ i, .writeError => some ({ f with contents := f.contents.set i .garbled }, none)
  | .written, .rename =>
    match f.tmp with
    | some i => some ({ f with record := some i, tmp := none }, none)
    | none => some (f, none)
  | .written, .renameError => some (f, none)
  | _, _ => none

/-! ## Threads -/

/-- What follows on a `persist`. -/
inductive Rest
  | ended
  /-- `upload` answers 202 -/
  | answer (body : List UInt8)
  /-- the worker has claimed the job, or goes on with it -/
  | process
  /-- the job is over: `remove_files` -/
  | removeFiles
deriving DecidableEq

inductive Thread
  /-- `upload` waits for the file to be created -/
  | opening
  /-- `upload` has received this, of which the end is not on the disk -/
  | receiving (body pending : List UInt8)
  | persisting (p : Persist) (next : Rest)
  | answering (body : List UInt8)
  | processing
  | removing
deriving DecidableEq

def Rest.thread : Rest → Option Thread
  | .ended => none
  | .answer body => some (.answering body)
  | .process => some .processing
  | .removeFiles => some .removing

/-- How `process` ends. -/
inductive Outcome
  | done
  | stopped
  | failed (error : String)
deriving DecidableEq

inductive ThreadAct
  | resume
  | createError (e : String)
  | chunk (bytes : List UInt8)
  /-- more of the upload is on the disk -/
  | reach (n : ℕ)
  | floor
  | writeError (e : String)
  | syncError (e : String)
  | synced
  /-- the body fails, or the connection is gone -/
  | drop
  | io (a : Io)
  | answer
  /-- a batch is through -/
  | flush
  | result (outcome : Outcome)
  | remove
deriving DecidableEq

structure JobState where
  files : Files := {}
  /-- the job in memory -/
  job : Option Record := none
  /-- a file is being created, whether or not it is waited for -/
  creating : Bool := false
  threads : List Thread := []
  /-- the body that was answered with 202 -/
  accepted : Option (List UInt8) := none
  /-- the job was done, or failed, after its upload -/
  finished : Bool := false

namespace JobState

variable (s : JobState)

def isPhase (phase : Phase) : Bool := s.job.any fun r => decide (r.phase = phase)

/-- `remove_file(data_path)`. -/
def discard : JobState := { s with files := { s.files with upload := none } }

/-- The part of `set` that is in memory. -/
def mark (phase : Phase) (error : Option String) : JobState :=
  { s with job := s.job.map fun r => { r with phase := phase, error := error } }

/-- A thread goes on, or is over. -/
def goOn (i : ℕ) : Option Thread → JobState
  | some t => { s with threads := s.threads.set i t }
  | none => { s with threads := s.threads.eraseIdx i }

/-- A thread starts. -/
def spawn (t : Thread) : JobState := { s with threads := s.threads ++ [t] }

/-- `set`, in a thread, and what comes then. -/
def set (i : ℕ) (phase : Phase) (error : Option String) (next : Rest) : JobState :=
  (s.mark phase error).goOn i (some (.persisting .start next))

/-- `UploadGuard::drop`. -/
def dropGuard (i : ℕ) : JobState :=
  if s.isPhase .uploading then
    s.discard.set i .interrupted (some "upload interrupted") .ended
  else s.goOn i none

/-- An upload that cannot be stored. -/
def fail (i : ℕ) (error : String) : JobState := s.discard.set i .failed (some error) .ended

end JobState

/-- What a thread does. -/
def threadStep (s : JobState) (i : ℕ) (t : Thread) : ThreadAct → Option JobState
  | .resume =>
    match t with
    | .opening =>
      if s.creating = false ∧ s.files.upload.isSome then some (s.goOn i (some (.receiving [] [])))
      else none
    | _ => none
  | .createError e =>
    match t with
    | .opening =>
      if s.creating = false ∧ s.files.upload = none then
        some (s.set i .failed (some ("cannot store upload: " ++ e)) .ended)
      else none
    | _ => none
  | .chunk bytes =>
    match t with
    | .receiving body pending =>
      some (s.goOn i (some (.receiving (body ++ bytes) (pending ++ bytes))))
    | _ => none
  | .reach n =>
    match t with
    | .receiving body pending =>
      let upload := s.files.upload.map fun c => c ++ pending.take n
      some ({ s with files := { s.files with upload := upload } }.goOn i
        (some (.receiving body (pending.drop n))))
    | _ => none
  | .floor =>
    match t with
    | .receiving _ _ => some (s.fail i "disk free space floor reached")
    | _ => none
  | .writeError e =>
    match t with
    | .receiving _ _ => some (s.fail i ("cannot store upload: " ++ e))
    | _ => none
  | .syncError e =>
    match t with
    | .receiving _ _ => some (s.fail i ("cannot store upload: " ++ e))
    | _ => none
  | .synced =>
    match t with
    | .receiving body [] => some (s.set i .queued none (.answer body))
    | _ => none
  | .drop =>
    match t with
    | .opening => some (s.dropGuard i)
    | .receiving _ _ => some (s.dropGuard i)
    | _ => none
  | .io a =>
    match t with
    | .persisting p next => do
      let job ← s.job
      let (files, p') ← persistStep job s.files p a
      return { s with files := files }.goOn i
        (p'.elim next.thread fun p' => some (.persisting p' next))
    | _ => none
  | .answer =>
    match t with
    | .answering body => some ({ s with accepted := some body }.goOn i none)
    | _ => none
  | .flush =>
    match t with
    | .processing => some (s.goOn i (some (.persisting .start .process)))
    | _ => none
  | .result outcome =>
    match t with
    | .processing =>
      match outcome with
      | .done => some ({ s with finished := true }.set i .done none .removeFiles)
      | .stopped => some (s.set i .queued none .ended)
      | .failed error => some ({ s with finished := true }.set i .failed (some error) .removeFiles)
    | _ => none
  | .remove =>
    match t with
    | .removing => some (s.discard.goOn i none)
    | _ => none

inductive JobAct
  | created
  | notCreated
  | thread (i : ℕ) (a : ThreadAct)
deriving DecidableEq

def jobStep (s : JobState) : JobAct → Option JobState
  | .created =>
    if s.creating = true then
      some { s with creating := false, files := { s.files with upload := some [] } }
    else none
  | .notCreated => if s.creating = true then some { s with creating := false } else none
  | .thread i a => s.threads[i]?.bind fun t => threadStep s i t a

/-! ## The server -/

inductive ServerState
  | down
  /-- `load_jobs`, with the jobs it has still to look at -/
  | loading (todo : List String)
  | up
deriving DecidableEq

structure Node where
  /-- the ids that were drawn -/
  ids : List String
  jobs : List String
  server : ServerState
  state : String → JobState

inductive Act
  /-- the records, as they are listed -/
  | load (entries : List String)
  /-- the next turn of the loop of `load_jobs` -/
  | examine
  /-- `load_jobs` returns -/
  | ready
  /-- an upload begins -/
  | begin (id : String) (now : ℕ)
  | claim
  | job (id : String) (a : JobAct)
  /-- the process stops -/
  | crash

namespace JobState

variable (s : JobState)

/-- A job is made from its record. -/
def restored : JobState := { s with job := s.files.readable }

/-- What `load_jobs` does with a job. -/
def examined : JobState :=
  match s.job.map Record.phase with
  | some .uploading =>
    (s.discard.mark .interrupted (some "server restarted during upload")).spawn
      (.persisting .start .ended)
  | some .queued | some .processing =>
    if s.files.upload.isSome then (s.mark .queued none).spawn (.persisting .start .ended)
    else (s.mark .failed (some "stored upload is missing")).spawn (.persisting .start .ended)
  | some .done | some .failed | some .interrupted => s.discard
  | none => s

/-- An upload that begins. -/
def begun (now : ℕ) : JobState :=
  { s with
    job := some { phase := .uploading, error := none, startedAt := now }
    creating := true
    threads := [.opening] }

/-- A job that is claimed. -/
def claimed : JobState := (s.mark .processing none).spawn (.persisting .start .process)

/-- What is left when the process stops. -/
def crashed : JobState := { s with job := none, creating := false, threads := [] }

end JobState

namespace Node

variable (s : Node)

def update (id : String) (j : JobState) : Node :=
  { s with state := Function.update s.state id j }

/-- What `load_jobs` reads, in the order of the starts. -/
def found (entries : List String) : List String :=
  let startedAt := fun id => (s.state id).files.readable.elim 0 Record.startedAt
  (entries.filter fun id => (s.state id).files.readable.isSome).insertionSort fun a b =>
    startedAt a ≤ startedAt b

/-- No job is being written. -/
def settled : Bool := s.jobs.all fun id => (s.state id).threads.isEmpty

end Node

def step (s : Node) : Act → Option Node
  | .load entries =>
    if s.server = .down ∧
        entries.Perm (s.ids.filter fun id => (s.state id).files.record.isSome) then
      some { s with
        jobs := s.found entries
        server := .loading (s.found entries)
        state := fun id =>
          if id ∈ s.found entries then (s.state id).restored else s.state id }
    else none
  | .examine =>
    match s.server with
    | .loading (id :: todo) =>
      if s.settled then some { s.update id (s.state id).examined with server := .loading todo }
      else none
    | _ => none
  | .ready => if s.server = .loading [] ∧ s.settled then some { s with server := .up } else none
  | .begin id now =>
    if s.server = .up ∧ id ∉ s.ids then
      some { s.update id ((s.state id).begun now) with ids := id :: s.ids, jobs := s.jobs ++ [id] }
    else none
  | .claim =>
    if s.server = .up then
      (s.jobs.find? fun id => (s.state id).isPhase .queued).map fun id =>
        s.update id (s.state id).claimed
    else none
  | .job id a => (jobStep (s.state id) a).map fun j => s.update id j
  | .crash =>
    if s.server ≠ .down then
      some { s with server := .down, jobs := [], state := fun id => (s.state id).crashed }
    else none

/-- An empty directory. -/
def start : Node := { ids := [], jobs := [], server := .down, state := fun _ => {} }

/-! ## What a step can do -/

/-- What `load_jobs` makes of a job. -/
inductive Examination (s : JobState) : JobState → Prop
  | nothing (hjob : s.job = none) : Examination s s
  | interrupted {r : Record} (hjob : s.job = some r) (hphase : r.phase = .uploading) :
      Examination s
        ((s.discard.mark .interrupted (some "server restarted during upload")).spawn
          (.persisting .start .ended))
  | queued (hupload : s.files.upload.isSome = true) :
      Examination s ((s.mark .queued none).spawn (.persisting .start .ended))
  | missing (hupload : s.files.upload = none) :
      Examination s
        ((s.mark .failed (some "stored upload is missing")).spawn (.persisting .start .ended))
  | removed {r : Record} (hjob : s.job = some r)
      (hphase : r.phase ≠ .queued ∧ r.phase ≠ .processing) : Examination s s.discard

theorem examination (s : JobState) : Examination s s.examined := by
  have htaken : Examination s (if s.files.upload.isSome then
      (s.mark .queued none).spawn (.persisting .start .ended)
    else (s.mark .failed (some "stored upload is missing")).spawn (.persisting .start .ended)) := by
    split
    case isTrue h => exact .queued h
    case isFalse h => exact .missing (Option.not_isSome_iff_eq_none.mp h)
  rw [JobState.examined]
  cases hjob : s.job with
  | none => exact .nothing hjob
  | some r =>
    rw [Option.map_some]
    cases h : r.phase with
    | uploading => exact .interrupted hjob h
    | queued => exact htaken
    | processing => exact htaken
    | done => exact .removed hjob (by rw [h]; exact ⟨nofun, nofun⟩)
    | failed => exact .removed hjob (by rw [h]; exact ⟨nofun, nofun⟩)
    | interrupted => exact .removed hjob (by rw [h]; exact ⟨nofun, nofun⟩)

inductive ThreadMove (s : JobState) (i : ℕ) : Thread → JobState → Prop
  | resume (hcreating : s.creating = false) (hupload : s.files.upload.isSome = true) :
      ThreadMove s i .opening (s.goOn i (some (.receiving [] [])))
  | createError (e : String) : ThreadMove s i .opening (s.set i .failed (some e) .ended)
  | chunk {body pending : List UInt8} (bytes : List UInt8) :
      ThreadMove s i (.receiving body pending)
        (s.goOn i (some (.receiving (body ++ bytes) (pending ++ bytes))))
  | reach {body pending : List UInt8} (n : ℕ) :
      ThreadMove s i (.receiving body pending)
        ({ s with files := { s.files with
          upload := s.files.upload.map fun c => c ++ pending.take n } }.goOn i
            (some (.receiving body (pending.drop n))))
  | fail {body pending : List UInt8} (e : String) :
      ThreadMove s i (.receiving body pending) (s.fail i e)
  | synced {body : List UInt8} :
      ThreadMove s i (.receiving body []) (s.set i .queued none (.answer body))
  | dropOpening : ThreadMove s i .opening (s.dropGuard i)
  | dropReceiving {body pending : List UInt8} :
      ThreadMove s i (.receiving body pending) (s.dropGuard i)
  | io {p : Persist} {next : Rest} {job : Record} {a : Io} {files : Files} {p' : Option Persist}
      (hjob : s.job = some job) (hpersist : persistStep job s.files p a = some (files, p')) :
      ThreadMove s i (.persisting p next)
        ({ s with files := files }.goOn i
          (p'.elim next.thread fun p' => some (.persisting p' next)))
  | answer {body : List UInt8} :
      ThreadMove s i (.answering body) ({ s with accepted := some body }.goOn i none)
  | flush : ThreadMove s i .processing (s.goOn i (some (.persisting .start .process)))
  | done : ThreadMove s i .processing ({ s with finished := true }.set i .done none .removeFiles)
  | stopped : ThreadMove s i .processing (s.set i .queued none .ended)
  | failed (e : String) :
      ThreadMove s i .processing ({ s with finished := true }.set i .failed (some e) .removeFiles)
  | remove : ThreadMove s i .removing (s.discard.goOn i none)

theorem threadMove_of_step {s s' : JobState} {i : ℕ} {t : Thread} {a : ThreadAct}
    (h : threadStep s i t a = some s') : ThreadMove s i t s' := by
  cases a with
  | resume =>
    cases t with
    | opening =>
      -- the file is there
      simp only [threadStep, Option.ite_none_right_eq_some, Option.some.injEq] at h
      obtain ⟨⟨hcreating, hupload⟩, rfl⟩ := h
      exact .resume hcreating hupload
    | _ => cases h
  | createError e =>
    cases t with
    | opening =>
      simp only [threadStep, Option.ite_none_right_eq_some, Option.some.injEq] at h
      obtain ⟨-, rfl⟩ := h
      exact .createError _
    | _ => cases h
  | chunk bytes =>
    cases t with
    | receiving body pending =>
      cases h
      exact .chunk bytes
    | _ => cases h
  | reach n =>
    cases t with
    | receiving body pending =>
      cases h
      exact .reach n
    | _ => cases h
  | floor =>
    cases t with
    | receiving body pending =>
      cases h
      exact .fail _
    | _ => cases h
  | writeError e =>
    cases t with
    | receiving body pending =>
      cases h
      exact .fail _
    | _ => cases h
  | syncError e =>
    cases t with
    | receiving body pending =>
      cases h
      exact .fail _
    | _ => cases h
  | synced =>
    cases t with
    | receiving body pending =>
      cases pending with
      | nil =>
        cases h
        exact .synced
      | cons => cases h
    | _ => cases h
  | drop =>
    cases t with
    | opening =>
      cases h
      exact .dropOpening
    | receiving body pending =>
      cases h
      exact .dropReceiving
    | _ => cases h
  | io a =>
    cases t with
    | persisting p next =>
      obtain ⟨job, hjob, h⟩ := Option.bind_eq_some_iff.mp h
      obtain ⟨⟨files, p'⟩, hpersist, h⟩ := Option.bind_eq_some_iff.mp h
      cases h
      exact .io hjob hpersist
    | _ => cases h
  | answer =>
    cases t with
    | answering body =>
      cases h
      exact .answer
    | _ => cases h
  | flush =>
    cases t with
    | processing =>
      cases h
      exact .flush
    | _ => cases h
  | result outcome =>
    cases t with
    | processing =>
      cases outcome with
      | done =>
        cases h
        exact .done
      | stopped =>
        cases h
        exact .stopped
      | failed e =>
        cases h
        exact .failed e
    | _ => cases h
  | remove =>
    cases t with
    | removing =>
      cases h
      exact .remove
    | _ => cases h

inductive Move (s : Node) : Act → Node → Prop
  | load {entries : List String} (hdown : s.server = .down)
      (hentries : entries.Perm (s.ids.filter fun id => (s.state id).files.record.isSome)) :
      Move s (.load entries)
        { s with
          jobs := s.found entries
          server := .loading (s.found entries)
          state := fun id =>
            if id ∈ s.found entries then (s.state id).restored else s.state id }
  | examine {id : String} {todo : List String} (hloading : s.server = .loading (id :: todo)) :
      Move s .examine { s.update id (s.state id).examined with server := .loading todo }
  | ready (hloading : s.server = .loading []) : Move s .ready { s with server := .up }
  | begin {id : String} {now : ℕ} (hup : s.server = .up) (hid : id ∉ s.ids) :
      Move s (.begin id now)
        { s.update id ((s.state id).begun now) with ids := id :: s.ids, jobs := s.jobs ++ [id] }
  | claim {id : String} (hup : s.server = .up) (hqueued : (s.state id).isPhase .queued = true) :
      Move s .claim (s.update id (s.state id).claimed)
  | job {id : String} {a : JobAct} {j : JobState} (hj : jobStep (s.state id) a = some j) :
      Move s (.job id a) (s.update id j)
  | crash :
      Move s .crash
        { s with server := .down, jobs := [], state := fun id => (s.state id).crashed }

theorem move_of_step {s s' : Node} {a : Act} (h : step s a = some s') : Move s a s' := by
  cases a with
  | load entries =>
    simp only [step, Option.ite_none_right_eq_some, Option.some.injEq] at h
    obtain ⟨⟨hdown, hentries⟩, rfl⟩ := h
    exact .load hdown hentries
  | examine =>
    simp only [step] at h
    split at h
    case h_1 id todo hloading =>
      rw [Option.ite_none_right_eq_some, Option.some.injEq] at h
      obtain ⟨-, rfl⟩ := h
      exact .examine hloading
    case h_2 => cases h
  | ready =>
    simp only [step, Option.ite_none_right_eq_some, Option.some.injEq] at h
    obtain ⟨⟨hloading, -⟩, rfl⟩ := h
    exact .ready hloading
  | begin id now =>
    simp only [step, Option.ite_none_right_eq_some, Option.some.injEq] at h
    obtain ⟨⟨hup, hid⟩, rfl⟩ := h
    exact .begin hup hid
  | claim =>
    simp only [step, Option.ite_none_right_eq_some] at h
    obtain ⟨hup, h⟩ := h
    obtain ⟨id, hfind, rfl⟩ := Option.map_eq_some_iff.mp h
    -- the first of the jobs that is queued
    have hqueued := List.find?_some hfind
    exact .claim hup hqueued
  | job id a =>
    obtain ⟨j, hj, rfl⟩ := Option.map_eq_some_iff.mp h
    exact .job hj
  | crash =>
    simp only [step, Option.ite_none_right_eq_some, Option.some.injEq] at h
    obtain ⟨-, rfl⟩ := h
    exact .crash

end NostrSearch.Server.Uploads
