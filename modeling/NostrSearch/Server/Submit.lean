import NostrSearch.Server.Delivery

/-!
# Submissions

An upload is screened, deduplicated, saved to the archive and forwarded to the writer, a batch at a
time. What is done is on the disk as a cursor and counts, which are written when a batch is through.
A server that stops works off its batch first; one that crashes loses it, and what is started again
goes on from the cursor on the disk.

`step` is the life of one job from its upload on. The threads of a batch take their parts in any
order. `handed`, `passed` and `sent` are history variables, as is the number of a line.

JSON, signatures and decompression are not part of this repository. Files are written, the archive
saves, and the clock does not go back.
-/

namespace NostrSearch.Server.Submit

open NostrSearch.Core NostrSearch.Lib

def MAX_LINE_BYTES : ℕ := 2 ^ 20

def FUTURE_SLACK_SECS : ℕ := 86400

def BATCH_BYTES : ℕ := 32 * 2 ^ 20

/-! ## Lines and payloads -/

/-- `read_until`: up to a byte and with it, and the rest. -/
def readUntil (delim : UInt8) : List UInt8 → List UInt8 × List UInt8
  | [] => ([], [])
  | b :: bs =>
    if b = delim then ([b], bs)
    else
      let (buf, rest) := readUntil delim bs
      (b :: buf, rest)

inductive Next
  | eof
  | line (buf : List UInt8)
  | tooLong
deriving DecidableEq

/-- `next_line`, and what is left to read. -/
def nextLine (input : List UInt8) : Next × List UInt8 :=
  let buf := (readUntil 10 (input.take (MAX_LINE_BYTES + 1))).1
  let rest := input.drop buf.length
  if buf = [] then (.eof, rest)
  else if buf.getLast? ≠ some 10 ∧ MAX_LINE_BYTES < buf.length then
    (.tooLong, (readUntil 10 rest).2)
  else (.line buf, rest)

theorem readUntil_length (delim : UInt8) (input : List UInt8) :
    (readUntil delim input).1.length + (readUntil delim input).2.length = input.length := by
  induction input with
  | nil => rfl
  | cons b bs ih =>
    rw [readUntil]
    split
    · simp [add_comm]
    · simp only [List.length_cons]
      omega

/-- A line takes something off the input. -/
theorem nextLine_length {input : List UInt8} (h : (nextLine input).1 ≠ .eof) :
    (nextLine input).2.length < input.length := by
  have htake := readUntil_length 10 (input.take (MAX_LINE_BYTES + 1))
  have hle : (input.take (MAX_LINE_BYTES + 1)).length ≤ input.length := List.length_take_le' _ _
  unfold nextLine at *
  generalize (readUntil 10 (input.take (MAX_LINE_BYTES + 1))).1 = buf at *
  have hrest : (input.drop buf.length).length = input.length - buf.length := List.length_drop
  have hlong := readUntil_length 10 (input.drop buf.length)
  by_cases hnil : buf = []
  · simp only [if_pos hnil] at h
    exact absurd rfl h
  · have hpos : 0 < buf.length := List.length_pos_iff.mpr hnil
    simp only [if_neg hnil]
    split <;> dsimp only <;> omega

/-- `is_ascii_whitespace`. -/
def isAsciiWhitespace (b : UInt8) : Bool := b = 32 || b = 9 || b = 10 || b = 12 || b = 13

/-- `trim_ascii`. -/
def trimAscii (bytes : List UInt8) : List UInt8 :=
  ((bytes.dropWhile isAsciiWhitespace).reverse.dropWhile isAsciiWhitespace).reverse

/-- What a database holds. -/
inductive Payload
  | json (bytes : List UInt8)
  | undecodable
deriving DecidableEq

/-- An upload: what it is when decompressed, or the events of the database that this is. -/
inductive Upload
  | stream (bytes : List UInt8)
  | lmdb (payloads : List Payload)

/-- What the two loops are given in turn. -/
inductive Item
  | line (buf : List UInt8)
  | tooLong
  | payload (payload : Payload)
deriving DecidableEq

/-- The lines of a stream, until `next_line` says that there are no more. -/
def linesOf (input : List UInt8) : List Item :=
  match _h : (nextLine input).1 with
  | .eof => []
  | .line buf => .line buf :: linesOf (nextLine input).2
  | .tooLong => .tooLong :: linesOf (nextLine input).2
termination_by input.length
decreasing_by
  all_goals exact nextLine_length (by rw [_h]; nofun)

theorem linesOf_eof {input rest : List UInt8} (h : nextLine input = (.eof, rest)) :
    linesOf input = [] := by
  rw [linesOf]
  split <;> simp_all

theorem linesOf_line {input buf rest : List UInt8} (h : nextLine input = (.line buf, rest)) :
    linesOf input = .line buf :: linesOf rest := by
  rw [linesOf]
  split <;> simp_all

theorem linesOf_tooLong {input rest : List UInt8} (h : nextLine input = (.tooLong, rest)) :
    linesOf input = .tooLong :: linesOf rest := by
  rw [linesOf]
  split <;> simp_all

def Upload.items : Upload → List Item
  | stream bytes => linesOf bytes
  | lmdb payloads => payloads.map .payload

/-- What of an item is put into a batch. -/
def Item.screened : Item → Option (List UInt8)
  | .line buf => if trimAscii buf = [] then none else some (trimAscii buf)
  | .tooLong => none
  | .payload (.json bytes) => some (trimAscii bytes)
  | .payload .undecodable => none

/-! ## Jobs -/

structure Counts where
  lines : ℕ := 0
  malformed : ℕ := 0
  undecodable : ℕ := 0
  badSignature : ℕ := 0
  ephemeral : ℕ := 0
  future : ℕ := 0
  valid : ℕ := 0
  duplicate : ℕ := 0
  new : ℕ := 0
deriving DecidableEq

inductive Phase
  | uploading
  | queued
  | processing
  | done
  | failed
  | interrupted
deriving DecidableEq

structure Job where
  phase : Phase
  cursor : ℕ
  counts : Counts
deriving DecidableEq

/-- What the screening uses of other packages. -/
structure ScreenLib where
  /-- `serde_json::from_slice::<Event>` -/
  parse : List UInt8 → Option NostrEvent
  /-- `Event::verify` -/
  verified : NostrEvent → Bool

def screen (lib : ScreenLib) (c : Counts) (line : List UInt8) (now : ℕ) :
    Option NostrEvent × Counts :=
  match lib.parse line with
  | none => (none, { c with malformed := c.malformed + 1 })
  | some ev =>
    if lib.verified ev = false then (none, { c with badSignature := c.badSignature + 1 })
    else if ev.isEphemeral then (none, { c with ephemeral := c.ephemeral + 1 })
    else if now + FUTURE_SLACK_SECS < ev.createdAt then (none, { c with future := c.future + 1 })
    else (some ev, { c with valid := c.valid + 1 })

/-- A line of a batch, and which item it is. -/
structure Line where
  number : ℕ
  bytes : List UInt8
deriving DecidableEq

structure Batch where
  lines : List Line := []
  bytes : ℕ := 0
deriving DecidableEq

def Batch.push (b : Batch) (line : Line) : Batch :=
  { lines := b.lines ++ [line], bytes := b.bytes + line.bytes.length }

def Batch.isFull (batchLines : ℕ) (b : Batch) : Bool :=
  decide (batchLines ≤ b.lines.length ∨ BATCH_BYTES ≤ b.bytes)

/-- `in_batch`: the events whose id no event before has, and how many there are besides. -/
def uniqueEvents (inBatch : Finset String) : List NostrEvent → List NostrEvent × ℕ
  | [] => ([], 0)
  | ev :: rest =>
    if ev.id ∈ inBatch then
      let (unique, duplicate) := uniqueEvents inBatch rest
      (unique, duplicate + 1)
    else
      let (unique, duplicate) := uniqueEvents (insert ev.id inBatch) rest
      (ev :: unique, duplicate)

/-! ## The life of a job -/

/-- Where a batch is flushed. -/
inductive After
  /-- it was full -/
  | more
  /-- the server is stopping -/
  | stopped
  /-- there is nothing left to read -/
  | finished
deriving DecidableEq

inductive Stage
  /-- at the top of the loop -/
  | reading
  /-- `screen_all`, with what each line gave -/
  | screening (slots : List (Line × Option (Option NostrEvent))) (after : After)
  /-- `save_all`, with what each event gave -/
  | saving (slots : List (NostrEvent × Option SaveEventStatus)) (after : After)
  /-- the loop over the answers -/
  | sending (todo : List (NostrEvent × SaveEventStatus)) (after : After)
  /-- `process` returns -/
  | returning (after : After)

structure Process where
  unread : List Item
  batch : Batch
  stage : Stage

inductive ServerState
  | down
  | idle (job : Job)
  | busy (job : Job) (process : Process)

structure Node where
  /-- the `.job.json` file -/
  disk : Job
  /-- whether the stored upload is there -/
  file : Bool
  server : ServerState
  archive : Finset String
  /-- the ids in the `.dedupe` store, if there is one -/
  dedupe : Option (Finset String)
  clock : ℕ
  /-- the lines that were screened, in turn -/
  handed : List ℕ
  /-- the events that the screening let through, with their lines -/
  passed : List (ℕ × NostrEvent)
  sent : List NostrEvent

inductive Act
  /-- the server starts: `load_jobs` -/
  | load
  /-- a worker takes the job and opens its file -/
  | claim
  /-- the loop goes on to the next item -/
  | read
  /-- the loop, or an idle server, sees that the server is stopping -/
  | stop
  /-- a line is screened -/
  | screen (i now : ℕ)
  /-- all are screened: the two deduplications -/
  | dedupe
  /-- an event is saved -/
  | save (i : ℕ)
  /-- all are saved -/
  | saved
  /-- the next answer of the archive: a new event is sent -/
  | send
  /-- the flush is through -/
  | persist
  /-- the worker sets the phase -/
  | finish
  | crash
  /-- the writer records ids of events it was sent -/
  | record (ids : Finset String)

/-- The phase with which `load_jobs` takes a job up. -/
def Phase.loaded (hasFile : Bool) : Phase → Phase
  | uploading => interrupted
  | queued | processing => if hasFile then queued else failed
  | done => done
  | failed => failed
  | interrupted => interrupted

/-- Whether `load_jobs` leaves the stored upload where it is. -/
def Phase.keepsFile : Phase → Bool
  | queued | processing => true
  | _ => false

/-- A flush starts: an empty batch goes straight to its end. -/
def Process.flush (p : Process) (after : After) : Process :=
  if p.batch.lines = [] then { p with batch := {}, stage := .sending [] after }
  else { p with batch := {}, stage := .screening (p.batch.lines.map fun l => (l, none)) after }

/-- `Batch::push`, with the flush of a full batch. -/
def Process.push (batchLines : ℕ) (p : Process) (line : Line) : Process :=
  if (p.batch.push line).isFull batchLines then { p with batch := p.batch.push line }.flush .more
  else { p with batch := p.batch.push line }

/-- One turn of the loop of `process`, or of the closure of `process_lmdb`. -/
def Process.turn (batchLines : ℕ) (job : Job) (p : Process) : Job × Process :=
  match p.unread with
  | [] => (job, p.flush .finished)
  | item :: unread =>
    let c := job.counts
    let p := { p with unread := unread }
    let cursor := job.cursor + 1
    match item with
    | .tooLong =>
      ({ job with
        cursor := cursor
        counts := { c with lines := c.lines + 1, malformed := c.malformed + 1 } }, p)
    | .line buf =>
      if trimAscii buf = [] then ({ job with cursor := cursor }, p)
      else
        ({ job with cursor := cursor, counts := { c with lines := c.lines + 1 } },
          p.push batchLines { number := job.cursor, bytes := trimAscii buf })
    -- `seen` is the cursor, once what was done before is skipped
    | .payload (.json bytes) =>
      ({ job with cursor := cursor, counts := { c with lines := c.lines + 1 } },
        p.push batchLines { number := job.cursor, bytes := trimAscii bytes })
    | .payload .undecodable =>
      ({ job with
        cursor := cursor
        counts := { c with lines := c.lines + 1, undecodable := c.undecodable + 1 } }, p)

namespace Node

/-- Whether the `.dedupe` store has an event. -/
def known (s : Node) (ev : NostrEvent) : Bool := s.dedupe.any fun ids => decide (ev.id ∈ ids)

/-- A job is set to a phase, and written. -/
def set (s : Node) (job : Job) (phase : Phase) : Node :=
  { s with disk := { job with phase := phase }, server := .idle { job with phase := phase } }

end Node

section step

variable (lib : ScreenLib) (batchLines : ℕ) (up : Upload)

/-- Whether the loop looks at the flag once more at the end. -/
def Upload.seesStop (unread : List Item) : Upload → Bool
  | stream _ => true
  | lmdb _ => decide (unread ≠ [])

/-- What a process does. -/
def processStep (s : Node) (job : Job) (p : Process) : Act → Option Node
  | .read =>
    match p.stage with
    | .reading =>
      let (job', p') := p.turn batchLines job
      some { s with server := .busy job' p' }
    | _ => none
  | .stop =>
    match p.stage with
    | .reading =>
      if up.seesStop p.unread then some { s with server := .busy job (p.flush .stopped) } else none
    | _ => none
  | .screen i now =>
    match p.stage with
    | .screening slots after =>
      match slots[i]? with
      | some (line, none) =>
        if s.clock ≤ now then
          let (ev, counts) := screen lib job.counts line.bytes now
          some { s with
            clock := now
            handed := s.handed ++ [line.number]
            passed := s.passed ++ (ev.map fun ev => (line.number, ev)).toList
            server := .busy { job with counts := counts }
              { p with stage := .screening (slots.set i (line, some ev)) after } }
        else none
      | _ => none
    | _ => none
  | .dedupe =>
    match p.stage with
    | .screening slots after =>
      if slots.all fun slot => slot.2.isSome then
        let c := job.counts
        let (unique, repeated) := uniqueEvents ∅ (slots.filterMap fun slot => slot.2.join)
        let fresh := unique.filter fun ev => !s.known ev
        let had := (unique.filter fun ev => s.known ev).length
        some { s with
          server := .busy { job with counts := { c with duplicate := c.duplicate + repeated + had } }
            { p with stage := .saving (fresh.map fun ev => (ev, none)) after } }
      else none
    | _ => none
  | .save i =>
    match p.stage with
    | .saving slots after =>
      match slots[i]? with
      | some (ev, none) =>
        let (status, archive) := saveEvent s.archive ev
        some { s with
          archive := archive
          server := .busy job { p with stage := .saving (slots.set i (ev, some status)) after } }
      | _ => none
    | _ => none
  | .saved =>
    match p.stage with
    | .saving slots after =>
      if slots.all fun slot => slot.2.isSome then
        let todo := slots.filterMap fun slot => slot.2.map fun status => (slot.1, status)
        some { s with server := .busy job { p with stage := .sending todo after } }
      else none
    | _ => none
  | .send =>
    match p.stage with
    | .sending ((ev, status) :: todo) after =>
      let c := job.counts
      let p := { p with stage := .sending todo after }
      match status with
      | .success =>
        some { s with
          sent := s.sent ++ [ev]
          server := .busy { job with counts := { c with new := c.new + 1 } } p }
      | .duplicate =>
        some { s with
          server := .busy { job with counts := { c with duplicate := c.duplicate + 1 } } p }
    | _ => none
  | .persist =>
    match p.stage with
    | .sending [] after =>
      let stage := if after = .more then .reading else .returning after
      some { s with disk := job, server := .busy job { p with stage := stage } }
    | _ => none
  | .finish =>
    match p.stage with
    -- the server that was stopping exits
    | .returning .stopped => some { s.set job .queued with server := .down }
    | .returning .finished => some { s.set job .done with file := false }
    | _ => none
  | _ => none

def step (s : Node) (a : Act) : Option Node :=
  match a, s.server with
  | .load, .down =>
    let phase := s.disk.phase.loaded s.file
    some { s.set s.disk phase with file := s.file && s.disk.phase.keepsFile }
  | .claim, .idle job =>
    if job.phase = .queued then
      if s.file then
        let job := { job with phase := .processing }
        -- the items before the cursor are skipped
        some { s with
          disk := job
          server := .busy job
            { unread := up.items.drop job.cursor, batch := {}, stage := .reading } }
      else some (s.set job .failed)
    else none
  | .stop, .idle _ => some { s with server := .down }
  | .crash, .idle _ => some { s with server := .down }
  | .crash, .busy _ _ => some { s with server := .down }
  | .record ids, _ =>
    if ids ⊆ (s.sent.map NostrEvent.id).toFinset then
      some { s with dedupe := s.dedupe.map fun known => known ∪ ids }
    else none
  | a, .busy job p => processStep lib batchLines up s job p a
  | _, _ => none

end step

/-- The upload is stored and queued. -/
def start (archive : Finset String) (dedupe : Option (Finset String)) (clock : ℕ) : Node where
  disk := { phase := .queued, cursor := 0, counts := {} }
  file := true
  server := .idle { phase := .queued, cursor := 0, counts := {} }
  archive := archive
  dedupe := dedupe
  clock := clock
  handed := []
  passed := []
  sent := []

/-! ## What a step can do -/

/-- The steps of a process. -/
inductive ProcessMove (lib : ScreenLib) (batchLines : ℕ) (up : Upload) (s : Node) (job : Job)
    (p : Process) : Act → Node → Prop
  | turn (hstage : p.stage = .reading) :
      ProcessMove lib batchLines up s job p .read
        { s with server := .busy (p.turn batchLines job).1 (p.turn batchLines job).2 }
  | stop (hstage : p.stage = .reading) :
      ProcessMove lib batchLines up s job p .stop { s with server := .busy job (p.flush .stopped) }
  | screen {slots : List (Line × Option (Option NostrEvent))} {after : After} {i now : ℕ}
      {line : Line} (hstage : p.stage = .screening slots after) (hi : slots[i]? = some (line, none))
      (hclock : s.clock ≤ now) :
      ProcessMove lib batchLines up s job p (.screen i now)
        { s with
          clock := now
          handed := s.handed ++ [line.number]
          passed := s.passed ++
            ((screen lib job.counts line.bytes now).1.map fun ev => (line.number, ev)).toList
          server := .busy { job with counts := (screen lib job.counts line.bytes now).2 }
            { p with
              stage := .screening
                (slots.set i (line, some (screen lib job.counts line.bytes now).1)) after } }
  | dedupe {slots : List (Line × Option (Option NostrEvent))} {after : After}
      (hstage : p.stage = .screening slots after) (hall : ∀ slot ∈ slots, slot.2.isSome = true) :
      ProcessMove lib batchLines up s job p .dedupe
        { s with
          server := .busy
            { job with
              counts := { job.counts with
                duplicate := job.counts.duplicate +
                  (uniqueEvents ∅ (slots.filterMap fun slot => slot.2.join)).2 +
                  ((uniqueEvents ∅ (slots.filterMap fun slot => slot.2.join)).1.filter
                    fun ev => s.known ev).length } }
            { p with
              stage := .saving
                (((uniqueEvents ∅ (slots.filterMap fun slot => slot.2.join)).1.filter
                  fun ev => !s.known ev).map fun ev => (ev, none)) after } }
  | save {slots : List (NostrEvent × Option SaveEventStatus)} {after : After} {i : ℕ}
      {ev : NostrEvent} (hstage : p.stage = .saving slots after) (hi : slots[i]? = some (ev, none)) :
      ProcessMove lib batchLines up s job p (.save i)
        { s with
          archive := (saveEvent s.archive ev).2
          server := .busy job
            { p with
              stage := .saving (slots.set i (ev, some (saveEvent s.archive ev).1)) after } }
  | saved {slots : List (NostrEvent × Option SaveEventStatus)} {after : After}
      (hstage : p.stage = .saving slots after) (hall : ∀ slot ∈ slots, slot.2.isSome = true) :
      ProcessMove lib batchLines up s job p .saved
        { s with
          server := .busy job
            { p with
              stage := .sending
                (slots.filterMap fun slot => slot.2.map fun status => (slot.1, status)) after } }
  | sendNew {ev : NostrEvent} {todo : List (NostrEvent × SaveEventStatus)} {after : After}
      (hstage : p.stage = .sending ((ev, .success) :: todo) after) :
      ProcessMove lib batchLines up s job p .send
        { s with
          sent := s.sent ++ [ev]
          server := .busy { job with counts := { job.counts with new := job.counts.new + 1 } }
            { p with stage := .sending todo after } }
  | sendOld {ev : NostrEvent} {todo : List (NostrEvent × SaveEventStatus)} {after : After}
      (hstage : p.stage = .sending ((ev, .duplicate) :: todo) after) :
      ProcessMove lib batchLines up s job p .send
        { s with
          server := .busy
            { job with counts := { job.counts with duplicate := job.counts.duplicate + 1 } }
            { p with stage := .sending todo after } }
  | persist {after : After} (hstage : p.stage = .sending [] after) :
      ProcessMove lib batchLines up s job p .persist
        { s with
          disk := job
          server := .busy job
            { p with stage := if after = .more then .reading else .returning after } }
  | exit (hstage : p.stage = .returning .stopped) :
      ProcessMove lib batchLines up s job p .finish { s.set job .queued with server := .down }
  | done (hstage : p.stage = .returning .finished) :
      ProcessMove lib batchLines up s job p .finish { s.set job .done with file := false }

/-- The steps of a node. -/
inductive Move (lib : ScreenLib) (batchLines : ℕ) (up : Upload) (s : Node) : Act → Node → Prop
  | load (hserver : s.server = .down) :
      Move lib batchLines up s .load
        { s.set s.disk (s.disk.phase.loaded s.file) with file := s.file && s.disk.phase.keepsFile }
  | claim {job : Job} (hserver : s.server = .idle job) (hphase : job.phase = .queued)
      (hfile : s.file = true) :
      Move lib batchLines up s .claim
        { s with
          disk := { job with phase := .processing }
          server := .busy { job with phase := .processing }
            { unread := up.items.drop job.cursor, batch := {}, stage := .reading } }
  | lost {job : Job} (hserver : s.server = .idle job) (hphase : job.phase = .queued)
      (hfile : s.file = false) : Move lib batchLines up s .claim (s.set job .failed)
  | rest {job : Job} (hserver : s.server = .idle job) :
      Move lib batchLines up s .stop { s with server := .down }
  | crash (hserver : s.server ≠ .down) : Move lib batchLines up s .crash { s with server := .down }
  | record {ids : Finset String} (hids : ids ⊆ (s.sent.map NostrEvent.id).toFinset) :
      Move lib batchLines up s (.record ids)
        { s with dedupe := s.dedupe.map fun known => known ∪ ids }
  | process {job : Job} {p : Process} {a : Act} {s' : Node} (hserver : s.server = .busy job p)
      (h : ProcessMove lib batchLines up s job p a s') : Move lib batchLines up s a s'

section moves

variable {lib : ScreenLib} {batchLines : ℕ} {up : Upload} {s s' : Node}

theorem processMove_of_step {job : Job} {p : Process} {a : Act}
    (h : processStep lib batchLines up s job p a = some s') :
    ProcessMove lib batchLines up s job p a s' := by
  unfold processStep at h
  cases a with
  | load => cases h
  | claim => cases h
  | crash => cases h
  | record => cases h
  | read =>
    dsimp only at h
    split at h
    · next hstage =>
      cases h
      exact .turn hstage
    · cases h
  | stop =>
    dsimp only at h
    split at h
    · next hstage =>
      split at h
      · cases h
        exact .stop hstage
      · cases h
    · cases h
  | screen i now =>
    dsimp only at h
    split at h
    · next slots after hstage =>
      split at h
      · next line hi =>
        split at h
        · next hclock =>
          cases h
          exact .screen hstage hi hclock
        · cases h
      · cases h
    · cases h
  | dedupe =>
    dsimp only at h
    split at h
    · next slots after hstage =>
      split at h
      · next hall =>
        cases h
        exact .dedupe hstage (List.all_eq_true.mp hall)
      · cases h
    · cases h
  | save i =>
    dsimp only at h
    split at h
    · next slots after hstage =>
      split at h
      · next ev hi =>
        cases h
        exact .save hstage hi
      · cases h
    · cases h
  | saved =>
    dsimp only at h
    split at h
    · next slots after hstage =>
      split at h
      · next hall =>
        cases h
        exact .saved hstage (List.all_eq_true.mp hall)
      · cases h
    · cases h
  | send =>
    dsimp only at h
    split at h
    · next ev status todo after hstage =>
      cases status with
      | success =>
        cases h
        exact .sendNew hstage
      | duplicate =>
        cases h
        exact .sendOld hstage
    · cases h
  | persist =>
    dsimp only at h
    split at h
    · next after hstage =>
      cases h
      exact .persist hstage
    · cases h
  | finish =>
    dsimp only at h
    split at h
    · next hstage =>
      cases h
      exact .exit hstage
    · next hstage =>
      cases h
      exact .done hstage
    · cases h

theorem move_of_step {a : Act} (h : step lib batchLines up s a = some s') :
    Move lib batchLines up s a s' := by
  unfold step at h
  split at h
  · next hserver =>
    cases h
    exact .load hserver
  · next job hserver =>
    split at h
    · next hphase =>
      split at h
      · next hfile =>
        cases h
        exact .claim hserver hphase hfile
      · next hfile =>
        cases h
        exact .lost hserver hphase (Bool.not_eq_true _ ▸ hfile)
    · cases h
  · next job hserver =>
    cases h
    exact .rest hserver
  · next hserver =>
    cases h
    exact .crash (by rw [hserver]; nofun)
  · next hserver =>
    cases h
    exact .crash (by rw [hserver]; nofun)
  · next ids _ =>
    split at h
    · next hids =>
      cases h
      exact .record hids
    · cases h
  · next job p _ _ hserver =>
    exact .process hserver (processMove_of_step h)
  · cases h

end moves

end NostrSearch.Server.Submit
