import NostrSearch.Lib.LittleEndian
import NostrSearch.Stats.Graph
import NostrSearch.Stats.Progress

/-!
# Checkpoint files

A checkpoint of an analysis is a file with its state, one with the metadata of its progress and
one with the boundary set, as raw 32-byte keys. Older builds wrote the whole progress to one file,
which `load` still reads when there is no metadata and which `save` removes.

`save` writes one file after another, each of them atomically. `stopped k` is what is on disk when
the process stops after `k` of these operations, and `crash_atomic_iff` says when a `load` after
that has the old checkpoint or the new one, whatever the directory held before.

A metadata file is what it decodes to, and so is a file of an older build.
-/

namespace NostrSearch.Stats

open NostrSearch.Core NostrSearch.Lib

/-- Progress metadata as persisted, without the boundary set. -/
structure ProgressMeta where
  epoch : ℕ
  watermark : ℕ
  events : ℕ
  backfilled : Bool
  lastRefreshWall : ℕ
  counters : Counters
  rebuild : Rebuild

namespace ProgressMeta

def ofProgress (p : Progress) : ProgressMeta :=
  { epoch := p.epoch, watermark := p.watermark, events := p.events, backfilled := p.backfilled
    lastRefreshWall := p.lastRefreshWall, counters := p.counters, rebuild := p.rebuild }

/-- The boundary set has a file of its own. -/
def toProgress (m : ProgressMeta) : Progress :=
  { epoch := m.epoch, watermark := m.watermark, boundary := ∅, events := m.events
    backfilled := m.backfilled, lastRefreshWall := m.lastRefreshWall, counters := m.counters
    rebuild := m.rebuild }

end ProgressMeta

/-- The files of one analysis. Inside the `Option` of a file that is decoded, `none` is a file that
does not decode. -/
structure Files where
  /-- `<name>.state.bin` -/
  state : Option (List UInt8)
  /-- `<name>.progress.json` -/
  progress : Option (Option ProgressMeta)
  /-- `<name>.progress.bin`, of an older build -/
  legacy : Option (Option Progress)
  /-- `<name>.boundary.bin` -/
  boundary : Option (List UInt8)

/-- The directory of a store, by analysis name. -/
abbrev Dir := String → Files

/-- Why `load` fails: the file that does not decode. -/
inductive LoadError
  | decoding (file : String)

namespace Files

def none : Files := { state := .none, progress := .none, legacy := .none, boundary := .none }

/-- The ids in the boundary file. A key that is cut off is not one of them. -/
def ids (f : Files) : Finset EventId := (f.boundary.elim [] (blocks 32)).toFinset

/-- The progress `load` reads, where there is a file to read it from. -/
def loadProgress (f : Files) (name : String) : Except LoadError Progress :=
  let progress : Except LoadError Progress :=
    match f.progress with
    | some (some m) => .ok m.toProgress
    | some .none => .error (.decoding (name ++ ".progress.json"))
    | .none =>
      match f.legacy with
      | some (some p) => .ok p
      | _ => .error (.decoding (name ++ ".progress.bin"))
  match f.boundary with
  | some bytes => progress.map fun p => { p with boundary := (blocks 32 bytes).toFinset }
  | .none => progress

/-- Whether there is a file to read progress from. -/
def hasProgress (f : Files) : Bool := f.progress.isSome || f.legacy.isSome

end Files

/-- Load the saved state and progress of `name`, if present. -/
def load (d : Dir) (name : String) : Except LoadError (Option (List UInt8 × Progress)) :=
  match (d name).state with
  | none => .ok none
  | some state =>
    if (d name).hasProgress then
      ((d name).loadProgress name).map fun progress => some (state, progress)
    else .ok none

/-- What `save` does to the directory, one file at a time. -/
inductive FileOp
  | writeState (bytes : List UInt8)
  | writeProgress (m : ProgressMeta)
  | writeBoundary (bytes : List UInt8)
  | removeLegacy

def FileOp.apply (f : Files) : FileOp → Files
  | .writeState bytes => { f with state := some bytes }
  | .writeProgress m => { f with progress := some (some m) }
  | .writeBoundary bytes => { f with boundary := some bytes }
  | .removeLegacy => { f with legacy := none }

/-- The file operations of `save`. The source writes the ids in the order of its hash set, which
makes no difference to what is read back. -/
def saveOps (state : List UInt8) (p : Progress) : List FileOp :=
  [.writeState state, .writeProgress (ProgressMeta.ofProgress p),
    .writeBoundary ((p.boundary.sort keyLe).flatMap Vector.toList), .removeLegacy]

/-- What is on disk when the process stops after `k` operations of `save`. -/
def stopped (k : ℕ) (d : Dir) (name : String) (state : List UInt8) (p : Progress) : Dir :=
  Function.update d name (((saveOps state p).take k).foldl FileOp.apply (d name))

/-- Persist the state and progress of `name`. -/
def save (d : Dir) (name : String) (state : List UInt8) (p : Progress) : Dir :=
  stopped (saveOps state p).length d name state p

/-- When a `save` over these files may stop anywhere.

The state must not be replaced under an old progress: there is none to read, or none that reads, or
it is the new one, or the state is the old one. And the new metadata must not be read with an old
boundary set: it is the same set, or what would be read is what was there before. -/
def SafeToStop (f : Files) (name : String) (state : List UInt8) (p : Progress) : Prop :=
  (f.hasProgress = false ∨ f.state = some state ∨ f.loadProgress name = .ok p ∨
    (f.state.isSome = true ∧ ∃ err, f.loadProgress name = .error err)) ∧
  (f.ids = p.boundary ∨
    (f.state = some state ∧ f.hasProgress = true ∧
      f.loadProgress name = .ok { p with boundary := f.ids }))

/-! ## Loading -/

section Load

variable {d : Dir} {name : String} {state : List UInt8} {p : Progress}

theorem load_of_none (h : (d name).state = none) : load d name = .ok none := by
  rw [load, h]

theorem load_of_some (h : (d name).state = some state) (hp : (d name).hasProgress = true) :
    load d name = ((d name).loadProgress name).map fun progress => some (state, progress) := by
  rw [load, h]
  exact if_pos hp

theorem load_of_noProgress (hp : (d name).hasProgress = false) : load d name = .ok none := by
  rw [load, hp]
  cases (d name).state with
  | none => rfl
  | some state => rfl

theorem map_eq_ok {x : Except LoadError Progress} {state' : List UInt8} {p' : Progress} :
    (x.map fun progress => some (state, progress)) = .ok (some (state', p')) ↔
      state = state' ∧ x = .ok p' := by
  cases x with
  | error err => simp [Except.map]
  | ok q => simp [Except.map]

/-- Files that have metadata. -/
theorem loadProgress_of_meta {f : Files} {p : Progress}
    (h : f.progress = some (some (ProgressMeta.ofProgress p))) :
    f.loadProgress name = .ok { p with boundary := f.ids } := by
  unfold Files.loadProgress Files.ids
  rw [h]
  cases f.boundary with
  | none => rfl
  | some bytes => rfl

theorem load_of_meta (h : (d name).state = some state)
    (hp : (d name).progress = some (some (ProgressMeta.ofProgress p))) :
    load d name = .ok (some (state, { p with boundary := (d name).ids })) := by
  have hprogress : (d name).hasProgress = true := by
    rw [Files.hasProgress, hp]
    rfl
  rw [load_of_some h hprogress, loadProgress_of_meta hp]
  rfl

end Load

/-! ## Stopping -/

section Stop

variable (d : Dir) (name : String) (state : List UInt8) (p : Progress)

theorem stopped_self (k : ℕ) :
    stopped k d name state p name = ((saveOps state p).take k).foldl FileOp.apply (d name) :=
  Function.update_self name _ d

/-- Nothing was written. -/
theorem load_stopped_zero : load (stopped 0 d name state p) name = load d name := by
  have hsame : stopped 0 d name state p name = d name := stopped_self d name state p 0
  rw [load, hsame, load]

theorem ids_written : (blocks 32 ((p.boundary.sort keyLe).flatMap Vector.toList)).toFinset =
    p.boundary := by
  rw [blocks_flatMap (by omega), Finset.sort_toFinset]

/-- From the boundary file on, the new checkpoint is there. -/
theorem load_stopped_of_le {k : ℕ} (hk : 3 ≤ k) :
    load (stopped k d name state p) name = .ok (some (state, p)) := by
  have hfiles : (stopped k d name state p name).state = some state ∧
      (stopped k d name state p name).progress = some (some (ProgressMeta.ofProgress p)) ∧
      (stopped k d name state p name).ids = p.boundary := by
    rw [stopped_self]
    obtain ⟨j, rfl⟩ := Nat.exists_eq_add_of_le' hk
    cases j with
    | zero => exact ⟨rfl, rfl, ids_written p⟩
    | succ j =>
      have hall : (saveOps state p).take (j + 1 + 3) = saveOps state p :=
        List.take_of_length_le (by show 4 ≤ j + 1 + 3; omega)
      rw [hall]
      exact ⟨rfl, rfl, ids_written p⟩
  rw [load_of_meta hfiles.1 hfiles.2.1, hfiles.2.2]

/-- What was saved is loaded. -/
theorem load_save : load (save d name state p) name = .ok (some (state, p)) :=
  load_stopped_of_le d name state p (by show 3 ≤ 4; omega)

/-- And the files of the other analyses are left alone. -/
theorem save_other {other : String} (h : other ≠ name) (k : ℕ) :
    stopped k d name state p other = d other := Function.update_of_ne h _ d

/-- The new state, with the progress that was there. -/
theorem stopped_one_iff :
    (load (stopped 1 d name state p) name = load d name ∨
        load (stopped 1 d name state p) name = .ok (some (state, p))) ↔
      ((d name).hasProgress = false ∨ (d name).state = some state ∨
        (d name).loadProgress name = .ok p ∨
        ((d name).state.isSome = true ∧ ∃ err, (d name).loadProgress name = .error err)) := by
  have hfiles : stopped 1 d name state p name = { d name with state := some state } :=
    stopped_self d name state p 1
  cases hp : (d name).hasProgress with
  | false =>
    -- neither before nor after is there anything to load
    have hafter : load (stopped 1 d name state p) name = .ok none :=
      load_of_noProgress (by rw [hfiles]; exact hp)
    rw [hafter, load_of_noProgress hp]
    simp
  | true =>
    have hafter : load (stopped 1 d name state p) name =
        ((d name).loadProgress name).map fun progress => some (state, progress) := by
      have hstate : (stopped 1 d name state p name).state = some state := by rw [hfiles]
      rw [load_of_some hstate (by rw [hfiles]; exact hp), hfiles]
      rfl
    rw [hafter, map_eq_ok]
    cases hs : (d name).state with
    | none =>
      rw [load_of_none hs]
      cases (d name).loadProgress name <;> simp [Except.map]
    | some old =>
      rw [load_of_some hs hp]
      cases (d name).loadProgress name with
      | error err => simp [Except.map]
      | ok q => simp [Except.map, eq_comm]

/-- The new state and metadata, with the boundary set that was there. -/
theorem stopped_two_iff :
    (load (stopped 2 d name state p) name = load d name ∨
        load (stopped 2 d name state p) name = .ok (some (state, p))) ↔
      ((d name).ids = p.boundary ∨
        ((d name).state = some state ∧ (d name).hasProgress = true ∧
          (d name).loadProgress name = .ok { p with boundary := (d name).ids })) := by
  have hfiles : stopped 2 d name state p name =
      { d name with
        state := some state, progress := some (some (ProgressMeta.ofProgress p)) } :=
    stopped_self d name state p 2
  have hafter : load (stopped 2 d name state p) name =
      .ok (some (state, { p with boundary := (d name).ids })) := by
    have hstate : (stopped 2 d name state p name).state = some state := by rw [hfiles]
    rw [load_of_meta hstate (p := p) (by rw [hfiles]), hfiles]
    rfl
  -- what is read is the new checkpoint when the boundary set happens to be the new one
  have hnew : (Except.ok (some (state, { p with boundary := (d name).ids })) :
      Except LoadError (Option (List UInt8 × Progress))) = .ok (some (state, p)) ↔
      (d name).ids = p.boundary := by
    constructor
    · intro h
      have hpair := Option.some.inj (Except.ok.inj h)
      exact congrArg Progress.boundary (Prod.mk.inj hpair).2
    · intro h
      rw [h]
  rw [hafter, hnew, or_comm]
  apply or_congr_right
  cases hs : (d name).state with
  | none =>
    -- there was nothing to load before
    rw [load_of_none hs]
    simp
  | some old =>
    cases hp : (d name).hasProgress with
    | false =>
      rw [load_of_noProgress hp]
      simp
    | true =>
      rw [load_of_some hs hp, eq_comm, map_eq_ok]
      simp

/-- Stopped after the state file, a `save` over an older one leaves the new state with the old
progress. -/
theorem load_stopped_one_save (old : List UInt8) (q : Progress) :
    load (stopped 1 (save d name old q) name state p) name = .ok (some (state, q)) := by
  have hsaved : save d name old q name = (saveOps old q).foldl FileOp.apply (d name) :=
    stopped_self d name old q 4
  have hfiles : stopped 1 (save d name old q) name state p name =
      { save d name old q name with state := some state } :=
    stopped_self (save d name old q) name state p 1
  have hids : (stopped 1 (save d name old q) name state p name).ids = q.boundary := by
    rw [hfiles, hsaved]
    exact ids_written q
  have hstate : (stopped 1 (save d name old q) name state p name).state = some state := by
    rw [hfiles]
  rw [load_of_meta hstate (p := q) (by rw [hfiles, hsaved]; rfl), hids]

/-- A `load` after a `save` that stopped somewhere has the old checkpoint or the new one, if and
only if nothing old is read together with something new. -/
theorem crash_atomic_iff :
    (∀ k, load (stopped k d name state p) name = load d name ∨
        load (stopped k d name state p) name = .ok (some (state, p))) ↔
      SafeToStop (d name) name state p := by
  rw [SafeToStop, ← stopped_one_iff, ← stopped_two_iff]
  constructor
  · exact fun h => ⟨h 1, h 2⟩
  · rintro ⟨hone, htwo⟩ k
    match k with
    | 0 => exact Or.inl (load_stopped_zero d name state p)
    | 1 => exact hone
    | 2 => exact htwo
    | k + 3 => exact Or.inr (load_stopped_of_le d name state p (by omega))

/-- The counters of an event are saved and its id is not, so the event is taken once more. -/
theorem state_saved_without_progress :
    ¬ ∀ (d : Dir) (name : String) (old : List UInt8) (q : Progress) (state : List UInt8)
      (p : Progress) (k : ℕ),
      load (stopped k (save d name old q) name state p) name = .ok (some (old, q)) ∨
      load (stopped k (save d name old q) name state p) name = .ok (some (state, p)) ∨
      ∃ q', load (stopped k (save d name old q) name state p) name = .ok (some (state, q')) ∧
        ∀ ts id, q'.shouldConsume ts id = true → p.shouldConsume ts id = true := by
  intro h
  let q := Progress.fresh 1
  let id : EventId := Vector.replicate 32 0xaa
  let p := q.advance 1700000000 id
  have hmixed := load_stopped_one_save (fun _ => Files.none) "activity" [2] p [1] q
  rcases h (fun _ => Files.none) "activity" [1] q [2] p 1 with hold | hnew | ⟨q', hq', hsafe⟩
  · rw [hmixed] at hold
    have hpair := Option.some.inj (Except.ok.inj hold)
    have hstate : [(2 : UInt8)] = [1] := (Prod.mk.inj hpair).1
    exact absurd hstate (by decide)
  · rw [hmixed] at hnew
    have hpair := Option.some.inj (Except.ok.inj hnew)
    have hevents : q.events = p.events := congrArg Progress.events (Prod.mk.inj hpair).2
    exact absurd hevents (by decide)
  · rw [hmixed] at hq'
    have hpair := Option.some.inj (Except.ok.inj hq')
    have hq : q = q' := (Prod.mk.inj hpair).2
    have hseen : id ∈ p.boundary := Finset.mem_insert_self _ _
    have hagain : p.shouldConsume 1700000000 id = true :=
      hsafe 1700000000 id (by rw [← hq]; decide)
    exact (Progress.shouldConsume_iff.mp hagain).2 hseen

end Stop

end NostrSearch.Stats
