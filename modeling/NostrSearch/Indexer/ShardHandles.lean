import NostrSearch.Indexer.ShardWriter

/-!
# Handles on open shards

What a step of a thread does to the shards, and from where, is one of the six cases of
`Effect`; `stepThread_effect` says so, and every invariant of the manager is read off it. Here
it makes the manager a keyed map of shared cells (`step_cells`), so that the rules of
`Lib.Cells` apply: at most one open shard is alive for each month (`one_writer_per_month`),
and a shard is opened only while none is alive for its month.
-/

namespace NostrSearch.Indexer

open NostrSearch.Core NostrSearch.Lib

/-- The same month and the same documents queued and counted. -/
structure OpenShard.SameDocs (a b : OpenShard) : Prop where
  id : a.id = b.id
  queued : a.queued = b.queued
  docsSinceCommit : a.docsSinceCommit = b.docsSinceCommit

theorem OpenShard.SameDocs.refl (a : OpenShard) : a.SameDocs a := ⟨rfl, rfl, rfl⟩

namespace Shards

theorem heap_modify_self (s : Shards) (c : ℕ) (f : OpenShard → OpenShard) :
    (s.modify c f).heap c = f (s.heap c) := by
  simp [modify]

theorem heap_modify_of_ne (s : Shards) {c d : ℕ} (h : d ≠ c) (f : OpenShard → OpenShard) :
    (s.modify c f).heap d = s.heap d := by
  simp [modify, Function.update_of_ne h]

/-- Changing the bookkeeping of a shard leaves everyone's documents alone. -/
theorem sameDocs_modify (s : Shards) (c : ℕ) {f : OpenShard → OpenShard}
    (hf : (f (s.heap c)).SameDocs (s.heap c)) (d : ℕ) :
    ((s.modify c f).heap d).SameDocs (s.heap d) := by
  by_cases h : d = c
  · subst h
    rw [heap_modify_self]
    exact hf
  · rw [heap_modify_of_ne s h]
    exact OpenShard.SameDocs.refl _

theorem id_modify (s : Shards) (c : ℕ) {f : OpenShard → OpenShard}
    (hf : ∀ sh, (f sh).id = sh.id) (d : ℕ) : ((s.modify c f).heap d).id = (s.heap d).id := by
  by_cases h : d = c
  · subst h
    rw [heap_modify_self, hf]
  · rw [heap_modify_of_ne s h]

theorem heap_flush_self (s : Shards) (c nowMs : ℕ) :
    (s.flush c nowMs).heap c =
      { s.heap c with queued := [], docsSinceCommit := 0, lastCommitMs := nowMs } := by
  simp [flush]

theorem heap_flush_of_ne (s : Shards) {c d : ℕ} (h : d ≠ c) (nowMs : ℕ) :
    (s.flush c nowMs).heap d = s.heap d := by
  simp [flush, Function.update_of_ne h]

theorem id_flush (s : Shards) (c nowMs d : ℕ) :
    ((s.flush c nowMs).heap d).id = (s.heap d).id := by
  by_cases h : d = c
  · subst h
    rw [heap_flush_self]
  · rw [heap_flush_of_ne s h]

theorem disk_flush_self (s : Shards) (c nowMs : ℕ) :
    (s.flush c nowMs).disk (s.heap c).id = s.disk (s.heap c).id ++ (s.heap c).queued := by
  simp [flush]

theorem disk_flush_of_ne (s : Shards) {c : ℕ} {id : ShardId} (h : id ≠ (s.heap c).id)
    (nowMs : ℕ) : (s.flush c nowMs).disk id = s.disk id := by
  simp [flush, Function.update_of_ne h]

theorem heap_openShard_self (s : Shards) (id : ShardId) (tick nowMs : ℕ) :
    (s.openShard id tick nowMs).heap s.next =
      { id := id, lastUsed := tick, queued := [], docsSinceCommit := 0, lastCommitMs := nowMs,
        totalDocs := 0 } := by
  simp [openShard]

theorem heap_openShard_of_ne (s : Shards) (id : ShardId) (tick nowMs : ℕ) {c : ℕ}
    (h : c ≠ s.next) : (s.openShard id tick nowMs).heap c = s.heap c := by
  simp [openShard, Function.update_of_ne h]

/-- A commit does nothing, or it flushes a shard with documents counted since its last one. -/
theorem commit_cases {s s' : Shards} {c nowMs : ℕ} {fail e : Option ShardError}
    (h : s.commit c fail nowMs = (s', e)) :
    (s' = s ∧ (e = none → (s.heap c).docsSinceCommit = 0)) ∨
      (s' = s.flush c nowMs ∧ 0 < (s.heap c).docsSinceCommit ∧ e = none) := by
  unfold commit at h
  by_cases h0 : (s.heap c).docsSinceCommit = 0
  · rw [if_pos h0] at h
    cases h
    exact Or.inl ⟨rfl, fun _ => h0⟩
  · rw [if_neg h0] at h
    cases fail with
    | some err =>
      cases h
      exact Or.inl ⟨rfl, fun herr => by cases herr⟩
    | none =>
      cases h
      exact Or.inr ⟨rfl, Nat.pos_of_ne_zero h0, rfl⟩

end Shards

/-- What one step of one thread does to the shards, and from where. -/
inductive Effect (strong : ℕ → ℕ) (s s' : Shards) (pc pc' : Pc) : Prop
  /-- No document moves and no shard opens or closes. -/
  | share (hmap : s'.map = s.map) (hnext : s'.next = s.next) (hdisk : s'.disk = s.disk)
      (hheap : ∀ c, (s'.heap c).SameDocs (s.heap c))
      (hheld : ∀ c ∈ pc'.handles, c ∈ pc.handles ∨ ∃ k, s.map.lookup k = some c)
  /-- `add_document`. -/
  | queue (j : Job) (c : ℕ) (hpc : pc = .add j c) (hpc' : pc' = .countSince j c)
      (hs : s' = s.modify c fun sh => { sh with queued := sh.queued ++ [j.ev] })
  /-- `docs_since_commit.fetch_add`. -/
  | count (j : Job) (c : ℕ) (hpc : pc = .countSince j c) (hpc' : pc' = .countTotal j c)
      (hs : s' = s.modify c fun sh => { sh with docsSinceCommit := sh.docsSinceCommit + 1 })
  /-- A commit that reaches the disk. -/
  | flush (c nowMs : ℕ) (hc : c ∈ pc.handles) (hpos : 0 < (s.heap c).docsSinceCommit)
      (hs : s' = s.flush c nowMs) (hheld : ∀ d ∈ pc'.handles, d ∈ pc.handles)
  /-- `OpenShard::open` and the insertion, under the map lock. -/
  | openShard (j : Job) (nowMs : ℕ) (hpc : pc = .findOrOpen j)
      (habs : s.map.lookup j.id = none) (hpc' : pc' = .add j s.next)
      (hs : s' = s.openShard j.id j.tick nowMs)
  /-- The removal of `close_shard`. -/
  | remove (id : ShardId) (k : CloseCaller) (c : ℕ) (hpc : pc = .closeRemove id k)
      (hc : s.map.lookup id = some c) (hone : strong c = 1) (hpc' : pc' = k.resume)
      (hs : s' = { s with map := s.map.erase id })

@[simp] theorem handles_resume (k : CloseCaller) : k.resume.handles = 0 := by
  cases k <;> rfl

@[simp] theorem handles_resume_evict (k : EvictCaller) : k.resume.handles = 0 := by
  cases k <;> rfl

/-- A step that leaves the shards alone and takes no handle but one the map has. -/
theorem Effect.quiet {strong : ℕ → ℕ} {s : Shards} {pc pc' : Pc}
    (h : ∀ c ∈ pc'.handles, c ∈ pc.handles ∨ ∃ k, s.map.lookup k = some c) :
    Effect strong s s pc pc' :=
  .share rfl rfl rfl (fun _ => OpenShard.SameDocs.refl _) h

theorem Effect.ofCommit {strong : ℕ → ℕ} {s s' : Shards} {pc pc' : Pc} {c nowMs : ℕ}
    {fail e : Option ShardError} (h : s.commit c fail nowMs = (s', e)) (hc : c ∈ pc.handles)
    (hheld : ∀ d ∈ pc'.handles, d ∈ pc.handles) : Effect strong s s' pc pc' := by
  rcases Shards.commit_cases h with ⟨rfl, -⟩ | ⟨rfl, hpos, -⟩
  · exact .quiet fun d hd => Or.inl (hheld d hd)
  · exact .flush c nowMs hc hpos rfl hheld

/-- `shard_for` finds its month in the map. -/
theorem Effect.ofLookup {strong : ℕ → ℕ} {s : Shards} {pc : Pc} {j : Job} {c : ℕ}
    (h : s.map.lookup j.id = some c) :
    Effect strong s (s.modify c fun sh => { sh with lastUsed := j.tick }) pc (.add j c) := by
  refine .share rfl rfl rfl (s.sameDocs_modify c ⟨rfl, rfl, rfl⟩) ?_
  intro d hd
  rw [Pc.handles, Multiset.mem_singleton] at hd
  subst hd
  exact Or.inr ⟨j.id, h⟩

private theorem none_of_handles_zero {s : Shards} {pc pc' : Pc} (h : pc'.handles = 0) :
    ∀ c ∈ pc'.handles, c ∈ pc.handles ∨ ∃ k, s.map.lookup k = some c := by
  intro c hc
  rw [h] at hc
  exact absurd hc (Multiset.notMem_zero c)

private theorem none_of_handles_zero' {pc pc' : Pc} (h : pc'.handles = 0) :
    ∀ c ∈ pc'.handles, c ∈ pc.handles := by
  intro c hc
  rw [h] at hc
  exact absurd hc (Multiset.notMem_zero c)

/-- **What a step can do.** One case for each place a thread can be. -/
theorem stepThread_effect {cfg : ShardWriterConfig} {strong : ℕ → ℕ} {s s' : Shards}
    {o : Oracle} {pc pc' : Pc} (h : stepThread cfg strong s o pc = some (s', pc')) :
    Effect strong s s' pc pc' := by
  cases pc with
  | idle => cases h
  | returned c r => cases h
  | called c =>
    cases c with
    | indexEvent ev =>
      simp only [stepThread] at h
      split at h <;> cases h <;> exact .quiet (none_of_handles_zero rfl)
    | tick =>
      cases h
      -- `tick` takes a handle on every shard the map has
      exact .quiet fun c hc => Or.inr (mem_mapValues.mp hc)
    | commitAll =>
      cases h
      refine .quiet fun c hc => Or.inr ?_
      rw [Pc.handles, Multiset.mem_add, or_self] at hc
      exact mem_mapValues.mp hc
    | closeShard id =>
      cases h
      exact .quiet (none_of_handles_zero rfl)
    | evictIfNeeded =>
      cases h
      exact .quiet (none_of_handles_zero rfl)
  | route ev ret =>
    cases h
    exact .share rfl rfl rfl (fun _ => OpenShard.SameDocs.refl _) (none_of_handles_zero rfl)
  | find j =>
    simp only [stepThread] at h
    split at h
    case h_1 c hc =>
      cases h
      exact .ofLookup hc
    case h_2 =>
      cases h
      exact .quiet (none_of_handles_zero rfl)
  | evicting left k =>
    cases left with
    | zero =>
      cases h
      exact .quiet (none_of_handles_zero (handles_resume_evict k))
    | succ left =>
      simp only [stepThread] at h
      split at h
      case isTrue =>
        cases h
        exact .quiet (none_of_handles_zero (handles_resume_evict k))
      case isFalse =>
        split at h <;> split at h <;> cases h
        · exact .quiet (none_of_handles_zero rfl)
        · exact .quiet (none_of_handles_zero (handles_resume_evict k))
  | closeFind id k =>
    simp only [stepThread] at h
    split at h
    case h_1 c hc =>
      cases h
      -- the handle is a clone of the map's
      refine .quiet fun d hd => Or.inr ?_
      rw [Pc.handles, Multiset.mem_singleton] at hd
      exact ⟨id, by rw [hd, hc]⟩
    case h_2 =>
      cases h
      exact .quiet (none_of_handles_zero (handles_resume k))
  | closeCommit id c k =>
    simp only [stepThread] at h
    split at h
    case h_1 s₁ hcommit =>
      cases h
      exact .ofCommit hcommit (by simp [Pc.handles]) fun d hd => hd
    case h_2 s₁ e hcommit =>
      cases h
      exact .ofCommit hcommit (by simp [Pc.handles]) (none_of_handles_zero' rfl)
  | closeDrop id c k =>
    cases h
    exact .quiet (none_of_handles_zero rfl)
  | closeRemove id k =>
    simp only [stepThread] at h
    split at h
    case h_1 c hc =>
      split at h
      -- nobody but the map has the shard, by the count read under the map lock
      case isTrue hone =>
        cases h
        exact .remove id k c rfl hc hone rfl rfl
      case isFalse =>
        cases h
        exact .quiet (none_of_handles_zero (handles_resume k))
    case h_2 =>
      cases h
      exact .quiet (none_of_handles_zero (handles_resume k))
  | findOrOpen j =>
    simp only [stepThread] at h
    split at h
    case h_1 c hc =>
      cases h
      exact .ofLookup hc
    case h_2 habs =>
      split at h
      case h_1 =>
        cases h
        exact .quiet (none_of_handles_zero rfl)
      case h_2 =>
        cases h
        -- still under the map lock that found no shard
        exact .openShard j o.now rfl habs rfl rfl
  | add j c =>
    simp only [stepThread] at h
    split at h
    case h_1 =>
      cases h
      exact .quiet (none_of_handles_zero rfl)
    case h_2 =>
      cases h
      exact .queue j c rfl rfl rfl
  | countSince j c =>
    cases h
    exact .count j c rfl rfl rfl
  | countTotal j c =>
    cases h
    exact .share rfl rfl rfl (s.sameDocs_modify c ⟨rfl, rfl, rfl⟩) fun d hd => Or.inl hd
  | shouldCommit j c =>
    simp only [stepThread] at h
    split at h <;> cases h
    · exact .quiet fun d hd => Or.inl hd
    · exact .quiet (none_of_handles_zero rfl)
  | commitDoc j c =>
    simp only [stepThread] at h
    split at h
    case h_1 s₁ hcommit =>
      cases h
      exact .ofCommit hcommit (by simp [Pc.handles]) (none_of_handles_zero' rfl)
    case h_2 s₁ e hcommit =>
      cases h
      exact .ofCommit hcommit (by simp [Pc.handles]) (none_of_handles_zero' rfl)
  | ticking todo =>
    simp only [stepThread] at h
    split at h
    case isTrue =>
      cases h
      exact .quiet (none_of_handles_zero rfl)
    case isFalse =>
      split at h
      case isFalse => cases h
      case isTrue hmem =>
        -- a handle of the snapshot, on a shard that is due or not
        split at h <;> cases h
        · refine .quiet fun d hd => Or.inl ?_
          rwa [Pc.handles, Multiset.cons_erase hmem] at hd
        · exact .quiet fun d hd => Or.inl (Multiset.mem_of_mem_erase hd)
  | tickCommit c todo =>
    simp only [stepThread] at h
    split at h
    case h_1 s₁ hcommit =>
      cases h
      exact .ofCommit hcommit (Multiset.mem_cons_self c todo)
        fun d hd => Multiset.mem_cons_of_mem hd
    case h_2 s₁ e hcommit =>
      cases h
      exact .ofCommit hcommit (Multiset.mem_cons_self c todo) (none_of_handles_zero' rfl)
  | committing snap todo errs =>
    simp only [stepThread] at h
    split at h
    case isTrue =>
      repeat' split at h
      all_goals cases h
      all_goals exact .quiet (none_of_handles_zero rfl)
    case isFalse =>
      split at h
      case isFalse => cases h
      case isTrue hmem =>
        cases h
        -- whatever the commit answers, the loop goes on
        refine .ofCommit rfl (Multiset.mem_add.mpr (Or.inr hmem)) ?_
        intro d hd
        simp only [Pc.handles, Multiset.mem_add] at hd ⊢
        exact hd.imp_right Multiset.mem_of_mem_erase

namespace Manager

variable {T : Type} [DecidableEq T] [Fintype T]

/-- A step of the system is a call, or one thread's step. -/
theorem step_cases {cfg : ShardWriterConfig} {s s' : Manager T} {a : Act T}
    (h : step cfg s a = some s') :
    (∃ t c, a = .call t c ∧ (s.threads t).resting ∧
      s' = { s with threads := Function.update s.threads t (.called c) }) ∨
    (∃ t o sh pc, a = .go t o ∧
      stepThread cfg s.strongCount s.shards o (s.threads t) = some (sh, pc) ∧
      s' = { shards := sh, threads := Function.update s.threads t pc,
             acked := pc.ackedEvent.toList ++ s.acked }) := by
  cases a with
  | call t c =>
    simp only [step] at h
    split at h
    case isTrue hrest =>
      cases h
      exact Or.inl ⟨t, c, rfl, hrest, rfl⟩
    case isFalse => cases h
  | go t o =>
    simp only [step, Option.map_eq_some_iff] at h
    obtain ⟨⟨sh, pc⟩, hstep, rfl⟩ := h
    exact Or.inr ⟨t, o, sh, pc, rfl, hstep, rfl⟩

omit [Fintype T] in
/-- What holds of everyone's handles after thread `t` has moved to `pc`. -/
private theorem held_update {s : Manager T} {t : T} {pc : Pc} {P : T → ℕ → Prop}
    (hother : ∀ u, ∀ c ∈ (s.threads u).handles, P u c) (hself : ∀ c ∈ pc.handles, P t c) (u : T) :
    ∀ c ∈ (Function.update s.threads t pc u).handles, P u c := by
  have hall := Function.forall_update_iff s.threads (a := t) (b := pc)
    fun u pc => ∀ c ∈ pc.handles, P u c
  exact hall.mpr ⟨hself, fun v _ => hother v⟩ u

/-- The shards after `t` has moved, seen as cells: nothing opened or removed. -/
private theorem share_cells {s : Manager T} {t : T} {sh : Shards} {pc : Pc}
    {acked : List NostrEvent} (hmap : sh.map = s.shards.map) (hnext : sh.next = s.shards.next)
    (hid : ∀ c, (sh.heap c).id = (s.shards.heap c).id)
    (hheld : ∀ c ∈ pc.handles,
      c ∈ (s.threads t).handles ∨ ∃ k, s.shards.map.lookup k = some c) :
    Cells.Step s.cells (cells { shards := sh, threads := Function.update s.threads t pc,
                                acked := acked }) :=
  .share hmap (funext hid) hnext (held_update (fun _ _ hd => Or.inl hd) hheld)

/-- The manager's steps are moves of a keyed map of shared cells. -/
theorem step_cells {cfg : ShardWriterConfig} {s s' : Manager T} {a : Act T}
    (h : step cfg s a = some s') : Cells.Step s.cells s'.cells := by
  rcases step_cases h with ⟨t, c, -, -, rfl⟩ | ⟨t, o, sh, pc, -, hstep, rfl⟩
  · exact share_cells rfl rfl (fun _ => rfl) fun d hd => absurd hd (Multiset.notMem_zero d)
  · cases stepThread_effect hstep with
    | share hmap hnext hdisk hheap hheld =>
      exact share_cells hmap hnext (fun c => (hheap c).id) hheld
    | queue j c hpc hpc' hs =>
      subst hs hpc'
      refine share_cells rfl rfl (fun d => ?_) fun d hd => Or.inl (by rwa [hpc])
      apply Shards.id_modify
      intro sh
      rfl
    | count j c hpc hpc' hs =>
      subst hs hpc'
      refine share_cells rfl rfl (fun d => ?_) fun d hd => Or.inl (by rwa [hpc])
      apply Shards.id_modify
      intro sh
      rfl
    | flush c nowMs hc hpos hs hheld =>
      subst hs
      exact share_cells rfl rfl (s.shards.id_flush c nowMs) fun d hd => Or.inl (hheld d hd)
    | openShard j nowMs hpc habs hpc' hs =>
      subst hs hpc'
      refine .openCell j.id habs rfl ?_ (fun c hc => ?_) rfl
        (held_update (fun _ _ hd => Or.inl hd) fun d hd => ?_)
      · exact congrArg OpenShard.id (s.shards.heap_openShard_self j.id j.tick nowMs)
      · exact congrArg OpenShard.id (s.shards.heap_openShard_of_ne j.id j.tick nowMs hc)
      · exact Or.inr (Multiset.mem_singleton.mp hd)
    | remove id k c hpc hc hone hpc' hs =>
      subst hs hpc'
      refine .remove id c hc hone rfl rfl rfl (held_update (fun _ _ hd => hd) fun d hd => ?_)
      rw [handles_resume] at hd
      exact absurd hd (Multiset.notMem_zero d)

omit [DecidableEq T] [Fintype T] in
theorem registered_init : (init : Manager T).cells.Registered := by
  constructor
  · intro t c hc
    exact absurd hc (Multiset.notMem_zero c)
  · intro k c hk
    rw [cells, init, Finmap.lookup_empty] at hk
    cases hk

theorem registered_step {cfg : ShardWriterConfig} {s s' : Manager T} {a : Act T}
    (hs : s.cells.Registered) (h : step cfg s a = some s') : s'.cells.Registered :=
  hs.step (step_cells h)

theorem registered_run {cfg : ShardWriterConfig} {s : Manager T} {as : List (Act T)}
    (hrun : run (step cfg) init as = some s) : s.cells.Registered :=
  run_invariant' (fun _ _ _ => registered_step) registered_init hrun

/-- An open shard is alive while the map or a thread holds a handle on it: its writer, and
with it the lockfile of its month's directory, goes when the last handle does. -/
def Alive (s : Manager T) (c : ℕ) : Prop := 0 < s.strongCount c

/-- **At most one writer per month**, in every reachable state, handles of threads counted.
And a thread about to open a shard, having found none in the map, finds no writer alive on the
month it opens. -/
theorem one_writer_per_month (cfg : ShardWriterConfig) (as : List (Act T)) (s : Manager T)
    (hrun : run (step cfg) init as = some s) :
    (∀ c d, s.Alive c → s.Alive d → (s.shards.heap c).id = (s.shards.heap d).id → c = d) ∧
    ∀ t j, s.threads t = .findOrOpen j → s.shards.map.lookup j.id = none →
      ∀ c, s.Alive c → (s.shards.heap c).id ≠ j.id := by
  have hreg := registered_run hrun
  constructor
  · intro c d hc hd hid
    exact hreg.live_unique hc hd hid
  · intro t j _ habs c hc
    exact hreg.no_live_of_absent habs hc

section Runs

private def monthNote (id : String) : NostrEvent :=
  { id := id, pubkey := "", createdAt := 1700000000, kind := 1, tags := [], content := "", sig := "" }

/-- The threads of the runs below are `0` and `1`. -/
instance neZeroThreads : NeZero 2 := ⟨two_ne_zero⟩

private def twoWriters : List (Act (Fin 2)) :=
  .call 0 (.indexEvent (monthNote "a")) :: .call 1 (.indexEvent (monthNote "b")) ::
    (List.replicate 5 (.go 0 { now := 1710000000 }) ++
      List.replicate 3 (.go 1 { now := 1710000000 }))

private theorem twoWriters_isSome :
    (run (step { commitEveryDocs := 100000, commitEveryMs := 30000, maxOpenShards := 64 })
      init twoWriters).isSome := by
  decide +kernel

private def twoWritersState : Manager (Fin 2) := Option.get _ twoWriters_isSome

/-- Two threads writing to one month hold the same shard. -/
theorem one_writer_for_two_threads :
    twoWritersState.Alive 0 ∧
      ((∀ c d, twoWritersState.Alive c → twoWritersState.Alive d →
        (twoWritersState.shards.heap c).id = (twoWritersState.shards.heap d).id → c = d) ∧
      ∀ t j, twoWritersState.threads t = .findOrOpen j →
        twoWritersState.shards.map.lookup j.id = none →
        ∀ c, twoWritersState.Alive c → (twoWritersState.shards.heap c).id ≠ j.id) :=
  ⟨by unfold Alive; decide +kernel,
    one_writer_per_month _ twoWriters twoWritersState (Option.some_get twoWriters_isSome).symm⟩

end Runs

end Manager

end NostrSearch.Indexer
