import NostrSearch.Indexer.ShardHandles

/-!
# Eviction and the events a shard holds

`close_shard` commits a shard, releases its handle, and only then, under the map lock, checks
that no thread holds the shard and takes it out of the map. A document queued between the
commit and the check, by a thread that has come and gone by then, is dropped with the writer:
`eviction_loses_an_event` is such a run.

It is the only way an indexed event is lost. `ClosesClean` rules that branch out step by step,
and along it `Inv` holds: an event whose `index_event` returned `Ok` is on disk, or queued in a
shard that the map still has and whose counter is not zero, so that the next `commit_all`
cannot skip it (`acked_durable_after_commitAll`).
-/

namespace NostrSearch.Indexer

open NostrSearch.Core NostrSearch.Lib

/-- The shard is the event's, at some reading of the clock. Which reading matters only for a
timestamp the calendar does not cover. -/
def Routed (id : ShardId) (ev : NostrEvent) : Prop :=
  ∃ now, id = ShardId.fromTimestamp now ev.createdAt

namespace Shards

/-- The event is committed in its shard. -/
def Durable (s : Shards) (ev : NostrEvent) : Prop :=
  ∃ now, ev ∈ s.disk (ShardId.fromTimestamp now ev.createdAt)

/-- The event is queued, uncommitted, in an open shard of its month. -/
structure Queued (s : Shards) (c : ℕ) (ev : NostrEvent) : Prop where
  routed : Routed (s.heap c).id ev
  mem : ev ∈ (s.heap c).queued

/-- The event is on disk, or the next commit of the shard will take it there. -/
def Covered (s : Shards) (c : ℕ) (ev : NostrEvent) : Prop :=
  s.Durable ev ∨ (s.Queued c ev ∧ 0 < (s.heap c).docsSinceCommit)

/-- The event is on disk, or covered in a shard the map has. -/
def Safe (s : Shards) (ev : NostrEvent) : Prop :=
  s.Durable ev ∨
    ∃ c, s.map.lookup (s.heap c).id = some c ∧ s.Queued c ev ∧ 0 < (s.heap c).docsSinceCommit

theorem durable_of_routed {s : Shards} {id : ShardId} {ev : NostrEvent} (h : Routed id ev)
    (hmem : ev ∈ s.disk id) : s.Durable ev := by
  obtain ⟨now, rfl⟩ := h
  exact ⟨now, hmem⟩

theorem Covered.safe {s : Shards} {c : ℕ} {ev : NostrEvent} (h : s.Covered c ev)
    (hc : s.map.lookup (s.heap c).id = some c) : s.Safe ev :=
  h.imp_right fun hq => ⟨c, hc, hq⟩

theorem Queued.durable_flush {s : Shards} {c : ℕ} {ev : NostrEvent} (h : s.Queued c ev)
    (nowMs : ℕ) : (s.flush c nowMs).Durable ev := by
  refine durable_of_routed h.routed ?_
  rw [s.disk_flush_self]
  exact List.mem_append_right _ h.mem

/-- A commit that answers `Ok` leaves what it covered on disk. -/
theorem durable_of_commit {s s' : Shards} {c nowMs : ℕ} {fail : Option ShardError}
    {ev : NostrEvent} (h : s.commit c fail nowMs = (s', none)) (hq : s.Queued c ev)
    (hpos : 0 < (s.heap c).docsSinceCommit) : s'.Durable ev := by
  rcases commit_cases h with ⟨-, hzero⟩ | ⟨rfl, -, -⟩
  · have := hzero rfl
    omega
  · exact hq.durable_flush nowMs

end Shards

/-! ## What a step keeps -/

section Effects
variable {strong : ℕ → ℕ} {s s' : Shards} {pc pc' : Pc} {ev : NostrEvent}

/-- What is on disk stays there. -/
theorem Effect.durable (h : Effect strong s s' pc pc') (hd : s.Durable ev) : s'.Durable ev := by
  obtain ⟨now, hmem⟩ := hd
  refine ⟨now, ?_⟩
  cases h with
  | share hmap hnext hdisk hheap hheld => rwa [hdisk]
  | queue j c hpc hpc' hs => subst hs; exact hmem
  | count j c hpc hpc' hs => subst hs; exact hmem
  | flush c nowMs hc hpos hs hheld =>
    subst hs
    -- a commit appends to the month of its shard
    by_cases hid : ShardId.fromTimestamp now ev.createdAt = (s.heap c).id
    · rw [hid] at hmem ⊢
      rw [s.disk_flush_self]
      exact List.mem_append_left _ hmem
    · rwa [s.disk_flush_of_ne hid]
  | openShard j nowMs hpc habs hpc' hs => subst hs; exact hmem
  | remove id k c hpc hc hone hpc' hs => subst hs; exact hmem

/-- Shards keep their month. -/
theorem Effect.id_eq (h : Effect strong s s' pc pc') {c : ℕ} (hc : c < s.next) :
    (s'.heap c).id = (s.heap c).id := by
  cases h with
  | share hmap hnext hdisk hheap hheld => exact (hheap c).id
  | queue j d hpc hpc' hs =>
    subst hs
    apply Shards.id_modify
    intro sh
    rfl
  | count j d hpc hpc' hs =>
    subst hs
    apply Shards.id_modify
    intro sh
    rfl
  | flush d nowMs hd hpos hs hheld =>
    subst hs
    exact s.id_flush d nowMs c
  | openShard j nowMs hpc habs hpc' hs =>
    subst hs
    rw [s.heap_openShard_of_ne _ _ _ (Nat.ne_of_lt hc)]
  | remove id k d hpc hd hone hpc' hs => subst hs; rfl

/-- What is queued in a shard stays queued, or reaches the disk. -/
theorem Effect.queued (h : Effect strong s s' pc pc') {c : ℕ} (hc : c < s.next)
    (hq : s.Queued c ev) :
    s'.Durable ev ∨
      (s'.Queued c ev ∧ (s.heap c).docsSinceCommit ≤ (s'.heap c).docsSinceCommit) := by
  have hrouted : Routed (s'.heap c).id ev := by
    rw [h.id_eq hc]
    exact hq.routed
  cases h with
  | share hmap hnext hdisk hheap hheld =>
    refine Or.inr ⟨⟨hrouted, ?_⟩, (hheap c).docsSinceCommit.ge⟩
    rw [(hheap c).queued]
    exact hq.mem
  | queue j d hpc hpc' hs =>
    subst hs
    refine Or.inr ?_
    by_cases hcd : c = d
    · subst hcd
      refine ⟨⟨hrouted, ?_⟩, by rw [Shards.heap_modify_self]⟩
      rw [Shards.heap_modify_self]
      exact List.mem_append_left _ hq.mem
    · refine ⟨⟨hrouted, ?_⟩, by rw [Shards.heap_modify_of_ne s hcd]⟩
      rw [Shards.heap_modify_of_ne s hcd]
      exact hq.mem
  | count j d hpc hpc' hs =>
    subst hs
    refine Or.inr ?_
    by_cases hcd : c = d
    · subst hcd
      refine ⟨⟨hrouted, ?_⟩, by rw [Shards.heap_modify_self]; exact Nat.le_succ _⟩
      rw [Shards.heap_modify_self]
      exact hq.mem
    · refine ⟨⟨hrouted, ?_⟩, by rw [Shards.heap_modify_of_ne s hcd]⟩
      rw [Shards.heap_modify_of_ne s hcd]
      exact hq.mem
  | flush d nowMs hd hpos hs hheld =>
    subst hs
    by_cases hcd : c = d
    · subst hcd
      -- this is how it gets to the disk
      exact Or.inl (hq.durable_flush nowMs)
    · refine Or.inr ⟨⟨hrouted, ?_⟩, by rw [s.heap_flush_of_ne hcd]⟩
      rw [s.heap_flush_of_ne hcd]
      exact hq.mem
  | openShard j nowMs hpc habs hpc' hs =>
    subst hs
    have hheap := s.heap_openShard_of_ne j.id j.tick nowMs (Nat.ne_of_lt hc)
    exact Or.inr ⟨⟨hrouted, by rw [hheap]; exact hq.mem⟩, by rw [hheap]⟩
  | remove id k d hpc hd hone hpc' hs =>
    subst hs
    exact Or.inr ⟨⟨hrouted, hq.mem⟩, le_refl _⟩

theorem Effect.covered (h : Effect strong s s' pc pc') {c : ℕ} (hc : c < s.next)
    (hq : s.Covered c ev) : s'.Covered c ev := by
  rcases hq with hd | ⟨hq, hpos⟩
  · exact Or.inl (h.durable hd)
  · exact (h.queued hc hq).imp_right fun ⟨hq', hle⟩ => ⟨hq', lt_of_lt_of_le hpos hle⟩

/-- The map keeps its shards, except the one a `close_shard` removes. -/
theorem Effect.lookup (h : Effect strong s s' pc pc') {id : ShardId} {c : ℕ}
    (hc : s.map.lookup id = some c) :
    s'.map.lookup id = some c ∨ ∃ k, pc = .closeRemove id k ∧ strong c = 1 := by
  cases h with
  | share hmap hnext hdisk hheap hheld => exact Or.inl (by rwa [hmap])
  | queue j d hpc hpc' hs => subst hs; exact Or.inl hc
  | count j d hpc hpc' hs => subst hs; exact Or.inl hc
  | flush d nowMs hd hpos hs hheld => subst hs; exact Or.inl hc
  | openShard j nowMs hpc habs hpc' hs =>
    subst hs
    refine Or.inl (lookup_insert_some.mpr (Or.inr ⟨?_, hc⟩))
    intro heq
    rw [heq, habs] at hc
    cases hc
  | remove id' k d hpc hd hone hpc' hs =>
    subst hs
    by_cases heq : id = id'
    · subst heq
      rw [hd] at hc
      cases hc
      exact Or.inr ⟨k, hpc, hone⟩
    · exact Or.inl (lookup_erase_some.mpr ⟨heq, hc⟩)

/-- A safe event stays safe, unless a removal finds it still queued. -/
theorem Effect.safe (h : Effect strong s s' pc pc')
    (hfiled : ∀ id c, s.map.lookup id = some c → (s.heap c).id = id ∧ c < s.next)
    (hclean : ∀ id k c, pc = .closeRemove id k → s.map.lookup id = some c → strong c = 1 →
      ev ∈ (s.heap c).queued → s.Durable ev)
    (hs : s.Safe ev) : s'.Safe ev := by
  rcases hs with hd | ⟨c, hc, hq, hpos⟩
  · exact Or.inl (h.durable hd)
  · have hlt := (hfiled _ c hc).2
    rcases h.lookup hc with hc' | ⟨k, hpc, hone⟩
    · have hcov : s'.Covered c ev := h.covered hlt (Or.inr ⟨hq, hpos⟩)
      exact hcov.safe (by rwa [h.id_eq hlt])
    · exact Or.inl (h.durable (hclean _ k c hpc hc hone hq.mem))

end Effects

/-! ## Threads -/

/-- The job an eviction will resume is routed to its event's month. -/
def EvictCaller.Ok : EvictCaller → Prop
  | .api => True
  | .shardFor j => Routed j.id j.ev

def CloseCaller.Ok : CloseCaller → Prop
  | .api _ => True
  | .evict _ k => k.Ok

/-- What a thread can rely on where it is: `shard_for` computed the event's month, and once
the document is queued it is on disk or still in the shard the thread holds. -/
def PcOk (s : Shards) : Pc → Prop
  | .find j | .findOrOpen j => Routed j.id j.ev
  | .evicting _ k => k.Ok
  | .closeFind _ k | .closeCommit _ _ k | .closeDrop _ _ k | .closeRemove _ k => k.Ok
  | .add j c => (s.heap c).id = j.id ∧ Routed j.id j.ev
  | .countSince j c => s.Durable j.ev ∨ s.Queued c j.ev
  | .countTotal j c | .shouldCommit j c | .commitDoc j c => s.Covered c j.ev
  | _ => True

theorem pcOk_evict_resume {s : Shards} {k : EvictCaller} (h : k.Ok) : PcOk s k.resume := by
  cases k with
  | api => trivial
  | shardFor j => exact h

theorem pcOk_resume {s : Shards} {k : CloseCaller} (h : k.Ok) : PcOk s k.resume := by
  cases k with
  | api id => trivial
  | evict left k => exact h

/-- Another thread's step leaves a thread what it relies on. -/
theorem Effect.pcOk {strong : ℕ → ℕ} {s s' : Shards} {pc pc' other : Pc}
    (h : Effect strong s s' pc pc') (hlt : ∀ c ∈ other.handles, c < s.next)
    (hother : PcOk s other) : PcOk s' other := by
  cases other with
  | add j c =>
    refine ⟨?_, hother.2⟩
    rw [h.id_eq (hlt c (Multiset.mem_singleton_self c))]
    exact hother.1
  | countSince j c =>
    rcases hother with hd | hq
    · exact Or.inl (h.durable hd)
    · exact (h.queued (hlt c (Multiset.mem_singleton_self c)) hq).imp_right And.left
  | countTotal j c => exact h.covered (hlt c (Multiset.mem_singleton_self c)) hother
  | shouldCommit j c => exact h.covered (hlt c (Multiset.mem_singleton_self c)) hother
  | commitDoc j c => exact h.covered (hlt c (Multiset.mem_singleton_self c)) hother
  | _ => exact hother

/-- A thread's own step takes it to a place where it can rely on what is said there. -/
theorem stepThread_pcOk {cfg : ShardWriterConfig} {strong : ℕ → ℕ} {s s' : Shards}
    {o : Oracle} {pc pc' : Pc} (h : stepThread cfg strong s o pc = some (s', pc'))
    (hlt : ∀ c ∈ pc.handles, c < s.next)
    (hfiled : ∀ id c, s.map.lookup id = some c → (s.heap c).id = id ∧ c < s.next)
    (hpc : PcOk s pc) : PcOk s' pc' := by
  have heff := stepThread_effect h
  cases pc with
  | idle => cases h
  | returned c r => cases h
  | called c =>
    cases c with
    | indexEvent ev =>
      simp only [stepThread] at h
      split at h <;> cases h <;> trivial
    | tick => cases h; trivial
    | commitAll => cases h; trivial
    | closeShard id => cases h; trivial
    | evictIfNeeded => cases h; trivial
  | route ev ret =>
    cases h
    -- `shard_for` reads the clock again, so the month may be another one
    exact ⟨o.now, rfl⟩
  | find j =>
    simp only [stepThread] at h
    split at h
    case h_1 c hc =>
      cases h
      refine ⟨?_, hpc⟩
      rw [heff.id_eq (hfiled _ c hc).2]
      exact (hfiled _ c hc).1
    case h_2 =>
      cases h
      exact hpc
  | evicting left k =>
    cases left with
    | zero =>
      cases h
      exact pcOk_evict_resume hpc
    | succ left =>
      simp only [stepThread] at h
      split at h
      case isTrue =>
        cases h
        exact pcOk_evict_resume hpc
      case isFalse =>
        split at h <;> split at h <;> cases h
        · exact hpc
        · exact pcOk_evict_resume hpc
  | closeFind id k =>
    simp only [stepThread] at h
    split at h <;> cases h
    · exact hpc
    · exact pcOk_resume hpc
  | closeCommit id c k =>
    simp only [stepThread] at h
    split at h <;> cases h
    · exact hpc
    · trivial
  | closeDrop id c k =>
    cases h
    exact hpc
  | closeRemove id k =>
    simp only [stepThread] at h
    split at h
    case h_1 =>
      split at h <;> cases h <;> exact pcOk_resume hpc
    case h_2 =>
      cases h
      exact pcOk_resume hpc
  | findOrOpen j =>
    simp only [stepThread] at h
    split at h
    case h_1 c hc =>
      cases h
      refine ⟨?_, hpc⟩
      rw [heff.id_eq (hfiled _ c hc).2]
      exact (hfiled _ c hc).1
    case h_2 =>
      split at h <;> cases h
      · trivial
      · refine ⟨?_, hpc⟩
        rw [s.heap_openShard_self]
  | add j c =>
    simp only [stepThread] at h
    split at h <;> cases h
    · trivial
    · -- the document has just been queued
      refine Or.inr ⟨?_, ?_⟩
      · rw [heff.id_eq (hlt c (Multiset.mem_singleton_self c)), hpc.1]
        exact hpc.2
      · rw [Shards.heap_modify_self]
        exact List.mem_append_right _ (List.mem_singleton_self _)
  | countSince j c =>
    cases h
    rcases hpc with hd | hq
    · exact Or.inl (heff.durable hd)
    · refine (heff.queued (hlt c (Multiset.mem_singleton_self c)) hq).imp_right fun hq' => ?_
      refine ⟨hq'.1, ?_⟩
      -- the counter has just gone up
      rw [Shards.heap_modify_self]
      exact Nat.succ_pos _
  | countTotal j c =>
    cases h
    exact heff.covered (hlt c (Multiset.mem_singleton_self c)) hpc
  | shouldCommit j c =>
    simp only [stepThread] at h
    split at h <;> cases h
    · exact hpc
    · trivial
  | commitDoc j c =>
    simp only [stepThread] at h
    split at h <;> cases h <;> trivial
  | ticking todo =>
    simp only [stepThread] at h
    repeat' split at h
    all_goals cases h
    all_goals trivial
  | tickCommit c todo =>
    simp only [stepThread] at h
    split at h <;> cases h <;> trivial
  | committing snap todo errs =>
    simp only [stepThread] at h
    repeat' split at h
    all_goals cases h
    all_goals trivial

private theorem acked_evict_resume (k : EvictCaller) : k.resume.ackedEvent = none := by
  cases k <;> rfl

private theorem acked_resume (k : CloseCaller) : k.resume.ackedEvent = none := by
  cases k <;> rfl

private theorem acked_err (c : Call) (e : ShardError) :
    (Pc.returned c (.err e)).ackedEvent = none := by
  cases c <;> rfl

/-- An event is acknowledged by a thread that holds the shard covering it. -/
theorem stepThread_acked {cfg : ShardWriterConfig} {strong : ℕ → ℕ} {s s' : Shards}
    {o : Oracle} {pc pc' : Pc} {ev : NostrEvent}
    (h : stepThread cfg strong s o pc = some (s', pc')) (hpc : PcOk s pc)
    (hack : pc'.ackedEvent = some ev) :
    (∀ id k, pc ≠ .closeRemove id k) ∧ ∃ c ∈ pc.handles, s.Covered c ev := by
  cases pc with
  | idle => cases h
  | returned c r => cases h
  | called c =>
    cases c with
    | indexEvent ev' =>
      simp only [stepThread] at h
      split at h <;> cases h <;> cases hack
    | _ => cases h; cases hack
  | route ev' ret => cases h; cases hack
  | find j =>
    simp only [stepThread] at h
    split at h <;> cases h <;> cases hack
  | evicting left k =>
    cases left with
    | zero =>
      cases h
      rw [acked_evict_resume] at hack
      cases hack
    | succ left =>
      simp only [stepThread] at h
      split at h
      case isTrue =>
        cases h
        rw [acked_evict_resume] at hack
        cases hack
      case isFalse =>
        split at h <;> split at h <;> cases h
        · cases hack
        · rw [acked_evict_resume] at hack
          cases hack
  | closeFind id k =>
    simp only [stepThread] at h
    split at h <;> cases h
    · cases hack
    · rw [acked_resume] at hack
      cases hack
  | closeCommit id c k =>
    simp only [stepThread] at h
    split at h <;> cases h
    · cases hack
    · rw [acked_err] at hack
      cases hack
  | closeDrop id c k => cases h; cases hack
  | closeRemove id k =>
    simp only [stepThread] at h
    split at h
    case h_1 =>
      split at h <;> cases h <;> rw [acked_resume] at hack <;> cases hack
    case h_2 =>
      cases h
      rw [acked_resume] at hack
      cases hack
  | findOrOpen j =>
    simp only [stepThread] at h
    split at h
    case h_1 => cases h; cases hack
    case h_2 => split at h <;> cases h <;> cases hack
  | add j c =>
    simp only [stepThread] at h
    split at h <;> cases h <;> cases hack
  | countSince j c => cases h; cases hack
  | countTotal j c => cases h; cases hack
  | shouldCommit j c =>
    simp only [stepThread] at h
    split at h <;> cases h <;> cases hack
    -- `Ok` without a commit: the event is queued and counted
    exact ⟨by rintro id k ⟨⟩, c, Multiset.mem_singleton_self c, hpc⟩
  | commitDoc j c =>
    simp only [stepThread] at h
    split at h <;> cases h <;> cases hack
    -- `Ok` after a commit
    exact ⟨by rintro id k ⟨⟩, c, Multiset.mem_singleton_self c, hpc⟩
  | ticking todo =>
    simp only [stepThread] at h
    repeat' split at h
    all_goals cases h
    all_goals cases hack
  | tickCommit c todo =>
    simp only [stepThread] at h
    split at h <;> cases h <;> cases hack
  | committing snap todo errs =>
    simp only [stepThread] at h
    repeat' split at h
    all_goals cases h
    all_goals cases hack

namespace Manager

variable {T : Type} [DecidableEq T] [Fintype T]

/-- The condition under which eviction loses nothing: whenever `close_shard` finds that only
the map holds the shard, and takes it out, every acknowledged event still queued in it is on
disk already. -/
def ClosesClean (s : Manager T) : Act T → Prop
  | .call _ _ => True
  | .go t _ =>
    match s.threads t with
    | .closeRemove id _ =>
      ∀ c, s.shards.map.lookup id = some c → s.strongCount c = 1 →
        ∀ ev ∈ (s.shards.heap c).queued, ev ∈ s.acked → s.shards.Durable ev
    | _ => True

/-- What holds in every state reached by steps that close clean. -/
structure Inv (s : Manager T) : Prop where
  registered : s.cells.Registered
  threads : ∀ t, PcOk s.shards (s.threads t)
  acked : ∀ ev ∈ s.acked, s.shards.Safe ev

omit [DecidableEq T] [Fintype T] in
theorem inv_init : (init : Manager T).Inv :=
  ⟨registered_init, fun _ => trivial, fun _ h => absurd h List.not_mem_nil⟩

omit [DecidableEq T] in
theorem ClosesClean.removed {s : Manager T} {t : T} {o : Oracle} (h : s.ClosesClean (.go t o))
    {ev : NostrEvent} (hack : ev ∈ s.acked) (id : ShardId) (k : CloseCaller) (c : ℕ)
    (hpc : s.threads t = .closeRemove id k) (hc : s.shards.map.lookup id = some c)
    (hone : s.strongCount c = 1) (hev : ev ∈ (s.shards.heap c).queued) :
    s.shards.Durable ev := by
  simp only [ClosesClean, hpc] at h
  exact h c hc hone ev hev hack

theorem inv_step {cfg : ShardWriterConfig} {s s' : Manager T} {a : Act T} (hs : s.Inv)
    (hok : s.ClosesClean a) (h : step cfg s a = some s') : s'.Inv := by
  refine ⟨registered_step hs.registered h, ?_, ?_⟩
  · rcases step_cases h with ⟨t, c, -, -, rfl⟩ | ⟨t, o, sh, pc, -, hstep, rfl⟩
    · intro u
      by_cases hu : u = t
      · subst hu
        simp only [Function.update_self]
        trivial
      · simp only [Function.update_of_ne hu]
        exact hs.threads u
    · intro u
      by_cases hu : u = t
      · subst hu
        simp only [Function.update_self]
        exact stepThread_pcOk hstep (fun c => hs.registered.held_lt) hs.registered.filed
          (hs.threads u)
      · simp only [Function.update_of_ne hu]
        exact (stepThread_effect hstep).pcOk (fun c => hs.registered.held_lt) (hs.threads u)
  · rcases step_cases h with ⟨t, c, -, -, rfl⟩ | ⟨t, o, sh, pc, rfl, hstep, rfl⟩
    · exact hs.acked
    · intro ev hev
      have heff := stepThread_effect hstep
      rcases List.mem_append.mp hev with hnew | hold
      · -- acknowledged by this step, which is not a removal
        rw [Option.mem_toList] at hnew
        obtain ⟨hpc, c, hc, hcov⟩ := stepThread_acked hstep (hs.threads t) hnew
        exact heff.safe hs.registered.filed (fun id k _ heq => absurd heq (hpc id k))
          (hcov.safe (hs.registered.held t c hc))
      · exact heff.safe hs.registered.filed (hok.removed hold) (hs.acked ev hold)

/-! ## The final `commit_all` -/

/-- Where an event acknowledged before a `commit_all` stands while a thread runs that call. -/
def Due (ev : NostrEvent) (s : Shards) (acked : List NostrEvent) : Pc → Prop
  | .called .commitAll => ev ∈ acked
  | .committing _ todo errs =>
    errs = [] → s.Durable ev ∨
      ∃ c ∈ todo, s.Queued c ev ∧ 0 < (s.heap c).docsSinceCommit
  | .returned .commitAll .unit => s.Durable ev
  | .returned .commitAll _ => True
  | _ => False

omit [DecidableEq T] [Fintype T] in
/-- Another thread's step does not get in the way. -/
theorem due_other {strong : ℕ → ℕ} {s s' : Shards} {acked acked' : List NostrEvent}
    {pc pc' other : Pc} {ev : NostrEvent} (h : Effect strong s s' pc pc')
    (hlt : ∀ c ∈ other.handles, c < s.next) (hacked : ∀ e ∈ acked, e ∈ acked')
    (hd : Due ev s acked other) : Due ev s' acked' other := by
  unfold Due at hd ⊢
  split at hd
  · exact hacked ev hd
  · intro herrs
    rcases hd herrs with hd | ⟨c, hc, hq, hpos⟩
    · exact Or.inl (h.durable hd)
    · have hlt' : c < s.next := hlt c (Multiset.mem_add.mpr (Or.inr hc))
      exact (h.queued hlt' hq).imp_right fun ⟨hq', hle⟩ =>
        ⟨c, hc, hq', lt_of_lt_of_le hpos hle⟩
  · exact h.durable hd
  · trivial
  · exact hd

omit [DecidableEq T] [Fintype T] in
/-- Each step of the call commits one shard of its snapshot, or fails it. -/
theorem due_self {cfg : ShardWriterConfig} {strong : ℕ → ℕ} {s s' : Shards} {o : Oracle}
    {pc pc' : Pc} {acked acked' : List NostrEvent} {ev : NostrEvent}
    (h : stepThread cfg strong s o pc = some (s', pc'))
    (hlt : ∀ c ∈ pc.handles, c < s.next) (hsafe : ∀ e ∈ acked, s.Safe e)
    (hd : Due ev s acked pc) : Due ev s' acked' pc' := by
  have heff := stepThread_effect h
  unfold Due at hd
  split at hd
  case h_1 =>
    cases h
    intro _
    -- the snapshot has the shard of every event acknowledged so far
    refine (hsafe ev hd).imp_right ?_
    rintro ⟨c, hc, hq⟩
    exact ⟨c, mem_mapValues.mpr ⟨_, hc⟩, hq⟩
  case h_2 snap todo errs =>
    simp only [stepThread] at h
    split at h
    case isTrue hnil =>
      split at h
      case h_1 =>
        cases h
        -- no commit failed, and none is left to do
        refine (hd rfl).resolve_right ?_
        rintro ⟨c, hc, -⟩
        rw [hnil] at hc
        exact Multiset.notMem_zero c hc
      case h_2 =>
        split at h <;> cases h
        trivial
      case h_3 => cases h
    case isFalse =>
      split at h
      case isFalse => cases h
      case isTrue hmem =>
        cases h
        intro herrs
        rw [List.append_eq_nil_iff] at herrs
        rcases hd herrs.2 with hd | ⟨c, hc, hq, hpos⟩
        · exact Or.inl (heff.durable hd)
        · by_cases hcw : c = o.worker
          · -- the shard that holds it is the one committed by this step
            subst hcw
            have hok : (s.commit o.worker o.fail o.now).2 = none :=
              Option.toList_eq_nil_iff.mp herrs.1
            exact Or.inl (Shards.durable_of_commit (Prod.ext rfl hok) hq hpos)
          · have hclt : c < s.next := hlt c (Multiset.mem_add.mpr (Or.inr hc))
            refine (heff.queued hclt hq).imp_right ?_
            rintro ⟨hq', hle⟩
            exact ⟨c, (Multiset.mem_erase_of_ne hcw).mpr hc, hq', lt_of_lt_of_le hpos hle⟩
  case h_3 => cases h
  case h_4 => cases h
  case h_5 => exact hd.elim

theorem due_step {cfg : ShardWriterConfig} {s s' : Manager T} {a : Act T} {t : T}
    {ev : NostrEvent} (hs : s.Inv) (hd : Due ev s.shards s.acked (s.threads t))
    (hne : ∀ c, a ≠ .call t c) (h : step cfg s a = some s') :
    Due ev s'.shards s'.acked (s'.threads t) := by
  rcases step_cases h with ⟨u, c, rfl, -, rfl⟩ | ⟨u, o, sh, pc, rfl, hstep, rfl⟩
  · have hu : t ≠ u := fun heq => hne c (by rw [heq])
    simp only [Function.update_of_ne hu]
    exact hd
  · by_cases hu : t = u
    · subst hu
      simp only [Function.update_self]
      exact due_self hstep (fun c => hs.registered.held_lt) hs.acked hd
    · simp only [Function.update_of_ne hu]
      exact due_other (stepThread_effect hstep) (fun c => hs.registered.held_lt)
        (fun e he => List.mem_append_right _ he) hd

/-- The invariant while thread `t` runs a `commit_all` it called after `ev` was acknowledged. -/
structure InvDue (t : T) (ev : NostrEvent) (s : Manager T) : Prop where
  inv : s.Inv
  due : Due ev s.shards s.acked (s.threads t)

theorem InvDue.step {cfg : ShardWriterConfig} {s s' : Manager T} {a : Act T} {t : T}
    {ev : NostrEvent} (hs : s.InvDue t ev) (hok : s.ClosesClean a) (hne : ∀ c, a ≠ .call t c)
    (h : step cfg s a = some s') : s'.InvDue t ev :=
  ⟨inv_step hs.inv hok h, due_step hs.inv hs.due hne h⟩

/-- **Nothing is lost when every close is clean.** Any threads make any calls, in any order;
then thread `t` calls `commit_all`, which may run among further calls of the others and
returns `Ok`. Every event acknowledged before that call is then committed in its shard. -/
theorem acked_durable_after_commitAll (cfg : ShardWriterConfig) (as bs : List (Act T)) (t : T)
    (s u : Manager T) (hrun : run (step cfg) init as = some s)
    (hfinal : run (step cfg) s (.call t .commitAll :: bs) = some u)
    (hbs : ∀ c, .call t c ∉ bs) (hret : u.threads t = .returned .commitAll .unit)
    (hclean : Along (step cfg) ClosesClean init (as ++ .call t .commitAll :: bs)) :
    ∀ ev ∈ s.acked, u.shards.Durable ev := by
  intro ev hev
  obtain ⟨hclean₁, hclean₂⟩ := along_append hclean
  have hs : s.Inv := run_invariant (fun _ _ _ => inv_step) inv_init hclean₁ hrun
  obtain ⟨s₁, hcall, hrest⟩ := run_cons_some.mp hfinal
  obtain ⟨hok, hclean₃⟩ := hclean₂ s hrun s₁ hcall
  have hs₁ : s₁.Inv := inv_step hs hok hcall
  have hd₁ : Due ev s₁.shards s₁.acked (s₁.threads t) := by
    simp only [step] at hcall
    split at hcall
    case isTrue =>
      cases hcall
      simp only [Function.update_self]
      exact hev
    case isFalse => cases hcall
  have hne : ∀ a ∈ bs, ∀ c, a ≠ .call t c := fun a ha c heq => hbs c (heq ▸ ha)
  have hu : u.InvDue t ev := run_invariant (fun _ _ _ hv hok => hv.step hok.1 hok.2)
    ⟨hs₁, hd₁⟩ (hclean₃.and_mem hne) hrest
  have hdue := hu.due
  rwa [hret] at hdue

/-- Nothing is queued in the shard a `close_shard` is about to take out. -/
def closesEmpty (s : Manager T) : Act T → Bool
  | .call _ _ => true
  | .go t _ =>
    match s.threads t with
    | .closeRemove id _ => (s.shards.map.lookup id).all fun c => (s.shards.heap c).queued.isEmpty
    | _ => true

omit [DecidableEq T] in
theorem closesClean_of_closesEmpty {s : Manager T} {a : Act T}
    (h : s.closesEmpty a = true) : s.ClosesClean a := by
  cases a with
  | call t c => trivial
  | go t o =>
    simp only [closesEmpty] at h
    simp only [ClosesClean]
    split at h
    case h_1 =>
      intro c hc _ ev hev
      rw [hc, Option.all_some, List.isEmpty_iff] at h
      rw [h] at hev
      exact absurd hev List.not_mem_nil
    case h_2 => trivial

section Runs

private def note (id : String) (createdAt : ℕ) : NostrEvent :=
  { id := id, pubkey := "", createdAt := createdAt, kind := 1, tags := [], content := "", sig := "" }

private def oneOpenShard : ShardWriterConfig :=
  { commitEveryDocs := 100000, commitEveryMs := 30000, maxOpenShards := 1 }

private def goes (t : Fin 2) (n : ℕ) : List (Act (Fin 2)) :=
  List.replicate n (.go t { now := 1710000000 })

/-- Thread 0 indexes a note of 2023-11, then one of 2024-03, for which it closes 2023-11. In
the gap between its commit and its check stands what thread 1 does. -/
private def evictRun (gap : List (Act (Fin 2))) : List (Act (Fin 2)) :=
  .call 0 (.indexEvent (note "a" 1700000000)) :: goes 0 9 ++
  .call 0 (.indexEvent (note "c" 1710000000)) :: goes 0 3 ++
  .go 0 { victim := some { year := 2023, month := 11 } } :: goes 0 3 ++ gap ++ goes 0 7

/-- The steps of a `commit_all` of thread 0 that finds one shard open, number 1. -/
private def commitSteps : List (Act (Fin 2)) :=
  goes 0 1 ++ [.go 0 { worker := 1 }] ++ goes 0 1

private theorem not_call_mem_commitSteps (c : Call) : .call 0 c ∉ commitSteps := by
  simp [commitSteps, goes]

private theorem evictRun_isSome : (run (step oneOpenShard) init (evictRun [])).isSome := by
  decide +kernel

private def evicted : Manager (Fin 2) :=
  (run (step oneOpenShard) init (evictRun [])).get evictRun_isSome

private theorem evictCommit_isSome :
    (run (step oneOpenShard) evicted (.call 0 .commitAll :: commitSteps)).isSome := by
  decide +kernel

private def evictedCommitted : Manager (Fin 2) :=
  (run (step oneOpenShard) evicted (.call 0 .commitAll :: commitSteps)).get evictCommit_isSome

/-- The rule at work: 2023-11 is evicted with nobody in the gap, and its note is on disk. -/
theorem evicted_note_durable :
    (note "a" 1700000000) ∈ evicted.acked ∧
      evictedCommitted.shards.Durable (note "a" 1700000000) := by
  have hacked : note "a" 1700000000 ∈ evicted.acked := by decide +kernel
  exact ⟨hacked, acked_durable_after_commitAll oneOpenShard (evictRun []) commitSteps 0 evicted
    evictedCommitted (Option.some_get _).symm (Option.some_get _).symm not_call_mem_commitSteps rfl
    (along_of_alongB (fun _ _ => closesClean_of_closesEmpty) (by decide +kernel)) _ hacked⟩

/-- Thread 1 indexes a second note of 2023-11. -/
private def raceRun : List (Act (Fin 2)) :=
  evictRun (.call 1 (.indexEvent (note "b" 1700000100)) :: goes 1 7)

private theorem raceRun_isSome : (run (step oneOpenShard) init raceRun).isSome := by
  decide +kernel

private def raced : Manager (Fin 2) := (run (step oneOpenShard) init raceRun).get raceRun_isSome

private theorem raceCommit_isSome :
    (run (step oneOpenShard) raced (.call 0 .commitAll :: commitSteps)).isSome := by
  decide +kernel

/-- Eviction can lose an acknowledged event: the calls have all returned, a final `commit_all`
has returned `Ok`, and the event is in no shard on disk. -/
theorem eviction_loses_an_event :
    ¬ ∀ (as bs : List (Act (Fin 2))) (t : Fin 2) (s u : Manager (Fin 2)),
      run (step oneOpenShard) init as = some s → (∀ t, (s.threads t).resting) →
      run (step oneOpenShard) s (.call t .commitAll :: bs) = some u → (∀ c, .call t c ∉ bs) →
      u.threads t = .returned .commitAll .unit → ∀ ev ∈ s.acked, u.shards.Durable ev := by
  intro h
  obtain ⟨now, hnow⟩ := h raceRun commitSteps 0 raced _ (Option.some_get _).symm
    (by decide +kernel) (Option.some_get raceCommit_isSome).symm not_call_mem_commitSteps rfl
    (note "b" 1700000100) (by decide +kernel)
  have hid : ShardId.ofTimestampOpt (asI64 (note "b" 1700000100).createdAt) =
      some { year := 2023, month := 11 } := by decide
  rw [ShardId.fromTimestamp_eq_of_some hid] at hnow
  revert hnow
  decide +kernel

end Runs

end Manager

end NostrSearch.Indexer
