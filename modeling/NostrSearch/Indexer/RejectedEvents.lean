import NostrSearch.Indexer.CallLedger

/-!
# Rejected events

Who gets an error from `index_event` retries it. A call can fail before its document is queued, or
when it commits the shard because of that document. In the second case the document stays queued,
and whatever commits the shard next commits it: that is the only way a rejected event comes to be
indexed (`rejected_iff`).
-/

namespace NostrSearch.Indexer

open NostrSearch.Core NostrSearch.Lib

namespace Manager

variable {T : Type} [DecidableEq T] [Fintype T]

/-- A manager with no shard open over the index `disk`, and its threads idle. -/
def fresh (disk : ShardId → List NostrEvent) : Manager T :=
  { init with shards := { (init : Manager T).shards with disk := disk } }

/-- The commit that an `index_event` makes for its document fails. -/
def OwnCommitFails (s : Manager T) : Act T → Prop
  | .go t o => CommitFails s.shards o (s.threads t)
  | .call _ _ => False

/-- The manager's steps, with the ledger. -/
abbrev noted (cfg : ShardWriterConfig) :
    Ledger T × Manager T → Act T → Option (Ledger T × Manager T) :=
  withHistory (step cfg) Ledger.note

end Manager

namespace Ledger

open Manager

variable {T : Type} [DecidableEq T] [Fintype T] {cfg : ShardWriterConfig}

/-- The ledger is about this manager. -/
structure Sound (u : Ledger T × Manager T) : Prop where
  registered : u.2.cells.Registered
  queues : Queues u.1.docs u.2.shards.heap
  calls : u.1.Calls (Pc.phase ∘ u.2.threads)

omit [DecidableEq T] [Fintype T] in
theorem sound_start (disk : ShardId → List NostrEvent) :
    Sound ((start, fresh disk) : Ledger T × Manager T) := by
  refine ⟨registered_init, fun _ => rfl, List.nodup_nil, ?_, ?_, fun _ => trivial, ?_⟩
  · exact fun k hk => absurd hk List.not_mem_nil
  · exact fun k hk => absurd hk List.not_mem_nil
  · exact fun _ _ _ hp => absurd rfl hp

omit [Fintype T] in
theorem note_go (l : Ledger T) (s s' : Manager T) (t : T) (o : Oracle) :
    l.note s (.go t o) s' = l.move t (s.threads t) (s'.threads t) s'.shards.heap := rfl

theorem Sound.step {u v : Ledger T × Manager T} {a : Act T} (h : Sound u)
    (hstep : noted cfg u a = some v) : Sound v := by
  obtain ⟨l, s⟩ := u
  obtain ⟨l', s'⟩ := v
  obtain ⟨hs, hl⟩ := withHistory_some.mp hstep
  dsimp only at hs hl
  subst hl
  have hreg := registered_step h.registered hs
  obtain ⟨t, c, rfl, hrest, rfl⟩ | ⟨t, o, sh, pc, rfl, hthread, rfl⟩ := step_cases hs
  · have hout : (s.threads t).phase = .outside := Pc.phase_of_resting hrest
    cases c with
    | indexEvent ev =>
      refine ⟨hreg, h.queues, ?_⟩
      rw [Function.comp_update]
      exact h.calls.begin t
    | tick | commitAll | closeShard id | evictIfNeeded =>
      refine ⟨hreg, h.queues, ?_⟩
      rw [Function.comp_update]
      have hsame := Function.update_eq_self t (Pc.phase ∘ s.threads)
      rw [Function.comp_apply, hout] at hsame
      exact hsame.symm ▸ h.calls
  · have hmove := stepThread_callMove hthread
    refine ⟨hreg, ?_, ?_⟩
    · simp only [note_go, move, Function.update_self]
      rcases stepThread_queues hthread with ⟨j, c, hpc, rfl, rfl⟩ | ⟨-, hdocs, hheap⟩
      · rw [hpc]
        have hqueues := h.queues.add (l.current t) c j.ev
        exact hqueues.map_settle fun _ => Or.inl rfl
      · rw [hdocs]
        exact h.queues.map_settle hheap
    · rw [Function.comp_update]
      simp only [note_go, Function.update_self]
      exact h.calls.move rfl hmove sh.heap

/-- A call that failed without a document. -/
def Spotless (l : Ledger T) (k : ℕ) : Prop := k ∈ l.rejected ∧ k ∉ l.docs.map Doc.call

/-- It gets none later. -/
theorem Spotless.step {u v : Ledger T × Manager T} {a : Act T} {k : ℕ} (h : u.1.Spotless k)
    (hu : Sound u) (hstep : noted cfg u a = some v) : v.1.Spotless k := by
  obtain ⟨l, s⟩ := u
  obtain ⟨l', s'⟩ := v
  obtain ⟨-, hl⟩ := withHistory_some.mp hstep
  dsimp only at hl
  subst hl
  cases a with
  | call t c => cases c <;> exact h
  | go t o =>
    refine ⟨mem_rejected_move.mpr (Or.inr h.1), fun hk => ?_⟩
    rcases mem_docs_move hk with hold | ⟨rfl, hbefore, -⟩
    · exact h.2 hold
    · have hcall := hu.calls.inCall t
      rw [Function.comp_apply, hbefore] at hcall
      exact hcall.2.1 h.1

/-- No call that failed has a document. -/
def Clean (l : Ledger T) : Prop := ∀ k ∈ l.rejected, l.Spotless k

theorem Clean.step {u v : Ledger T × Manager T} {a : Act T} (h : u.1.Clean) (hu : Sound u)
    (hok : ¬ u.2.OwnCommitFails a) (hstep : noted cfg u a = some v) : v.1.Clean := by
  intro k hk
  by_cases hold : k ∈ u.1.rejected
  · exact (h k hold).step hu hstep
  obtain ⟨l, s⟩ := u
  obtain ⟨l', s'⟩ := v
  obtain ⟨hs, hl⟩ := withHistory_some.mp hstep
  dsimp only at hs hl
  subst hl
  obtain ⟨t, c, rfl, -, rfl⟩ | ⟨t, o, sh, pc, rfl, hthread, rfl⟩ := step_cases hs
  · cases c <;> exact absurd hk hold
  · rw [note_go] at hk ⊢
    simp only [Function.update_self] at hk ⊢
    obtain ⟨rfl, hrej⟩ := (mem_rejected_move.mp hk).resolve_right hold
    -- the error came before the document was queued
    have hbefore := ((stepThread_callMove hthread).rejected hrej).resolve_right hok
    have hcall := hu.calls.inCall t
    rw [Function.comp_apply, hbefore] at hcall
    refine ⟨hk, fun hdoc => ?_⟩
    rcases mem_docs_move hdoc with hdoc | ⟨-, -, c, hbehind⟩
    · exact hcall.2.2 hdoc
    · rw [Pc.phase_of_isRejected hrej] at hbehind
      cases hbehind

/-- **Never indexed.** A call that has returned an error has no committed document, now or in any
run from here. -/
def NeverIndexed (cfg : ShardWriterConfig) (u : Ledger T × Manager T) : Prop :=
  ∀ as v, run (noted cfg) u as = some v →
    ∀ d ∈ v.1.docs, d.call ∈ u.1.rejected → d.committed = false

/-- **Indexed once.** Calls of which all but one returned an error, as an event's first and its
retries do, have one committed document at most. -/
def IndexedOnce (l : Ledger T) : Prop :=
  ∀ ks : List ℕ, (∀ i ∈ ks, ∀ k ∈ ks, i ∉ l.rejected → k ∉ l.rejected → i = k) →
    (l.docs.filter fun d => d.committed ∧ d.call ∈ ks).length ≤ 1

theorem Clean.neverIndexed {u : Ledger T × Manager T} (h : u.1.Clean) (hu : Sound u) :
    NeverIndexed cfg u := by
  intro as v hrun d hd hk
  have hkeep : ∀ (w : Ledger T × Manager T) (a : Act T) w', Sound w ∧ w.1.Spotless d.call →
      noted cfg w a = some w' → Sound w' ∧ w'.1.Spotless d.call :=
    fun w a w' hw hstep => ⟨hw.1.step hstep, hw.2.step hw.1 hstep⟩
  obtain ⟨-, -, hnone⟩ := run_invariant' hkeep ⟨hu, h _ hk⟩ hrun
  exact absurd (List.mem_map_of_mem hd) hnone

omit [DecidableEq T] [Fintype T] in
/-- Documents of one call are one document. -/
theorem Calls.length_le_one {l : Ledger T} {p : T → CallPhase} (h : l.Calls p) {docs : List Doc}
    (hsub : docs.Sublist l.docs) (hone : ∀ d ∈ docs, ∀ e ∈ docs, d.call = e.call) :
    docs.length ≤ 1 := by
  have hnodup := h.nodup.sublist (hsub.map Doc.call)
  match docs with
  | [] => exact Nat.zero_le 1
  | [d] => exact le_rfl
  | d :: e :: ds =>
    have hsame := hone d List.mem_cons_self e (List.mem_cons_of_mem d List.mem_cons_self)
    simp [hsame] at hnodup

omit [DecidableEq T] [Fintype T] in
theorem Clean.indexedOnce {u : Ledger T × Manager T} (h : u.1.Clean) (hu : Sound u) :
    IndexedOnce u.1 := by
  intro ks hks
  refine hu.calls.length_le_one List.filter_sublist fun d hd e he => ?_
  simp only [List.mem_filter, decide_eq_true_iff] at hd he
  refine hks d.call hd.2.2 e.call he.2.2 (fun hr => ?_) fun hr => ?_
  · exact (h _ hr).2 (List.mem_map_of_mem hd.1)
  · exact (h _ hr).2 (List.mem_map_of_mem he.1)

end Ledger

namespace Ledger

open Manager

variable {T : Type} [DecidableEq T] [Fintype T] {cfg : ShardWriterConfig}

theorem Stored.step {disk : ShardId → List NostrEvent} {u v : Ledger T × Manager T} {a : Act T}
    (h : Stored disk u.1.docs u.2.shards) (hu : Sound u) (hstep : noted cfg u a = some v) :
    Stored disk v.1.docs v.2.shards := by
  obtain ⟨l, s⟩ := u
  obtain ⟨l', s'⟩ := v
  obtain ⟨hs, hl⟩ := withHistory_some.mp hstep
  dsimp only at hs hl h
  subst hl
  obtain ⟨t, c, rfl, -, rfl⟩ | ⟨t, o, sh, pc, rfl, hthread, rfl⟩ := step_cases hs
  · cases c <;> exact h
  simp only [note_go, move, Function.update_self]
  rcases stepThread_queues hthread with ⟨j, c, hpc, rfl, rfl⟩ | ⟨-, hdocs, -⟩
  · have hc : c < s.shards.next := by
      refine hu.registered.held_lt (t := t) ?_
      change c ∈ (s.threads t).handles
      rw [hpc]
      exact Multiset.mem_singleton_self c
    rw [hpc]
    have hqueues := hu.queues.add (l.current t) c j.ev
    simp only [withQueued]
    rw [hqueues.map_settle_eq]
    refine (h.add hc (l.current t) j.ev).same le_rfl rfl fun d _ => ?_
    apply Shards.id_modify
    intro sh
    rfl
  · rw [hdocs]
    cases stepThread_effect hthread with
    | share hmap hnext hdisk hheap hheld =>
      have hqueues : Queues l.docs sh.heap := fun c => (hu.queues c).trans (hheap c).queued.symm
      rw [hqueues.map_settle_eq]
      exact h.same hnext.ge hdisk fun c _ => (hheap c).id
    | queue j c hpc hpc' hs =>
      have hnone := hdocs 0 []
      rw [hpc, hpc'] at hnone
      cases hnone
    | count j c hpc hpc' hs =>
      subst hs
      have hqueues : Queues l.docs (s.shards.modify c fun sh =>
          { sh with docsSinceCommit := sh.docsSinceCommit + 1 }).heap := by
        intro d
        rw [hu.queues d]
        symm
        apply Shards.queued_modify
        intro sh
        rfl
      rw [hqueues.map_settle_eq]
      refine h.same le_rfl rfl fun d _ => ?_
      apply Shards.id_modify
      intro sh
      rfl
    | flush c nowMs hc hpos hs hheld =>
      subst hs
      exact h.flush hu.queues c nowMs
    | openShard j nowMs hpc habs hpc' hs =>
      subst hs
      have hother : ∀ c, c ≠ s.shards.next →
          (s.shards.openShard j.id j.tick nowMs).heap c = s.shards.heap c :=
        fun c hc => s.shards.heap_openShard_of_ne j.id j.tick nowMs hc
      have hsame : l.docs.map (Doc.settle (s.shards.openShard j.id j.tick nowMs).heap) =
          l.docs := by
        conv_rhs => rw [← hu.queues.map_settle_eq]
        refine List.map_congr_left fun d hd => ?_
        rw [Doc.settle, Doc.settle, hother d.cell (h.cell_lt d hd).ne]
      rw [hsame]
      exact h.same (Nat.le_succ _) rfl fun c hc => congrArg OpenShard.id (hother c hc.ne)
    | remove id k c hpc hc hone hpc' hs =>
      subst hs
      rw [hu.queues.map_settle_eq]
      exact h.same le_rfl rfl fun _ _ => rfl

/-- In every state, the disk has what it started with and the committed documents. -/
theorem stored_run {disk : ShardId → List NostrEvent} {as : List (Act T)}
    {u : Ledger T × Manager T} (hrun : run (noted cfg) (start, fresh disk) as = some u)
    (id : ShardId) :
    (u.2.shards.disk id).Perm (disk id ++ committedIn u.1.docs u.2.shards.heap id) := by
  have hkeep : ∀ (w : Ledger T × Manager T) (a : Act T) w',
      Sound w ∧ Stored disk w.1.docs w.2.shards → noted cfg w a = some w' →
        Sound w' ∧ Stored disk w'.1.docs w'.2.shards :=
    fun w a w' hw hs => ⟨hw.1.step hs, Stored.step hw.2 hw.1 hs⟩
  have hstart : Stored disk ((start : Ledger T).docs) (fresh disk : Manager T).shards :=
    ⟨fun d hd => absurd hd List.not_mem_nil, fun _ => (List.append_nil _).symm ▸ List.Perm.refl _⟩
  exact (run_invariant' hkeep ⟨sound_start disk, hstart⟩ hrun).2.perm id

end Ledger

namespace Manager

variable {T : Type} [DecidableEq T] [Fintype T] {cfg : ShardWriterConfig}

theorem step_go {s : Manager T} {t : T} {o : Oracle} {sh : Shards} {pc : Pc}
    (h : stepThread cfg s.strongCount s.shards o (s.threads t) = some (sh, pc)) :
    step cfg s (.go t o) = some { shards := sh, threads := Function.update s.threads t pc,
                                  acked := pc.ackedEvent.toList ++ s.acked } := by
  rw [step, h, Option.map_some]

/-- A `commit_all` that succeeds leaves nothing queued in an open shard it finds with documents
counted. -/
theorem exists_commitAll_run {s : Manager T} {t : T} (hrest : (s.threads t).resting = true) {c : ℕ}
    (hc : c ∈ mapValues s.shards.map) (hcount : (s.shards.heap c).docsSinceCommit ≠ 0) :
    ∃ as s', run (step cfg) s as = some s' ∧ (s'.shards.heap c).queued = [] := by
  let M := mapValues s.shards.map
  let s₁ : Manager T :=
    { s with threads := Function.update s.threads t (.called .commitAll) }
  let s₂ : Manager T :=
    { s₁ with threads := Function.update s₁.threads t (.committing M M []) }
  have h₁ : step cfg s (.call t .commitAll) = some s₁ := if_pos hrest
  have h₂ : step cfg s₁ (.go t {}) = some s₂ := by
    refine step_go ?_
    have ht : s₁.threads t = .called .commitAll := Function.update_self t _ _
    rw [ht]
    rfl
  have h₃ : stepThread cfg s₂.strongCount s₂.shards { worker := c } (s₂.threads t) =
      some (s.shards.flush c 0, .committing M (M.erase c) []) := by
    have hne : M ≠ 0 := fun hnil => Multiset.notMem_zero c (hnil ▸ hc)
    have hflush : s.shards.commit c none 0 = (s.shards.flush c 0, none) := if_neg hcount
    have ht : s₂.threads t = .committing M M [] := Function.update_self t _ _
    rw [ht]
    simp only [stepThread, if_neg hne]
    rw [if_pos hc, hflush]
    rfl
  have hlast := run_cons_some.mpr ⟨_, step_go h₃, run_nil _⟩
  have hrun := run_cons_some.mpr ⟨s₁, h₁, run_cons_some.mpr ⟨s₂, h₂, hlast⟩⟩
  exact ⟨_, _, hrun, congrArg OpenShard.queued (s.shards.heap_flush_self c 0)⟩

end Manager

namespace Ledger

open Manager

variable {T : Type} [DecidableEq T] [Fintype T] {cfg : ShardWriterConfig}

/-- A document keeps its call and its shard. -/
theorem HasDoc.step {u v : Ledger T × Manager T} {a : Act T} {k c : ℕ} (h : u.1.HasDoc k c)
    (hstep : noted cfg u a = some v) : v.1.HasDoc k c := by
  obtain ⟨-, hl⟩ := withHistory_some.mp hstep
  rw [hl]
  cases a with
  | call t d => cases d <;> exact h
  | go t o => exact hasDoc_move h

omit [DecidableEq T] [Fintype T] in
/-- Once nothing is queued in its shard, the document of a call is committed. -/
theorem Sound.committed {u : Ledger T × Manager T} (hu : Sound u) {k c : ℕ}
    (hdoc : u.1.HasDoc k c) (hnil : (u.2.shards.heap c).queued = []) :
    ∃ d ∈ u.1.docs, d.call = k ∧ d.committed = true := by
  obtain ⟨d, hd, hcall, rfl⟩ := hdoc
  refine ⟨d, hd, hcall, ?_⟩
  by_contra hwait
  exact hu.queues.ne_nil hd (Bool.eq_false_iff.mpr hwait) hnil

/-- An `index_event` whose own commit fails answers an error, and leaves its document in a shard
that is open and has documents counted. -/
theorem Sound.step_commitFails {u v : Ledger T × Manager T} {a : Act T} (hu : Sound u)
    (hfails : u.2.OwnCommitFails a) (hstep : noted cfg u a = some v) :
    ∃ t c k, (v.2.threads t).resting = true ∧ c ∈ mapValues v.2.shards.map ∧
      (v.2.shards.heap c).docsSinceCommit ≠ 0 ∧ k ∈ v.1.rejected ∧ v.1.HasDoc k c := by
  obtain ⟨hs, hl⟩ := withHistory_some.mp hstep
  obtain ⟨t, d, rfl, -⟩ | ⟨t, o, sh, pc, rfl, hthread, hv⟩ := step_cases hs
  · exact hfails.elim
  obtain ⟨j, c, hpc, hcount, hfail⟩ := hfails
  obtain ⟨e, he⟩ := Option.ne_none_iff_exists'.mp hfail
  have hcommit : u.2.shards.commit c o.fail o.now = (u.2.shards, some e) := by
    simp [Shards.commit, hcount, he]
  rw [hpc] at hthread
  simp only [stepThread, hcommit] at hthread
  cases hthread
  have hcall := hu.calls.inCall t
  rw [Function.comp_apply, hpc] at hcall
  have hopen : u.2.shards.map.lookup (u.2.shards.heap c).id = some c := by
    refine hu.registered.held t c ?_
    change c ∈ (u.2.threads t).handles
    rw [hpc]
    exact Multiset.mem_singleton_self c
  have ht : v.2.threads t = .returned (.indexEvent j.ev) (.err e) := by
    rw [hv]
    exact Function.update_self t _ _
  rw [note_go, ht] at hl
  refine ⟨t, c, u.1.current t, ?_, ?_, ?_, ?_, ?_⟩
  · rw [ht]
    rfl
  · rw [hv]
    exact mem_mapValues.mpr ⟨_, hopen⟩
  · rw [hv]
    exact hcount
  · rw [hl]
    exact mem_rejected_move.mpr (Or.inl ⟨rfl, rfl⟩)
  · rw [hl]
    exact hasDoc_move hcall.2.2

/-- The `commit_all` after it commits the document. -/
theorem not_neverIndexed {u v : Ledger T × Manager T} {a : Act T} (hu : Sound u)
    (hfails : u.2.OwnCommitFails a) (hstep : noted cfg u a = some v) : ¬ NeverIndexed cfg v := by
  intro hnever
  obtain ⟨t, c, k, hrest, hopen, hcount, hrejected, hdoc⟩ := hu.step_commitFails hfails hstep
  obtain ⟨as, s', hrun, hnil⟩ : ∃ as s', run (step cfg) v.2 as = some s' ∧
      (s'.shards.heap c).queued = [] := exists_commitAll_run hrest hopen hcount
  obtain ⟨l', hnoted⟩ := exists_run_withHistory Ledger.note v.1 hrun
  have hkeep : ∀ (w : Ledger T × Manager T) (a : Act T) w', Sound w ∧ w.1.HasDoc k c →
      noted cfg w a = some w' → Sound w' ∧ w'.1.HasDoc k c :=
    fun w a w' hw hs => ⟨hw.1.step hs, hw.2.step hs⟩
  obtain ⟨hsound, hlater⟩ := run_invariant' hkeep ⟨hu.step hstep, hdoc⟩ hnoted
  obtain ⟨d, hd, hcall, hcommitted⟩ := hsound.committed hlater hnil
  have hwait := hnever as (l', s') hnoted d hd (hcall ▸ hrejected)
  rw [hcommitted] at hwait
  cases hwait

/-- **Rejected events.** In every run from a manager over any index, with any failures: in every
state, no event that `index_event` rejected is or comes to be indexed, and no retry of such an
event makes a second document, if and only if no `index_event` fails at the commit it makes after
its document was queued. -/
theorem rejected_iff (cfg : ShardWriterConfig) (disk : ShardId → List NostrEvent)
    (as : List (Act T)) :
    (∀ u, Visited (noted cfg) (start, fresh disk) as u → NeverIndexed cfg u ∧ IndexedOnce u.1) ↔
      Along (noted cfg) (fun u a => ¬ u.2.OwnCommitFails a) (start, fresh disk) as := by
  have hinv : Sound ((start, fresh disk) : Ledger T × Manager T) ∧ (start : Ledger T).Clean :=
    ⟨sound_start disk, fun k hk => absurd hk List.not_mem_nil⟩
  have hstep : ∀ (u : Ledger T × Manager T) a v, Sound u ∧ u.1.Clean → True →
      ¬ u.2.OwnCommitFails a → noted cfg u a = some v → Sound v ∧ v.1.Clean :=
    fun u a v hu _ hok hs => ⟨hu.1.step hs, hu.2.step hu.1 hok hs⟩
  refine visited_iff_along hstep (fun u hu => ?_) (fun u a v hu _ hbad hs => ?_) hinv
    fun _ _ => trivial
  · exact ⟨hu.2.neverIndexed hu.1, hu.2.indexedOnce hu.1⟩
  · exact fun hboth => not_neverIndexed hu.1 (not_not.mp hbad) hs hboth.1

section Runs

private def rejectedNote : NostrEvent :=
  { id := "a", pubkey := "", createdAt := 1700000000, kind := 1, tags := [], content := "",
    sig := "" }

private def everyDoc : ShardWriterConfig :=
  { commitEveryDocs := 1, commitEveryMs := 30000, maxOpenShards := 64 }

private def indexSteps (n : ℕ) : List (Act (Fin 1)) :=
  .call 0 (.indexEvent rejectedNote) :: List.replicate n (.go 0 { now := 1710000000 })

/-- The commit after the document is queued fails, and the event is indexed again. -/
private def retryRun : List (Act (Fin 1)) :=
  indexSteps 9 ++ [.go 0 { now := 1710000000, fail := some .tantivy }] ++ indexSteps 8

private theorem retryRun_isSome :
    (run (noted everyDoc) (start, fresh fun _ => []) retryRun).isSome := by
  decide +kernel

private def retried : Ledger (Fin 1) × Manager (Fin 1) := Option.get _ retryRun_isSome

private theorem visited_retried :
    Visited (noted everyDoc) (start, fresh fun _ => []) retryRun retried :=
  ⟨retryRun, List.prefix_rfl, (Option.some_get retryRun_isSome).symm⟩

/-- A rejected event can be indexed, and its retry indexes it a second time. -/
theorem rejected_event_indexed_twice :
    (¬ ∀ (as : List (Act (Fin 1))) (u : Ledger (Fin 1) × Manager (Fin 1)),
      Visited (noted everyDoc) (start, fresh fun _ => []) as u → NeverIndexed everyDoc u) ∧
    ¬ ∀ (as : List (Act (Fin 1))) (u : Ledger (Fin 1) × Manager (Fin 1)),
      Visited (noted everyDoc) (start, fresh fun _ => []) as u → IndexedOnce u.1 := by
  constructor
  · intro h
    have hnow : ∀ d ∈ retried.1.docs, d.call ∈ retried.1.rejected → d.committed = false :=
      h retryRun retried visited_retried [] retried rfl
    revert hnow
    decide +kernel
  · intro h
    have honce := h retryRun retried visited_retried [0, 1] (by decide +kernel)
    revert honce
    decide +kernel

end Runs

end Ledger

end NostrSearch.Indexer
