import NostrSearch.Indexer.ShardHandles

/-!
# The calls of `index_event` and their documents

The `Ledger` numbers the calls of `index_event` and keeps the documents they queue, each with its
call and its shard. No branch of the manager reads it. A document is committed once nothing is
queued in its shard: what is queued is then the documents that are not committed (`Queues`), and the
disk has the others (`Stored`). A call has one document at most, queued behind every error but that
of the commit the call makes for it (`CallMove`, `Calls`).
-/

namespace NostrSearch.Indexer

open NostrSearch.Core NostrSearch.Lib

/-- A document, the call that queued it and the open shard it was queued in. -/
structure Doc where
  call : ℕ
  ev : NostrEvent
  cell : ℕ
  committed : Bool
deriving DecidableEq

/-- The calls of `index_event` so far, each thread's latest, the documents, and the calls that
returned an error. -/
structure Ledger (T : Type) where
  calls : ℕ
  current : T → ℕ
  docs : List Doc
  rejected : List ℕ

/-- A document is committed once nothing is queued in its shard. -/
def Doc.settle (heap : ℕ → OpenShard) (d : Doc) : Doc :=
  { d with committed := d.committed || (heap d.cell).queued.isEmpty }

/-- The documents with the one that a step from `pc` to `pc'` queues. -/
def withQueued (call : ℕ) (pc pc' : Pc) (docs : List Doc) : List Doc :=
  match pc, pc' with
  | .add j c, .countSince _ _ => docs ++ [⟨call, j.ev, c, false⟩]
  | _, _ => docs

/-- `index_event` has returned an error. -/
def Pc.isRejected : Pc → Bool
  | .returned (.indexEvent _) (.err _) => true
  | _ => false

namespace Ledger

variable {T : Type}

def start : Ledger T := { calls := 0, current := fun _ => 0, docs := [], rejected := [] }

/-- The ledger after thread `t` went from `pc` to `pc'`, leaving the shards in `heap`. -/
def move (l : Ledger T) (t : T) (pc pc' : Pc) (heap : ℕ → OpenShard) : Ledger T :=
  { l with
    docs := (withQueued (l.current t) pc pc' l.docs).map (Doc.settle heap)
    rejected := if pc'.isRejected then l.current t :: l.rejected else l.rejected }

/-- The ledger after a step. -/
def note [DecidableEq T] (l : Ledger T) (s : Manager T) (a : Act T) (s' : Manager T) : Ledger T :=
  match a with
  | .call t (.indexEvent _) =>
    { l with calls := l.calls + 1, current := Function.update l.current t l.calls }
  | .call _ _ => l
  | .go t _ => l.move t (s.threads t) (s'.threads t) s'.shards.heap

end Ledger

/-! ## Where a call is -/

/-- Where a thread is in a call of `index_event`: in none, before its document is queued, or behind
that, with the shard. -/
inductive CallPhase
  | outside
  | before
  | behind (c : ℕ)
deriving DecidableEq

def EvictCaller.phase : EvictCaller → CallPhase
  | .api => .outside
  | .shardFor _ => .before

def CloseCaller.phase : CloseCaller → CallPhase
  | .api _ => .outside
  | .evict _ k => k.phase

def Pc.phase : Pc → CallPhase
  | .called (.indexEvent _) | .route _ _ | .find _ | .findOrOpen _ | .add _ _ => .before
  | .evicting _ k => k.phase
  | .closeFind _ k | .closeCommit _ _ k | .closeDrop _ _ k | .closeRemove _ k => k.phase
  | .countSince _ c | .countTotal _ c | .shouldCommit _ c | .commitDoc _ c => .behind c
  | _ => .outside

@[simp] theorem EvictCaller.phase_resume (k : EvictCaller) : k.resume.phase = k.phase := by
  cases k <;> rfl

@[simp] theorem CloseCaller.phase_resume (k : CloseCaller) : k.resume.phase = k.phase := by
  cases k <;> rfl

@[simp] theorem EvictCaller.resume_isRejected (k : EvictCaller) : k.resume.isRejected = false := by
  cases k <;> rfl

@[simp] theorem CloseCaller.resume_isRejected (k : CloseCaller) : k.resume.isRejected = false := by
  cases k <;> rfl

/-- An error behind `close_shard` is one of `index_event` only where that is waiting for it. -/
theorem CloseCaller.phase_of_isRejected {k : CloseCaller} {e : ShardError}
    (h : (Pc.returned k.call (.err e)).isRejected = true) : k.phase = .before := by
  cases k with
  | api id => cases h
  | evict left k =>
    cases k with
    | api => cases h
    | shardFor j => rfl

/-- The commit of an `index_event` fails. -/
def CommitFails (s : Shards) (o : Oracle) (pc : Pc) : Prop :=
  ∃ j c, pc = .commitDoc j c ∧ (s.heap c).docsSinceCommit ≠ 0 ∧ o.fail ≠ none

/-- What a step does to the call its thread is in. -/
structure CallMove (s : Shards) (o : Oracle) (pc pc' : Pc) : Prop where
  phase : pc'.phase = pc.phase ∨ (∃ j c, pc = .add j c ∧ pc' = .countSince j c) ∨
    pc'.phase = .outside
  rejected : pc'.isRejected = true → pc.phase = .before ∨ CommitFails s o pc

/-- A step within a phase. -/
theorem CallMove.within {s : Shards} {o : Oracle} {pc pc' : Pc} (h : pc'.phase = pc.phase)
    (hok : pc'.isRejected = false) : CallMove s o pc pc' :=
  ⟨Or.inl h, fun hrej => absurd hrej (Bool.eq_false_iff.mp hok)⟩

/-- A step that returns something else than an error of `index_event`. -/
theorem CallMove.leave {s : Shards} {o : Oracle} {pc pc' : Pc} (h : pc'.phase = .outside)
    (hok : pc'.isRejected = false) : CallMove s o pc pc' :=
  ⟨Or.inr (Or.inr h), fun hrej => absurd hrej (Bool.eq_false_iff.mp hok)⟩

/-- An error before the document is queued. -/
theorem CallMove.reject {s : Shards} {o : Oracle} {pc pc' : Pc} (h : pc'.phase = .outside)
    (hpc : pc'.isRejected = true → pc.phase = .before) : CallMove s o pc pc' :=
  ⟨Or.inr (Or.inr h), fun hrej => Or.inl (hpc hrej)⟩

theorem stepThread_callMove {cfg : ShardWriterConfig} {strong : ℕ → ℕ} {s s' : Shards}
    {o : Oracle} {pc pc' : Pc} (h : stepThread cfg strong s o pc = some (s', pc')) :
    CallMove s o pc pc' := by
  cases pc with
  | idle => cases h
  | returned c r => cases h
  | called c =>
    cases c with
    | indexEvent ev =>
      simp only [stepThread] at h
      split at h <;> cases h
      · exact .reject rfl fun _ => rfl
      · exact .within rfl rfl
    | tick | commitAll | closeShard | evictIfNeeded =>
      cases h
      exact .within rfl rfl
  | route ev ret =>
    cases h
    exact .within rfl rfl
  | find j =>
    simp only [stepThread] at h
    split at h <;> cases h <;> exact .within rfl rfl
  | evicting left k =>
    cases left with
    | zero =>
      cases h
      exact .within k.phase_resume k.resume_isRejected
    | succ left =>
      simp only [stepThread] at h
      split at h
      · cases h
        exact .within k.phase_resume k.resume_isRejected
      · split at h <;> split at h <;> cases h
        · exact .within rfl rfl
        · exact .within k.phase_resume k.resume_isRejected
  | closeFind id k =>
    simp only [stepThread] at h
    split at h <;> cases h
    · exact .within rfl rfl
    · exact .within k.phase_resume k.resume_isRejected
  | closeCommit id c k =>
    simp only [stepThread] at h
    split at h <;> cases h
    · exact .within rfl rfl
    · exact .reject rfl fun hrej => CloseCaller.phase_of_isRejected hrej
  | closeDrop id c k =>
    cases h
    exact .within rfl rfl
  | closeRemove id k =>
    simp only [stepThread] at h
    split at h
    · split at h <;> cases h <;> exact .within k.phase_resume k.resume_isRejected
    · cases h
      exact .within k.phase_resume k.resume_isRejected
  | findOrOpen j =>
    simp only [stepThread] at h
    split at h
    · cases h
      exact .within rfl rfl
    · split at h <;> cases h
      · exact .reject rfl fun _ => rfl
      · exact .within rfl rfl
  | add j c =>
    simp only [stepThread] at h
    split at h <;> cases h
    · exact .reject rfl fun _ => rfl
    · exact ⟨Or.inr (Or.inl ⟨j, c, rfl, rfl⟩), by rintro ⟨⟩⟩
  | countSince j c =>
    cases h
    exact .within rfl rfl
  | countTotal j c =>
    cases h
    exact .within rfl rfl
  | shouldCommit j c =>
    simp only [stepThread] at h
    split at h <;> cases h
    · exact .within rfl rfl
    · exact .leave rfl rfl
  | commitDoc j c =>
    simp only [stepThread] at h
    split at h
    case h_1 s₁ hcommit =>
      cases h
      exact .leave rfl rfl
    case h_2 s₁ e hcommit =>
      cases h
      refine ⟨Or.inr (Or.inr rfl), fun _ => Or.inr ⟨j, c, rfl, ?_⟩⟩
      unfold Shards.commit at hcommit
      split at hcommit
      · cases hcommit
      case isFalse hcount =>
        refine ⟨hcount, fun hnone => ?_⟩
        rw [hnone] at hcommit
        cases hcommit
  | ticking todo =>
    simp only [stepThread] at h
    split at h
    · cases h
      exact .leave rfl rfl
    · split at h
      · split at h <;> cases h <;> exact .within rfl rfl
      · cases h
  | tickCommit c todo =>
    simp only [stepThread] at h
    split at h <;> cases h
    · exact .within rfl rfl
    · exact .leave rfl rfl
  | committing snap todo errs =>
    simp only [stepThread] at h
    split at h
    · repeat' split at h
      all_goals cases h
      all_goals exact .leave rfl rfl
    · split at h
      · cases h
        exact .within rfl rfl
      · cases h

/-! ## The documents and the queues -/

@[simp] theorem Doc.settle_cell (heap : ℕ → OpenShard) (d : Doc) :
    (d.settle heap).cell = d.cell := rfl

theorem Doc.settle_of_queued {heap : ℕ → OpenShard} {d : Doc} (h : (heap d.cell).queued ≠ []) :
    d.settle heap = d := by
  unfold Doc.settle
  rw [List.isEmpty_eq_false_iff.mpr h, Bool.or_false]

theorem Doc.settle_of_committed {heap : ℕ → OpenShard} {d : Doc} (h : d.committed = true) :
    d.settle heap = d := by
  unfold Doc.settle
  rw [h, Bool.true_or, ← h]

@[simp] theorem Doc.settle_committed_iff {heap : ℕ → OpenShard} {d : Doc} :
    (d.settle heap).committed = false ↔ d.committed = false ∧ (heap d.cell).queued ≠ [] := by
  simp [Doc.settle]

theorem map_settle_call (heap : ℕ → OpenShard) (docs : List Doc) :
    (docs.map (Doc.settle heap)).map Doc.call = docs.map Doc.call := by
  rw [List.map_map]
  rfl

/-- The documents of a shard that are not committed, in the order they were added. -/
def waiting (docs : List Doc) (c : ℕ) : List Doc :=
  docs.filter fun d => d.cell = c ∧ d.committed = false

theorem mem_waiting {docs : List Doc} {c : ℕ} {d : Doc} :
    d ∈ waiting docs c ↔ d ∈ docs ∧ d.cell = c ∧ d.committed = false := by
  rw [waiting, List.mem_filter, decide_eq_true_iff]

theorem waiting_settle (heap : ℕ → OpenShard) (docs : List Doc) (c : ℕ) :
    waiting (docs.map (Doc.settle heap)) c =
      if (heap c).queued = [] then [] else waiting docs c := by
  unfold waiting
  rw [List.filter_map]
  split
  case isTrue hnil =>
    rw [List.map_eq_nil_iff, List.filter_eq_nil_iff]
    intro d _ hd
    rw [Function.comp_apply, decide_eq_true_iff, Doc.settle_cell, Doc.settle_committed_iff] at hd
    obtain ⟨rfl, -, hne⟩ := hd
    exact hne hnil
  case isFalse hne =>
    have hsame : ∀ d : Doc, d.cell = c → d.settle heap = d := by
      rintro d rfl
      exact Doc.settle_of_queued hne
    have hfilter : docs.filter ((fun d => decide (d.cell = c ∧ d.committed = false)) ∘
        Doc.settle heap) = docs.filter fun d => d.cell = c ∧ d.committed = false := by
      refine List.filter_congr fun d _ => ?_
      by_cases hcell : d.cell = c
      · rw [Function.comp_apply, hsame d hcell]
      · simp [hcell]
    rw [hfilter]
    conv_rhs => rw [← List.map_id (docs.filter _)]
    refine List.map_congr_left fun d hd => ?_
    exact hsame d (mem_waiting.mp hd).2.1

/-- What is queued in a shard is its documents that are not committed. -/
def Queues (docs : List Doc) (heap : ℕ → OpenShard) : Prop :=
  ∀ c, (waiting docs c).map Doc.ev = (heap c).queued

namespace Queues

variable {docs : List Doc} {heap heap' : ℕ → OpenShard}

/-- A document that is not committed is in a queue. -/
theorem ne_nil (h : Queues docs heap) {d : Doc} (hd : d ∈ docs) (hwait : d.committed = false) :
    (heap d.cell).queued ≠ [] := by
  rw [← h d.cell]
  apply List.ne_nil_of_mem (a := d.ev)
  exact List.mem_map_of_mem (mem_waiting.mpr ⟨hd, rfl, hwait⟩)

theorem map_settle_eq (h : Queues docs heap) : docs.map (Doc.settle heap) = docs := by
  conv_rhs => rw [← List.map_id docs]
  refine List.map_congr_left fun d hd => ?_
  cases hc : d.committed with
  | true => exact Doc.settle_of_committed hc
  | false => exact Doc.settle_of_queued (h.ne_nil hd hc)

/-- Every queue is left alone or emptied. -/
theorem map_settle (h : Queues docs heap)
    (hq : ∀ c, (heap' c).queued = (heap c).queued ∨ (heap' c).queued = []) :
    Queues (docs.map (Doc.settle heap')) heap' := by
  intro c
  rw [waiting_settle]
  by_cases hnil : (heap' c).queued = []
  · rw [if_pos hnil, hnil]
    rfl
  · rw [if_neg hnil, h c, (hq c).resolve_right hnil]

/-- `add_document`. -/
theorem add {s : Shards} (h : Queues docs s.heap) (k c : ℕ) (ev : NostrEvent) :
    Queues (docs ++ [⟨k, ev, c, false⟩])
      (s.modify c fun sh => { sh with queued := sh.queued ++ [ev] }).heap := by
  intro e
  by_cases he : e = c
  · subst he
    rw [Shards.heap_modify_self, ← h e]
    simp [waiting]
  · rw [Shards.heap_modify_of_ne s he, ← h e]
    simp [waiting, Ne.symm he]

end Queues

theorem Shards.queued_modify (s : Shards) (c : ℕ) {f : OpenShard → OpenShard}
    (hf : ∀ sh, (f sh).queued = sh.queued) (d : ℕ) :
    ((s.modify c f).heap d).queued = (s.heap d).queued := by
  by_cases h : d = c
  · subst h
    rw [Shards.heap_modify_self, hf]
  · rw [Shards.heap_modify_of_ne s h]

/-- A step queues a document, or it leaves every queue alone or empty. -/
theorem stepThread_queues {cfg : ShardWriterConfig} {strong : ℕ → ℕ} {s s' : Shards}
    {o : Oracle} {pc pc' : Pc} (h : stepThread cfg strong s o pc = some (s', pc')) :
    (∃ j c, pc = .add j c ∧ pc' = .countSince j c ∧
      s' = s.modify c fun sh => { sh with queued := sh.queued ++ [j.ev] }) ∨
    ((pc'.phase = pc.phase ∨ pc'.phase = .outside) ∧
      (∀ k docs, withQueued k pc pc' docs = docs) ∧
      ∀ c, (s'.heap c).queued = (s.heap c).queued ∨ (s'.heap c).queued = []) := by
  by_cases hadd : ∃ j c, pc = .add j c
  · obtain ⟨j, c, rfl⟩ := hadd
    simp only [stepThread] at h
    split at h <;> cases h
    · exact Or.inr ⟨Or.inr rfl, fun _ _ => rfl, fun _ => Or.inl rfl⟩
    · exact Or.inl ⟨j, c, rfl, rfl, rfl⟩
  · right
    refine ⟨?_, fun k docs => ?_, fun c => ?_⟩
    · rcases (stepThread_callMove h).phase with hphase | ⟨j, c, rfl, -⟩ | hout
      · exact Or.inl hphase
      · exact absurd ⟨j, c, rfl⟩ hadd
      · exact Or.inr hout
    · cases pc with
      | add j c => exact absurd ⟨j, c, rfl⟩ hadd
      | _ => rfl
    · cases stepThread_effect h with
      | share hmap hnext hdisk hheap hheld => exact Or.inl (hheap c).queued
      | queue j e hpc hpc' hs => exact absurd ⟨j, e, hpc⟩ hadd
      | count j e hpc hpc' hs =>
        subst hs
        left
        apply Shards.queued_modify
        intro sh
        rfl
      | flush e nowMs he hpos hs hheld =>
        subst hs
        by_cases hce : c = e
        · rw [hce, Shards.heap_flush_self]
          exact Or.inr rfl
        · rw [Shards.heap_flush_of_ne s hce]
          exact Or.inl rfl
      | openShard j nowMs hpc habs hpc' hs =>
        subst hs
        by_cases hce : c = s.next
        · rw [hce, Shards.heap_openShard_self]
          exact Or.inr rfl
        · rw [Shards.heap_openShard_of_ne s j.id j.tick nowMs hce]
          exact Or.inl rfl
      | remove id k e hpc he hone hpc' hs =>
        subst hs
        exact Or.inl rfl

/-! ## The documents on the disk -/

/-- The events of the committed documents of a month. -/
def committedIn (docs : List Doc) (heap : ℕ → OpenShard) (id : ShardId) : List NostrEvent :=
  (docs.filter fun d => d.committed ∧ (heap d.cell).id = id).map Doc.ev

/-- The documents are in shards that were opened, and the disk has those that are committed, next to
what it started with. -/
structure Stored (disk : ShardId → List NostrEvent) (docs : List Doc) (s : Shards) : Prop where
  cell_lt : ∀ d ∈ docs, d.cell < s.next
  perm : ∀ id, (s.disk id).Perm (disk id ++ committedIn docs s.heap id)

theorem committedIn_congr {docs : List Doc} {heap heap' : ℕ → OpenShard} {id : ShardId}
    (h : ∀ d ∈ docs, (heap' d.cell).id = (heap d.cell).id) :
    committedIn docs heap' id = committedIn docs heap id := by
  unfold committedIn
  congr 1
  refine List.filter_congr fun d hd => ?_
  rw [h d hd]

/-- Nothing queued is written, and no shard of a document changes its month. -/
theorem Stored.same {disk : ShardId → List NostrEvent} {docs : List Doc} {s s' : Shards}
    (h : Stored disk docs s) (hnext : s.next ≤ s'.next) (hdisk : s'.disk = s.disk)
    (hid : ∀ c, c < s.next → (s'.heap c).id = (s.heap c).id) : Stored disk docs s' := by
  refine ⟨fun d hd => (h.cell_lt d hd).trans_le hnext, fun id => ?_⟩
  rw [hdisk, committedIn_congr fun d hd => hid d.cell (h.cell_lt d hd)]
  exact h.perm id

/-- `add_document`. -/
theorem Stored.add {disk : ShardId → List NostrEvent} {docs : List Doc} {s : Shards}
    (h : Stored disk docs s) {c : ℕ} (hc : c < s.next) (k : ℕ) (ev : NostrEvent) :
    Stored disk (docs ++ [⟨k, ev, c, false⟩]) s := by
  refine ⟨fun d hd => ?_, fun id => ?_⟩
  · rcases List.mem_append.mp hd with hold | hnew
    · exact h.cell_lt d hold
    · rw [List.mem_singleton.mp hnew]
      exact hc
  · have hnone : committedIn (docs ++ [⟨k, ev, c, false⟩]) s.heap id =
        committedIn docs s.heap id := by
      simp [committedIn]
    rw [hnone]
    exact h.perm id

/-- After a commit that reaches the disk, the documents committed are those that were, and those of
its shard. -/
theorem settle_flush_committed {docs : List Doc} {s : Shards} (hq : Queues docs s.heap)
    (c nowMs : ℕ) {d : Doc} (hd : d ∈ docs) :
    (d.settle (s.flush c nowMs).heap).committed = true ↔ d.committed = true ∨ d.cell = c := by
  by_cases hcell : d.cell = c
  · simp [Doc.settle, hcell, s.heap_flush_self c nowMs]
  · rw [Doc.settle, s.heap_flush_of_ne hcell]
    cases hc : d.committed with
    | true => simp
    | false => simp [hcell, hq.ne_nil hd hc]

theorem committedIn_flush {docs : List Doc} {s : Shards} (hq : Queues docs s.heap)
    (c nowMs : ℕ) (id : ShardId) :
    (committedIn (docs.map (Doc.settle (s.flush c nowMs).heap)) (s.flush c nowMs).heap id).Perm
      (committedIn docs s.heap id ++
        if id = (s.heap c).id then (s.heap c).queued else []) := by
  have hfilter : committedIn (docs.map (Doc.settle (s.flush c nowMs).heap))
      (s.flush c nowMs).heap id =
      (docs.filter fun d => (d.committed ∨ d.cell = c) ∧ (s.heap d.cell).id = id).map Doc.ev := by
    unfold committedIn
    rw [List.filter_map, List.map_map]
    congr 1
    refine List.filter_congr fun d hd => ?_
    rw [Function.comp_apply, decide_eq_decide, settle_flush_committed hq c nowMs hd,
      Doc.settle_cell, s.id_flush]
  have hold : (docs.filter fun d => (d.committed ∨ d.cell = c) ∧ (s.heap d.cell).id = id).filter
      Doc.committed = docs.filter fun d => d.committed ∧ (s.heap d.cell).id = id := by
    rw [List.filter_filter]
    refine List.filter_congr fun d _ => ?_
    cases d.committed <;> simp
  have hnew : ((docs.filter fun d => (d.committed ∨ d.cell = c) ∧ (s.heap d.cell).id = id).filter
      fun d => !d.committed).map Doc.ev = if id = (s.heap c).id then (s.heap c).queued else [] := by
    rw [List.filter_filter]
    split
    case isTrue hid =>
      rw [← hq c, waiting]
      congr 1
      refine List.filter_congr fun d _ => ?_
      by_cases hcell : d.cell = c
      · cases d.committed <;> simp [hcell, hid]
      · cases d.committed <;> simp [hcell]
    case isFalse hid =>
      rw [List.map_eq_nil_iff, List.filter_eq_nil_iff]
      intro d _ hd
      simp only [Bool.and_eq_true, Bool.not_eq_true', decide_eq_true_iff] at hd
      obtain ⟨hwait, hcell, rfl⟩ := hd
      rw [hwait] at hcell
      exact hid (by rw [hcell.resolve_left Bool.false_ne_true])
  rw [hfilter, committedIn, ← hold, ← hnew, ← List.map_append]
  exact (List.filter_append_perm Doc.committed _).symm.map Doc.ev

/-- A commit that reaches the disk: the documents queued in the shard are committed. -/
theorem Stored.flush {disk : ShardId → List NostrEvent} {docs : List Doc} {s : Shards}
    (h : Stored disk docs s) (hq : Queues docs s.heap) (c nowMs : ℕ) :
    Stored disk (docs.map (Doc.settle (s.flush c nowMs).heap)) (s.flush c nowMs) := by
  refine ⟨fun d hd => ?_, fun id => ?_⟩
  · obtain ⟨e, he, rfl⟩ := List.mem_map.mp hd
    exact h.cell_lt e he
  · have hdisk : (s.flush c nowMs).disk id =
        s.disk id ++ if id = (s.heap c).id then (s.heap c).queued else [] := by
      split
      case isTrue hid =>
        rw [hid, s.disk_flush_self]
      case isFalse hid =>
        rw [s.disk_flush_of_ne hid, List.append_nil]
    rw [hdisk]
    refine ((h.perm id).append_right _).trans ?_
    rw [List.append_assoc]
    exact (committedIn_flush hq c nowMs id).symm.append_left _

/-! ## The calls -/

@[simp] theorem Pc.phase_of_resting {pc : Pc} (h : pc.resting = true) : pc.phase = .outside := by
  cases pc <;> first | rfl | cases h

theorem Pc.phase_of_isRejected {pc : Pc} (h : pc.isRejected = true) : pc.phase = .outside := by
  cases pc <;> first | rfl | cases h

theorem CommitFails.phase_ne {s : Shards} {o : Oracle} {pc : Pc} (h : CommitFails s o pc) :
    pc.phase ≠ .outside := by
  obtain ⟨j, c, rfl, -⟩ := h
  exact nofun

theorem CallMove.phase_ne {s : Shards} {o : Oracle} {pc pc' : Pc} (h : CallMove s o pc pc')
    (hrej : pc'.isRejected = true) : pc.phase ≠ .outside := by
  rcases h.rejected hrej with hbefore | hfails
  · rw [hbefore]
    exact nofun
  · exact hfails.phase_ne

namespace Ledger

variable {T : Type}

/-- The call has a document, in that shard. -/
def HasDoc (l : Ledger T) (k c : ℕ) : Prop := ∃ d ∈ l.docs, d.call = k ∧ d.cell = c

/-- What a thread's latest call has behind it, by where the thread is in it. -/
def InCall (l : Ledger T) (t : T) : CallPhase → Prop
  | .outside => True
  | .before => l.current t < l.calls ∧ l.current t ∉ l.rejected ∧
      l.current t ∉ l.docs.map Doc.call
  | .behind c => l.current t < l.calls ∧ l.current t ∉ l.rejected ∧ l.HasDoc (l.current t) c

theorem InCall.lt {l : Ledger T} {t : T} {p : CallPhase} (h : l.InCall t p) (hp : p ≠ .outside) :
    l.current t < l.calls := by
  cases p with
  | outside => exact absurd rfl hp
  | before | behind c => exact h.1

theorem InCall.frame {l l' : Ledger T} {t : T} {p : CallPhase} (h : l.InCall t p)
    (hcurrent : l'.current t = l.current t) (hcalls : l.calls ≤ l'.calls)
    (hrejected : p ≠ .outside → l.current t ∈ l'.rejected → l.current t ∈ l.rejected)
    (hdocs : p = .before → l.current t ∈ l'.docs.map Doc.call → l.current t ∈ l.docs.map Doc.call)
    (hkeep : ∀ k c, l.HasDoc k c → l'.HasDoc k c) : l'.InCall t p := by
  cases p with
  | outside => trivial
  | before =>
    obtain ⟨hlt, hok, hnone⟩ := h
    unfold InCall
    rw [hcurrent]
    exact ⟨hlt.trans_le hcalls, fun hr => hok (hrejected nofun hr),
      fun hd => hnone (hdocs rfl hd)⟩
  | behind c =>
    obtain ⟨hlt, hok, hdoc⟩ := h
    unfold InCall
    rw [hcurrent]
    exact ⟨hlt.trans_le hcalls, fun hr => hok (hrejected nofun hr), hkeep _ c hdoc⟩

theorem mem_rejected_move {l : Ledger T} {t : T} {pc pc' : Pc} {heap : ℕ → OpenShard} {k : ℕ} :
    k ∈ (l.move t pc pc' heap).rejected ↔
      (k = l.current t ∧ pc'.isRejected = true) ∨ k ∈ l.rejected := by
  unfold move
  split
  case isTrue hrej => simp [hrej]
  case isFalse hrej => simp [hrej]

theorem docs_move {l : Ledger T} {t : T} {pc pc' : Pc} {heap : ℕ → OpenShard} :
    (l.move t pc pc' heap).docs.map Doc.call =
      (withQueued (l.current t) pc pc' l.docs).map Doc.call :=
  map_settle_call _ _

theorem hasDoc_move {l : Ledger T} {t : T} {pc pc' : Pc} {heap : ℕ → OpenShard} {k c : ℕ}
    (h : l.HasDoc k c) : (l.move t pc pc' heap).HasDoc k c := by
  obtain ⟨d, hd, hcall, hcell⟩ := h
  refine ⟨d.settle heap, List.mem_map_of_mem ?_, hcall, hcell⟩
  unfold withQueued
  split
  · exact List.mem_append_left _ hd
  · exact hd

/-- The calls are told apart: each has one document at most, none is told an error while it runs,
and the threads are in different calls. -/
structure Calls (l : Ledger T) (p : T → CallPhase) : Prop where
  nodup : (l.docs.map Doc.call).Nodup
  docs_lt : ∀ k ∈ l.docs.map Doc.call, k < l.calls
  rejected_lt : ∀ k ∈ l.rejected, k < l.calls
  inCall : ∀ t, l.InCall t (p t)
  distinct : ∀ t u, t ≠ u → p t ≠ .outside → p u ≠ .outside → l.current t ≠ l.current u

theorem mem_docs_move {l : Ledger T} {t : T} {pc pc' : Pc} {heap : ℕ → OpenShard} {k : ℕ}
    (h : k ∈ (l.move t pc pc' heap).docs.map Doc.call) :
    k ∈ l.docs.map Doc.call ∨
      (k = l.current t ∧ pc.phase = .before ∧ ∃ c, pc'.phase = .behind c) := by
  rw [docs_move] at h
  unfold withQueued at h
  split at h
  · rw [List.map_append, List.mem_append] at h
    exact h.imp_right fun hk => ⟨List.mem_singleton.mp hk, rfl, _, rfl⟩
  · exact Or.inl h

/-- Thread `t` goes to the phase `q`, and only its own call gets a document or an error. -/
theorem Calls.update [DecidableEq T] {l l' : Ledger T} {p : T → CallPhase} (h : l.Calls p) {t : T}
    {q : CallPhase} (hcurrent : ∀ u, u ≠ t → l'.current u = l.current u) (hcalls : l.calls ≤ l'.calls)
    (hdocs : ∀ k ∈ l'.docs.map Doc.call,
      k ∈ l.docs.map Doc.call ∨ (k = l.current t ∧ p t ≠ .outside))
    (hrejected : ∀ k ∈ l'.rejected, k ∈ l.rejected ∨ (k = l.current t ∧ p t ≠ .outside))
    (hkeep : ∀ k c, l.HasDoc k c → l'.HasDoc k c) (hnodup : (l'.docs.map Doc.call).Nodup)
    (hin : l'.InCall t q)
    (hdistinct : q ≠ .outside → ∀ u, u ≠ t → p u ≠ .outside → l'.current t ≠ l.current u) :
    l'.Calls (Function.update p t q) := by
  have hlt : ∀ k, k = l.current t ∧ p t ≠ .outside → k < l'.calls := by
    rintro k ⟨rfl, hp⟩
    exact ((h.inCall t).lt hp).trans_le hcalls
  -- what is new belongs to the call of `t`, and no other thread is in that
  have hother : ∀ u, u ≠ t → p u ≠ .outside → ¬ (l.current u = l.current t ∧ p t ≠ .outside) :=
    fun u hu hp hk => h.distinct u t hu hp hk.2 hk.1
  refine ⟨hnodup, fun k hk => ?_, fun k hk => ?_, ?_, fun u v huv hu hv => ?_⟩
  · rcases hdocs k hk with hold | hnew
    · exact (h.docs_lt k hold).trans_le hcalls
    · exact hlt k hnew
  · rcases hrejected k hk with hold | hnew
    · exact (h.rejected_lt k hold).trans_le hcalls
    · exact hlt k hnew
  · rw [Function.forall_update_iff p fun u q => l'.InCall u q]
    refine ⟨hin, fun u hu => (h.inCall u).frame (hcurrent u hu) hcalls ?_ ?_ hkeep⟩
    · exact fun hp hk => (hrejected _ hk).resolve_right (hother u hu hp)
    · intro hp hk
      refine (hdocs _ hk).resolve_right (hother u hu ?_)
      rw [hp]
      exact nofun
  · by_cases hut : u = t
    · subst hut
      rw [Function.update_self] at hu
      rw [Function.update_of_ne huv.symm] at hv
      rw [hcurrent v huv.symm]
      exact hdistinct hu v huv.symm hv
    · rw [Function.update_of_ne hut] at hu
      rw [hcurrent u hut]
      by_cases hvt : v = t
      · subst hvt
        rw [Function.update_self] at hv
        exact (hdistinct hv u hut hu).symm
      · rw [Function.update_of_ne hvt] at hv
        rw [hcurrent v hvt]
        exact h.distinct u v huv hu hv

/-- A call that begins. -/
theorem Calls.begin [DecidableEq T] {l : Ledger T} {p : T → CallPhase} (h : l.Calls p) (t : T) :
    ({ l with calls := l.calls + 1, current := Function.update l.current t l.calls } :
      Ledger T).Calls (Function.update p t .before) := by
  refine h.update (fun u hu => Function.update_of_ne hu _ _) (Nat.le_succ _) (fun _ => Or.inl)
    (fun _ => Or.inl) (fun _ _ => id) h.nodup ?_ fun _ u _ hp => ?_
  · -- the number is new
    simp only [InCall, Function.update_self]
    exact ⟨Nat.lt_succ_self _, fun hr => absurd (h.rejected_lt _ hr) (Nat.lt_irrefl _),
      fun hd => absurd (h.docs_lt _ hd) (Nat.lt_irrefl _)⟩
  · simp only [Function.update_self]
    exact ((h.inCall u).lt hp).ne'

/-- A step of thread `t` from `pc` to `pc'`. -/
theorem Calls.move [DecidableEq T] {l : Ledger T} {p : T → CallPhase} (h : l.Calls p) {t : T}
    {s : Shards} {o : Oracle} {pc pc' : Pc} (hpc : p t = pc.phase) (hmove : CallMove s o pc pc')
    (heap : ℕ → OpenShard) :
    (l.move t pc pc' heap).Calls (Function.update p t pc'.phase) := by
  refine h.update (fun _ _ => rfl) le_rfl (fun k hk => ?_) (fun k hk => ?_)
    (fun _ _ => hasDoc_move) ?_ ?_ fun hq u hu hp => ?_
  · refine (mem_docs_move hk).imp_right fun hnew => ⟨hnew.1, ?_⟩
    rw [hpc, hnew.2.1]
    exact nofun
  · refine (mem_rejected_move.mp hk).symm.imp_right fun hnew => ⟨hnew.1, ?_⟩
    rw [hpc]
    exact hmove.phase_ne hnew.2
  · rw [docs_move]
    unfold withQueued
    split
    · have hbefore := h.inCall t
      rw [hpc] at hbefore
      rw [List.map_append]
      exact h.nodup.append (List.nodup_singleton _) (List.disjoint_singleton.mpr hbefore.2.2)
    · exact h.nodup
  · rcases hmove.phase with hphase | ⟨j, c, rfl, rfl⟩ | hout
    · rw [hphase, ← hpc]
      refine (h.inCall t).frame rfl le_rfl (fun hp hk => ?_) (fun hp hk => ?_)
        fun _ _ => hasDoc_move
      · refine (mem_rejected_move.mp hk).resolve_left fun hnew => hp ?_
        rw [hpc, ← hphase, Pc.phase_of_isRejected hnew.2]
      · refine (mem_docs_move hk).resolve_right fun hnew => ?_
        obtain ⟨-, hbefore, c, hbehind⟩ := hnew
        rw [hphase, hbefore] at hbehind
        cases hbehind
    · have hbefore := h.inCall t
      rw [hpc] at hbefore
      refine ⟨hbefore.1, hbefore.2.1, Doc.settle heap ⟨l.current t, j.ev, c, false⟩, ?_, rfl, rfl⟩
      exact List.mem_map_of_mem (List.mem_append_right _ (List.mem_singleton_self _))
    · rw [hout]
      trivial
  · refine h.distinct t u hu.symm ?_ hp
    rw [hpc]
    rcases hmove.phase with hphase | ⟨j, c, rfl, rfl⟩ | hout
    · rwa [← hphase]
    · exact nofun
    · exact absurd hout hq

end Ledger

end NostrSearch.Indexer
