import NostrSearch.Indexer.Dedupe
import NostrSearch.Lib.Run

/-!
# Several writers of one index

The readers of a deduped ingest, its checkpoint and the writer task of the node add documents to
one index and ids to one id store. A reader looks its batch up in the store, then in the pending
set of the ingest, then indexes what was in neither, and then adds its ids to the pending set; the
checkpoint takes the pending set and flushes it. The writer indexes whatever it is sent, and keeps
the ids to itself until its next commit.

Nothing holds between a reader's check and its documents. `one_document_each` says that no id gets
two documents as long as what a reader plans to index, and what the writer is sent, has no document
and is in no other hand (`Apart`).
-/

namespace NostrSearch.Server

open NostrSearch.Core NostrSearch.Lib NostrSearch.Indexer

/-- Where a reader is with its batch. -/
inductive ReaderPc
  | idle
  /-- before `contains_batch` -/
  | lookup (batch : List NostrEvent)
  /-- before it looks into the pending set -/
  | plan (batch : List NostrEvent) (known : List Bool)
  /-- between two `index_event` calls, with the ids of those that returned `Ok` -/
  | index (work : List (NostrEvent × Option Bytes32)) (okIds : List Bytes32)

/-- The ids a reader is going to index. -/
def ReaderPc.ids : ReaderPc → List Bytes32
  | .index work _ => work.map fun w => claimId w.1
  | _ => []

/-- The events of a reader that has not planned yet. -/
def ReaderPc.batch : ReaderPc → List NostrEvent
  | .lookup batch | .plan batch _ => batch
  | _ => []

structure SharedIndex (T : Type) where
  docs : List NostrEvent
  store : Finset Bytes32
  /-- the pending set of the ingest -/
  pending : Finset Bytes32
  /-- what the checkpoint took and has still to flush -/
  taken : Option (Finset Bytes32)
  /-- the `IndexedIds` of the writer -/
  indexed : List Bytes32
  readers : T → ReaderPc

inductive SharedAct (T : Type)
  | batch (t : T) (events : List NostrEvent)
  | lookup (t : T)
  | plan (t : T)
  /-- the next `index_event` of a reader, and whether it returns `Ok` -/
  | index (t : T) (ok : Bool)
  | extend (t : T)
  /-- the checkpoint has committed, and takes the pending set -/
  | take
  | flush (ok : Bool)
  /-- the writer processes an event, and whether it was indexed -/
  | process (ev : NostrEvent) (ok : Bool)
  /-- the writer has committed, and flushes its ids -/
  | record (ok : Bool)

namespace SharedIndex

variable {T : Type} [DecidableEq T]

def start (docs : List NostrEvent) (store : Finset Bytes32) : SharedIndex T :=
  { docs := docs, store := store, pending := ∅, taken := none, indexed := []
    readers := fun _ => .idle }

/-- Reader `t` goes on at `pc`. -/
def goto (s : SharedIndex T) (t : T) (pc : ReaderPc) : SharedIndex T :=
  { s with readers := Function.update s.readers t pc }

@[simp] theorem readers_goto_self (s : SharedIndex T) (t : T) (pc : ReaderPc) :
    (s.goto t pc).readers t = pc := Function.update_self ..

theorem readers_goto_of_ne (s : SharedIndex T) {t u : T} (h : u ≠ t) (pc : ReaderPc) :
    (s.goto t pc).readers u = s.readers u := Function.update_of_ne h ..

/-- A batch has each id once, and every id decodes. -/
def step (s : SharedIndex T) : SharedAct T → Option (SharedIndex T)
  | .batch t events =>
    match s.readers t with
    | .idle =>
      if (events.map claimId).Nodup ∧ ∀ ev ∈ events, (hex32 ev.id).isSome then
        some (s.goto t (.lookup events))
      else none
    | _ => none
  | .lookup t =>
    match s.readers t with
    | .lookup batch => some (s.goto t (.plan batch (batch.map fun ev => claimId ev ∈ s.store)))
    | _ => none
  | .plan t =>
    match s.readers t with
    | .plan batch known =>
      let plan := planIndexWork (batch.map claimId) known fun id => id ∈ s.pending
      some (s.goto t (.index (plan.work batch) []))
    | _ => none
  | .index t ok =>
    match s.readers t with
    | .index ((ev, id) :: work) okIds =>
      if ok then
        some ({ s with docs := s.docs ++ [ev] }.goto t (.index work (okIds ++ id.toList)))
      else some (s.goto t (.index work okIds))
    | _ => none
  | .extend t =>
    match s.readers t with
    | .index [] okIds => some ({ s with pending := s.pending ∪ okIds.toFinset }.goto t .idle)
    | _ => none
  | .take =>
    match s.taken with
    | none => some { s with pending := ∅, taken := some s.pending }
    | some _ => none
  | .flush ok =>
    match s.taken with
    | some ids => some { s with taken := none, store := if ok then s.store ∪ ids else s.store }
    | none => none
  | .process ev ok =>
    if (hex32 ev.id).isSome then
      if ok then
        some { s with docs := s.docs ++ [ev], indexed := s.indexed ++ (hex32 ev.id).toList }
      else some s
    else none
  | .record ok =>
    if ok then some { s with store := s.store ∪ s.indexed.toFinset, indexed := [] } else some s

theorem step_plan {s s' : SharedIndex T} {t : T} (h : step s (.plan t) = some s') :
    ∃ batch known, s.readers t = .plan batch known ∧ s' = s.goto t (.index
      ((planIndexWork (batch.map claimId) known fun id => id ∈ s.pending).work batch) []) := by
  simp only [step] at h
  split at h
  case h_1 batch known hcur => exact ⟨batch, known, hcur, (Option.some.inj h).symm⟩
  case h_2 => cases h

theorem step_process {s s' : SharedIndex T} {ev : NostrEvent}
    (h : step s (.process ev true) = some s') : s' = { s with
      docs := s.docs ++ [ev]
      indexed := s.indexed ++ (hex32 ev.id).toList } := by
  simp only [step, Option.ite_none_right_eq_some, if_true, Option.some.injEq] at h
  exact h.2.symm

def Documented (s : SharedIndex T) (id : Bytes32) : Prop := id ∈ s.docs.map claimId

/-- No document has the id, and no reader is going to write one. -/
def Free (s : SharedIndex T) (id : Bytes32) : Prop :=
  ¬ s.Documented id ∧ ∀ u, id ∉ (s.readers u).ids

/-- Whatever a reader plans to index is free, and so is what the writer is sent. -/
def Apart (s : SharedIndex T) : SharedAct T → Prop
  | .plan t => ∀ batch known, s.readers t = .plan batch known → ∀ entry ∈ batch.zipIdx,
      needsIndex known (fun id => id ∈ s.pending) entry = true → s.Free (claimId entry.1)
  | .process ev true => s.Free (claimId ev)
  | _ => True

/-- What a reader is going to index has no document. -/
structure ReaderOk (docs : List NostrEvent) (pc : ReaderPc) : Prop where
  batch : (pc.batch.map claimId).Nodup
  nodup : pc.ids.Nodup
  fresh : ∀ id ∈ pc.ids, id ∉ docs.map claimId

structure Inv (s : SharedIndex T) : Prop where
  docs : (s.docs.map claimId).Nodup
  readers : ∀ t, ReaderOk s.docs (s.readers t)
  apart : ∀ t u, t ≠ u → ∀ id ∈ (s.readers t).ids, id ∉ (s.readers u).ids

variable {s s' : SharedIndex T}

theorem readerOk_nil {docs : List NostrEvent} {pc : ReaderPc} (hbatch : (pc.batch.map claimId).Nodup)
    (hids : pc.ids = []) : ReaderOk docs pc := by
  refine ⟨hbatch, ?_, ?_⟩
  · rw [hids]
    exact List.nodup_nil
  · rw [hids]
    exact fun _ hid => absurd hid List.not_mem_nil

omit [DecidableEq T] in
theorem inv_start {docs : List NostrEvent} {store : Finset Bytes32}
    (hdocs : (docs.map claimId).Nodup) : (start docs store : SharedIndex T).Inv :=
  ⟨hdocs, fun _ => readerOk_nil List.nodup_nil rfl, fun _ _ _ _ hid => absurd hid List.not_mem_nil⟩

/-- A reader goes on with no document written. -/
theorem Inv.goto (h : s.Inv) {t : T} {pc : ReaderPc} (hpc : ReaderOk s.docs pc)
    (hothers : ∀ u, u ≠ t → ∀ id ∈ pc.ids, id ∉ (s.readers u).ids) : (s.goto t pc).Inv := by
  refine ⟨h.docs, (Function.forall_update_iff s.readers fun _ => ReaderOk s.docs).mpr
    ⟨hpc, fun u _ => h.readers u⟩, ?_⟩
  intro u v huv id hid
  by_cases hu : u = t
  · subst hu
    rw [readers_goto_self] at hid
    rw [readers_goto_of_ne s huv.symm]
    exact hothers v huv.symm id hid
  · rw [readers_goto_of_ne s hu] at hid
    by_cases hv : v = t
    · subst hv
      rw [readers_goto_self]
      exact fun hmem => hothers u hu id hmem hid
    · rw [readers_goto_of_ne s hv]
      exact h.apart u v huv id hid

/-- A reader goes on with nothing to index. -/
theorem Inv.goto_nil (h : s.Inv) {t : T} {pc : ReaderPc} (hbatch : (pc.batch.map claimId).Nodup)
    (hids : pc.ids = []) : (s.goto t pc).Inv := by
  apply h.goto (readerOk_nil hbatch hids)
  rw [hids]
  exact fun _ _ _ hid => absurd hid List.not_mem_nil

omit [DecidableEq T] in
/-- A document is written whose id no reader is going to write. -/
theorem Inv.written (h : s.Inv) {ev : NostrEvent} (hfree : s.Free (claimId ev)) (indexed : List Bytes32) :
    ({ s with docs := s.docs ++ [ev], indexed := indexed } : SharedIndex T).Inv := by
  refine ⟨?_, ?_, h.apart⟩
  · show ((s.docs ++ [ev]).map claimId).Nodup
    rw [List.map_append, List.map_singleton, ← List.concat_eq_append]
    exact h.docs.concat hfree.1
  · intro t
    refine ⟨(h.readers t).batch, (h.readers t).nodup, ?_⟩
    intro id hid
    show id ∉ (s.docs ++ [ev]).map claimId
    rw [List.map_append, List.map_singleton, List.mem_append, List.mem_singleton]
    rintro (hold | rfl)
    · exact (h.readers t).fresh id hid hold
    · exact hfree.2 t hid

/-- What a plan is going to index. -/
theorem ids_planned (batch : List NostrEvent) (known : List Bool) (pending : Bytes32 → Bool) :
    ReaderPc.ids (.index ((planIndexWork (batch.map claimId) known pending).work batch) []) =
      (batch.zipIdx.filter (needsIndex known pending)).map fun entry => claimId entry.1 := by
  rw [ReaderPc.ids, planned, List.map_map]
  rfl

/-- A plan has each id of its batch at most once. -/
theorem nodup_planned {batch : List NostrEvent} (h : (batch.map claimId).Nodup) (known : List Bool)
    (pending : Bytes32 → Bool) :
    ((batch.zipIdx.filter (needsIndex known pending)).map fun entry => claimId entry.1).Nodup := by
  have hall : batch.zipIdx.map (fun entry => claimId entry.1) = batch.map claimId := by
    show batch.zipIdx.map (claimId ∘ Prod.fst) = _
    rw [← List.map_map, List.zipIdx_map_fst]
  have hsub : ((batch.zipIdx.filter (needsIndex known pending)).map
      fun entry => claimId entry.1).Sublist (batch.map claimId) := by
    rw [← hall]
    exact List.filter_sublist.map _
  exact hsub.nodup h

theorem Inv.plan (h : s.Inv) {t : T} (hok : s.Apart (.plan t)) (hstep : step s (.plan t) = some s') :
    s'.Inv := by
  have hpc := h.readers t
  obtain ⟨batch, known, hcur, rfl⟩ := step_plan hstep
  rw [hcur] at hpc
  -- nobody has or is going to index what neither lookup found
  have hfree : ∀ id ∈ ReaderPc.ids (.index ((planIndexWork (batch.map claimId) known
      fun id => id ∈ s.pending).work batch) []), s.Free id := by
    rw [ids_planned]
    intro id hid
    obtain ⟨entry, hentry, rfl⟩ := List.mem_map.mp hid
    obtain ⟨hin, hneeds⟩ := List.mem_filter.mp hentry
    exact hok batch known hcur entry hin hneeds
  apply h.goto
  · refine ⟨List.nodup_nil, ?_, fun id hid => (hfree id hid).1⟩
    rw [ids_planned]
    exact nodup_planned hpc.batch known _
  · exact fun u _ id hid => (hfree id hid).2 u

/-- The next event of a reader is free but for the reader. -/
theorem Inv.index (h : s.Inv) {t : T} {ok : Bool} (hstep : step s (.index t ok) = some s') :
    s'.Inv := by
  have hpc := h.readers t
  have hothers := h.apart t
  simp only [step] at hstep
  split at hstep
  case h_2 => cases hstep
  case h_1 ev id work okIds hcur =>
    rw [hcur] at hpc hothers
    have hnodup : (claimId ev :: work.map fun w => claimId w.1).Nodup := hpc.nodup
    rw [List.nodup_cons] at hnodup
    -- first the reader goes on, and then the document is there
    have hrest : ∀ okIds', (s.goto t (.index work okIds')).Inv := by
      intro okIds'
      apply h.goto
      · refine ⟨List.nodup_nil, hnodup.2, fun id hid => ?_⟩
        exact hpc.fresh id (List.mem_cons_of_mem _ hid)
      · exact fun u hu id hid => hothers u hu.symm id (List.mem_cons_of_mem _ hid)
    cases ok with
    | false =>
      rw [← Option.some.inj hstep]
      exact hrest okIds
    | true =>
      rw [← Option.some.inj hstep]
      apply (hrest (okIds ++ id.toList)).written
      refine ⟨hpc.fresh _ List.mem_cons_self, fun u => ?_⟩
      by_cases hu : u = t
      · subst hu
        rw [readers_goto_self]
        exact hnodup.1
      · rw [readers_goto_of_ne s hu]
        exact hothers u (Ne.symm hu) _ List.mem_cons_self

theorem inv_step {a : SharedAct T} (h : s.Inv) (hok : s.Apart a) (hstep : step s a = some s') :
    s'.Inv := by
  cases a with
  | plan t => exact h.plan hok hstep
  | index t ok => exact h.index hstep
  | batch t events =>
    simp only [step] at hstep
    split at hstep
    case h_2 => cases hstep
    case h_1 =>
      split at hstep
      case isFalse => cases hstep
      case isTrue hbatch =>
        rw [← Option.some.inj hstep]
        exact h.goto_nil hbatch.1 rfl
  | lookup t =>
    have hpc := h.readers t
    simp only [step] at hstep
    split at hstep
    case h_2 => cases hstep
    case h_1 batch hcur =>
      rw [← Option.some.inj hstep]
      rw [hcur] at hpc
      exact h.goto_nil hpc.batch rfl
  | extend t =>
    simp only [step] at hstep
    split at hstep
    case h_2 => cases hstep
    case h_1 =>
      rw [← Option.some.inj hstep]
      -- what is claimed is no part of the invariant
      have hpending : ∀ pending, ({ s with pending := pending } : SharedIndex T).Inv :=
        fun _ => ⟨h.docs, h.readers, h.apart⟩
      exact (hpending _).goto_nil List.nodup_nil rfl
  | take =>
    simp only [step] at hstep
    split at hstep
    · rw [← Option.some.inj hstep]
      exact ⟨h.docs, h.readers, h.apart⟩
    · cases hstep
  | flush ok =>
    simp only [step] at hstep
    split at hstep
    · rw [← Option.some.inj hstep]
      exact ⟨h.docs, h.readers, h.apart⟩
    · cases hstep
  | process ev ok =>
    cases ok with
    | false =>
      simp only [step, Option.ite_none_right_eq_some] at hstep
      rw [← Option.some.inj hstep.2]
      exact h
    | true =>
      rw [step_process hstep]
      exact h.written hok _
  | record ok =>
    cases ok with
    | false =>
      rw [← Option.some.inj hstep]
      exact h
    | true =>
      rw [← Option.some.inj hstep]
      exact ⟨h.docs, h.readers, h.apart⟩

/-- A reader can go on until it has written any of the ids it is going to index. -/
theorem writes_planned {t : T} {id : Bytes32} (hid : id ∈ (s.readers t).ids) :
    ∃ (bs : List (SharedAct T)) (v : SharedIndex T) (new : List NostrEvent),
      (∀ b ∈ bs, b = .index t true) ∧ run step s bs = some v ∧ v.docs = s.docs ++ new ∧
        id ∈ new.map claimId ∧ ∀ u, u ≠ t → v.readers u = s.readers u := by
  cases hcur : s.readers t with
  | idle | lookup | plan =>
    rw [hcur] at hid
    exact absurd hid List.not_mem_nil
  | index work okIds =>
    rw [hcur] at hid
    induction work generalizing s okIds with
    | nil => exact absurd hid List.not_mem_nil
    | cons w work ih =>
      let next := { s with docs := s.docs ++ [w.1] }.goto t (.index work (okIds ++ w.2.toList))
      have hstep : step s (.index t true) = some next := by
        simp only [step, hcur]
        rfl
      have hothers : ∀ u, u ≠ t → next.readers u = s.readers u :=
        fun u hu => readers_goto_of_ne _ hu _
      rcases List.mem_cons.mp hid with rfl | hlater
      · refine ⟨[.index t true], next, [w.1], by simp, ?_, rfl, by simp, hothers⟩
        rw [run_cons, hstep]
        rfl
      · have hnext : next.readers t = .index work (okIds ++ w.2.toList) := Function.update_self ..
        obtain ⟨bs, v, new, hbs, hrun, hdocs, hnew, hv⟩ := ih _ hlater hnext
        refine ⟨.index t true :: bs, v, w.1 :: new, ?_, ?_, ?_, ?_, ?_⟩
        · exact List.forall_mem_cons.mpr ⟨rfl, hbs⟩
        · exact run_cons_some.mpr ⟨next, hstep, hrun⟩
        · rw [hdocs]
          show s.docs ++ [w.1] ++ new = _
          rw [List.append_assoc, List.singleton_append]
        · exact List.mem_cons_of_mem _ hnew
        · exact fun u hu => (hv u hu).trans (hothers u hu)

/-- No id has two documents, nor will it when the readers index some of what they have planned. -/
def OneEach (s : SharedIndex T) : Prop :=
  ∀ bs : List (SharedAct T), (∀ b ∈ bs, ∃ t, b = .index t true) → ∀ v, run step s bs = some v →
    (v.docs.map claimId).Nodup

omit [DecidableEq T] in
theorem not_nodup_append {docs new : List NostrEvent} {id : Bytes32} (hold : id ∈ docs.map claimId)
    (hnew : id ∈ new.map claimId) : ¬ ((docs ++ new).map claimId).Nodup := by
  intro hnodup
  rw [List.map_append, List.nodup_append] at hnodup
  exact hnodup.2.2 id hold id hnew rfl

/-- An id that has a document, and that a reader is going to write, gets a second one. -/
theorem not_oneEach {t : T} {id : Bytes32} (hdoc : s.Documented id) (hid : id ∈ (s.readers t).ids) :
    ¬ s.OneEach := by
  obtain ⟨bs, v, new, hbs, hrun, hdocs, hnew, -⟩ := writes_planned hid
  intro heach
  have hnodup := heach bs (fun b hb => ⟨t, hbs b hb⟩) v hrun
  rw [hdocs] at hnodup
  exact not_nodup_append hdoc hnew hnodup

/-- An id that two readers are going to write gets two documents. -/
theorem not_oneEach_of_two {t u : T} (htu : u ≠ t) {id : Bytes32} (ht : id ∈ (s.readers t).ids)
    (hu : id ∈ (s.readers u).ids) : ¬ s.OneEach := by
  obtain ⟨bs, v, new, hbs, hrun, hdocs, hnew, hothers⟩ := writes_planned ht
  have hdoc : v.Documented id := by
    rw [Documented, hdocs, List.map_append]
    exact List.mem_append_right _ hnew
  rw [← hothers u htu] at hu
  intro heach
  apply not_oneEach hdoc hu
  intro cs hcs w hw
  apply heach (bs ++ cs)
  · intro b hb
    rcases List.mem_append.mp hb with hb | hb
    · exact ⟨t, hbs b hb⟩
    · exact hcs b hb
  · exact run_append_some.mpr ⟨v, hrun, hw⟩

theorem not_oneEach_step {a : SharedAct T} (hnot : ¬ s.Apart a) (hstep : step s a = some s') :
    ¬ s'.OneEach := by
  match a with
  | .process ev true =>
    rw [step_process hstep]
    have hwritten : claimId ev ∈ (s.docs ++ [ev]).map claimId := by simp
    rw [Apart, Free, not_and_or, not_not, not_forall] at hnot
    rcases hnot with hdoc | ⟨u, hu⟩
    · intro heach
      exact not_nodup_append hdoc (by simp) (heach [] (by simp) _ rfl)
    · rw [not_not] at hu
      exact not_oneEach hwritten hu
  | .plan t =>
    obtain ⟨batch, known, hcur, rfl⟩ := step_plan hstep
    simp only [Apart, not_forall] at hnot
    obtain ⟨batch', known', hcur', entry, hin, hneeds, hnot⟩ := hnot
    rw [hcur] at hcur'
    obtain ⟨rfl, rfl⟩ := ReaderPc.plan.inj hcur'
    -- the reader is going to index the event
    have hid : claimId entry.1 ∈ ((s.goto t (.index ((planIndexWork (batch.map claimId) known
        fun id => id ∈ s.pending).work batch) [])).readers t).ids := by
      rw [readers_goto_self, ids_planned]
      exact List.mem_map.mpr ⟨entry, List.mem_filter.mpr ⟨hin, hneeds⟩, rfl⟩
    rw [Free, not_and_or, not_not, not_forall] at hnot
    rcases hnot with hdoc | ⟨u, hu⟩
    · exact not_oneEach hdoc hid
    · rw [not_not] at hu
      have hut : u ≠ t := by
        rintro rfl
        rw [hcur] at hu
        exact absurd hu List.not_mem_nil
      apply not_oneEach_of_two hut hid
      rw [readers_goto_of_ne s hut]
      exact hu
  | .batch _ _ | .lookup _ | .index _ _ | .extend _ | .take | .flush _ | .process _ false
  | .record _ => exact absurd trivial hnot

theorem Inv.oneEach (h : s.Inv) : s.OneEach := by
  intro bs
  induction bs generalizing s with
  | nil =>
    rintro - v hv
    rw [← Option.some.inj hv]
    exact h.docs
  | cons b bs ih =>
    intro hbs v hv
    obtain ⟨⟨t, rfl⟩, hrest⟩ := List.forall_mem_cons.mp hbs
    obtain ⟨s', hstep, hrun⟩ := run_cons_some.mp hv
    exact ih (h.index hstep) hrest v hrun

/-- It takes just that: a step that is not apart leaves a state from which the readers alone come to
a second document. -/
theorem oneEach_iff_apart {docs : List NostrEvent} {store : Finset Bytes32}
    (hdocs : (docs.map claimId).Nodup) (as : List (SharedAct T)) :
    (∀ u, Visited step (start docs store) as u → u.OneEach) ↔
      Along step Apart (start docs store) as :=
  visited_iff_along (p := fun _ => True) (fun _ _ _ h _ hok hstep => inv_step h hok hstep)
    (fun _ h => h.oneEach) (fun _ _ _ _ _ hnot hstep => not_oneEach_step hnot hstep)
    (inv_start hdocs) fun _ _ => trivial

section Runs

end Runs

end SharedIndex

end NostrSearch.Server
