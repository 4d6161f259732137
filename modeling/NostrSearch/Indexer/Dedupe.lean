import NostrSearch.Indexer.Ingest

/-!
# Deduplication

An indexing pass with dedupe on, one batch after another. A batch is looked up in the id store and
in the set of pending ids, which a checkpoint moves to the store; what is in neither is indexed,
and its ids are pending after the batch. Within a batch nothing is compared, and an id that does
not decode is claimed as zeros.

`planned` says what a plan comes to. An event is written by each of its occurrences in the first
batch that has its claim id, if that was not claimed at the start, and by no other
(`count_written`). So each new event gets one document if and only if it is alone in that batch
(`documented_once_iff`).
-/

namespace NostrSearch.Indexer

open NostrSearch.Core

/-! ## Plans -/

/-- Whether an event, at a position of its batch, needs indexing. -/
def needsIndex (known : List Bool) (pending : Bytes32 → Bool) (entry : NostrEvent × ℕ) : Bool :=
  !(known.getD entry.2 false || pending (claimId entry.1))

private theorem foldl_add (known : List Bool) (pending : Bytes32 → Bool)
    (entries : List (NostrEvent × ℕ)) (plan : IndexPlan) :
    let r := (entries.map (Prod.map claimId id)).foldl (IndexPlan.add known pending) plan
    r.toIndex = plan.toIndex ++ (entries.filter (needsIndex known pending)).map Prod.snd ∧
      r.newIds = plan.newIds ++
        (entries.filter (needsIndex known pending)).map fun entry => claimId entry.1 := by
  induction entries generalizing plan with
  | nil => simp
  | cons entry entries ih =>
    obtain ⟨hindex, hids⟩ := ih (plan.add known pending (Prod.map claimId id entry))
    rw [List.map_cons, List.foldl_cons]
    -- an entry is planned or skipped by itself: the plan so far is not looked at
    by_cases hneeds : needsIndex known pending entry = true
    · have hadd : plan.add known pending (Prod.map claimId id entry) =
          { plan with
            toIndex := plan.toIndex ++ [entry.2], newIds := plan.newIds ++ [claimId entry.1] } := by
        rw [needsIndex, Bool.not_eq_true'] at hneeds
        show (if (known.getD entry.2 false || pending (claimId entry.1)) = true then _ else _) = _
        rw [hneeds]
        rfl
      rw [List.filter_cons_of_pos hneeds]
      constructor
      · rw [hindex, hadd]
        simp
      · rw [hids, hadd]
        simp
    · have hadd : plan.add known pending (Prod.map claimId id entry) =
          { plan with skipped := plan.skipped + 1 } := by
        rw [needsIndex, Bool.not_eq_true', Bool.not_eq_false] at hneeds
        show (if (known.getD entry.2 false || pending (claimId entry.1)) = true then _ else _) = _
        rw [hneeds]
        rfl
      rw [List.filter_cons_of_neg hneeds]
      constructor
      · rw [hindex, hadd]
      · rw [hids, hadd]

/-- **`plan_index_work`.** The events of the batch that need indexing, in order, each with its own
claim id. -/
theorem planned (batch : List NostrEvent) (known : List Bool) (pending : Bytes32 → Bool) :
    (planIndexWork (batch.map claimId) known pending).work batch =
      (batch.zipIdx.filter (needsIndex known pending)).map
        fun entry => (entry.1, some (claimId entry.1)) := by
  obtain ⟨hindex, hids⟩ := foldl_add known pending batch.zipIdx
    { toIndex := [], newIds := [], skipped := 0 }
  have hplan : planIndexWork (batch.map claimId) known pending =
      (batch.zipIdx.map (Prod.map claimId id)).foldl (IndexPlan.add known pending)
        { toIndex := [], newIds := [], skipped := 0 } := by
    rw [planIndexWork, List.zipIdx_map]
  rw [← hplan, List.nil_append] at hindex hids
  have hmem : ∀ entry ∈ batch.zipIdx.filter (needsIndex known pending),
      batch[entry.2]? = some entry.1 := by
    intro entry hentry
    exact List.mem_zipIdx_iff_getElem?.mp (List.mem_filter.mp hentry).1
  rw [IndexPlan.work, hindex, hids]
  generalize batch.zipIdx.filter (needsIndex known pending) = entries at hmem ⊢
  -- position `n` of the plan has entry `n`
  rw [List.zipIdx_map, List.filterMap_map]
  calc entries.zipIdx.filterMap _
      = entries.zipIdx.filterMap (some ∘ fun x => (x.1.1, some (claimId x.1.1))) := by
        apply List.filterMap_congr
        rintro ⟨entry, n⟩ hx
        have hat := List.mem_zipIdx_iff_getElem?.mp hx
        have hin := hmem entry (List.mem_of_getElem? hat)
        simp only [Function.comp_apply, Prod.map_apply, id_eq, hin, Option.map_some,
          List.getElem?_map]
        rw [hat]
        rfl
    _ = entries.map fun entry => (entry.1, some (claimId entry.1)) := by
        rw [List.filterMap_eq_map]
        show entries.zipIdx.map
          ((fun entry : NostrEvent × ℕ => (entry.1, some (claimId entry.1))) ∘ Prod.fst) = _
        rw [← List.map_map, List.zipIdx_map_fst]

/-! ## One batch after another -/

/-- A deduped ingest between two batches: the id store, the pending ids and the documents. -/
structure Dedupe where
  store : Finset Bytes32
  pending : Finset Bytes32
  docs : List NostrEvent

inductive DedupeAct
  /-- a batch goes through the indexing pass, and `index_event` returns `Ok` for each event -/
  | batch (events : List NostrEvent)
  /-- `commit_and_claim` -/
  | checkpoint

namespace Dedupe

/-- An index with these documents, and an id store that has their ids. -/
def start (docs : List NostrEvent) : Dedupe :=
  { store := (docs.map claimId).toFinset, pending := ∅, docs := docs }

/-- What the batch still has to index. -/
def work (s : Dedupe) (batch : List NostrEvent) : List (NostrEvent × Option Bytes32) :=
  (planIndexWork (batch.map claimId) (batch.map fun ev => claimId ev ∈ s.store)
    fun id => id ∈ s.pending).work batch

def step (s : Dedupe) : DedupeAct → Dedupe
  | .batch events =>
    { s with
      pending := s.pending ∪ ((s.work events).filterMap Prod.snd).toFinset
      docs := s.docs ++ (s.work events).map Prod.fst }
  | .checkpoint => { s with store := s.store ∪ s.pending, pending := ∅ }

/-- The batches of a sequence of steps. -/
def batches (as : List DedupeAct) : List (List NostrEvent) :=
  as.filterMap fun
    | .batch events => some events
    | .checkpoint => none

/-- How many documents have this id. -/
def documents (s : Dedupe) (id : String) : ℕ := (s.docs.map NostrEvent.id).count id

/-- Every event whose id was not indexed at the start has one document at the end. -/
def DocumentedOnce (docs : List NostrEvent) (as : List DedupeAct) : Prop :=
  ∀ ev ∈ (batches as).flatten, ev.id ∉ docs.map NostrEvent.id →
    (as.foldl step (start docs)).documents ev.id = 1

/-- No document at the start has the claim id of a new event, and in the first batch that has it,
the event's id is there once. -/
def AloneInFirst (docs : List NostrEvent) (batches : List (List NostrEvent)) : Prop :=
  ∀ ev ∈ batches.flatten, ev.id ∉ docs.map NostrEvent.id →
    claimId ev ∉ docs.map claimId ∧
      ∀ first, batches.find? (fun batch => claimId ev ∈ batch.map claimId) = some first →
        (first.map NostrEvent.id).count ev.id = 1

/-- What some batches add to the index when these ids are claimed. -/
def written (claimed : Finset Bytes32) : List (List NostrEvent) → List NostrEvent
  | [] => []
  | batch :: rest =>
    batch.filter (fun ev => claimId ev ∉ claimed) ++
      written (claimed ∪ (batch.map claimId).toFinset) rest

/-- The events in neither the store nor the pending set. -/
theorem work_eq (s : Dedupe) (batch : List NostrEvent) :
    s.work batch = (batch.filter fun ev => claimId ev ∉ s.store ∪ s.pending).map
      fun ev => (ev, some (claimId ev)) := by
  rw [work, planned]
  have hfilter : batch.zipIdx.filter (needsIndex (batch.map fun ev => claimId ev ∈ s.store)
      fun id => id ∈ s.pending) =
        batch.zipIdx.filter ((fun ev => decide (claimId ev ∉ s.store ∪ s.pending)) ∘ Prod.fst) := by
    apply List.filter_congr
    rintro ⟨ev, i⟩ hentry
    have hin := List.mem_zipIdx_iff_getElem?.mp hentry
    simp only at hin
    simp [needsIndex, List.getElem?_map, hin, Finset.mem_union]
  rw [hfilter]
  show (batch.zipIdx.filter _).map ((fun ev => (ev, some (claimId ev))) ∘ Prod.fst) = _
  rw [← List.map_map, ← List.filter_map, List.zipIdx_map_fst]

theorem docs_foldl (as : List DedupeAct) (s : Dedupe) :
    (as.foldl step s).docs = s.docs ++ written (s.store ∪ s.pending) (batches as) := by
  induction as generalizing s with
  | nil => exact (List.append_nil _).symm
  | cons a as ih =>
    rw [List.foldl_cons, ih]
    cases a with
    | checkpoint =>
      -- a checkpoint moves ids from one set to the other
      show s.docs ++ written (s.store ∪ s.pending ∪ ∅) (batches as) = _
      rw [Finset.union_empty]
      rfl
    | batch events =>
      -- what was claimed before is claimed with what the batch has
      have hclaimed : (s.step (.batch events)).store ∪ (s.step (.batch events)).pending =
          s.store ∪ s.pending ∪ (events.map claimId).toFinset := by
        show s.store ∪ (s.pending ∪ ((s.work events).filterMap Prod.snd).toFinset) = _
        rw [← Finset.union_assoc]
        ext id
        rw [work_eq, List.filterMap_map]
        simp only [Finset.mem_union, List.mem_toFinset, List.mem_filterMap, List.mem_filter,
          List.mem_map, Function.comp_apply, Option.some.injEq, decide_eq_true_eq]
        constructor
        · rintro (hold | ⟨ev, ⟨hev, -⟩, rfl⟩)
          · exact Or.inl hold
          · exact Or.inr ⟨ev, hev, rfl⟩
        · rintro (hold | ⟨ev, hev, rfl⟩)
          · exact Or.inl hold
          · by_cases hold : claimId ev ∈ s.store ∨ claimId ev ∈ s.pending
            · exact Or.inl hold
            · exact Or.inr ⟨ev, ⟨hev, hold⟩, rfl⟩
      show s.docs ++ (s.work events).map Prod.fst ++ written _ (batches as) = _
      rw [hclaimed, work_eq, List.map_map]
      show s.docs ++ (events.filter _).map id ++ _ = _
      rw [List.map_id, List.append_assoc]
      rfl

/-- Events with one id have one claim id. -/
theorem claimId_of_id {ev ev' : NostrEvent} (h : ev'.id = ev.id) : claimId ev' = claimId ev := by
  rw [claimId, claimId, h]

/-- A new event is written as often as it is in the first batch that has its claim id, if that was
not claimed before. -/
theorem count_written (ev : NostrEvent) (claimed : Finset Bytes32) (bs : List (List NostrEvent)) :
    ((written claimed bs).map NostrEvent.id).count ev.id =
      if claimId ev ∈ claimed then 0
      else ((bs.find? fun batch => claimId ev ∈ batch.map claimId).elim 0
        fun first => (first.map NostrEvent.id).count ev.id) := by
  induction bs generalizing claimed with
  | nil => simp [written]
  | cons batch rest ih =>
    rw [written, List.map_append, List.count_append, ih]
    by_cases hclaimed : claimId ev ∈ claimed
    -- no batch writes an id that is claimed
    · have hnone : ev.id ∉ (batch.filter fun ev => claimId ev ∉ claimed).map NostrEvent.id := by
        intro hmem
        obtain ⟨other, hother, hid⟩ := List.mem_map.mp hmem
        have hnot := (List.mem_filter.mp hother).2
        rw [decide_eq_true_eq, claimId_of_id hid] at hnot
        exact hnot hclaimed
      rw [List.count_eq_zero.mpr hnone, if_pos (Finset.mem_union_left _ hclaimed), if_pos hclaimed]
    · by_cases hbatch : claimId ev ∈ batch.map claimId
      · -- this is the first batch, and the later ones are skipped
        have hcount : ((batch.filter fun ev => claimId ev ∉ claimed).map NostrEvent.id).count ev.id =
            (batch.map NostrEvent.id).count ev.id := by
          rw [List.count_eq_countP, List.countP_map, List.countP_filter, List.count_eq_countP,
            List.countP_map]
          apply List.countP_congr
          intro other _
          simp only [Function.comp_apply, Bool.and_eq_true, beq_iff_eq, decide_eq_true_eq]
          constructor
          · exact And.left
          · intro hid
            exact ⟨hid, by rw [claimId_of_id hid]; exact hclaimed⟩
        rw [hcount, if_pos (Finset.mem_union_right _ (List.mem_toFinset.mpr hbatch)),
          if_neg hclaimed, List.find?_cons_of_pos (by simpa using hbatch), Option.elim_some]
        omega
      · have hnone : ev.id ∉ (batch.filter fun ev => claimId ev ∉ claimed).map NostrEvent.id := by
          intro hmem
          obtain ⟨other, hother, hid⟩ := List.mem_map.mp hmem
          apply hbatch
          rw [← claimId_of_id hid]
          exact List.mem_map_of_mem (List.mem_filter.mp hother).1
        -- the batch has nothing under the claim id, and claims it for nobody
        have hstill : claimId ev ∉ claimed ∪ (batch.map claimId).toFinset := by
          rw [Finset.mem_union, List.mem_toFinset]
          exact not_or.mpr ⟨hclaimed, hbatch⟩
        rw [List.count_eq_zero.mpr hnone, if_neg hstill, if_neg hclaimed,
          List.find?_cons_of_neg (by simpa using hbatch)]
        omega

/-- **Dedupe.** Each event that was not indexed before gets one document, if and only if no document
had its claim id and it is alone, among the events of its id, in the first batch that has that. -/
theorem documented_once_iff (docs : List NostrEvent) (as : List DedupeAct) :
    DocumentedOnce docs as ↔ AloneInFirst docs (batches as) := by
  apply forall_congr'
  intro ev
  refine imp_congr_right fun hev => imp_congr_right fun hnew => ?_
  have hzero : (docs.map NostrEvent.id).count ev.id = 0 := List.count_eq_zero.mpr hnew
  have hstore : claimId ev ∈ (docs.map claimId).toFinset ∪ ∅ ↔ claimId ev ∈ docs.map claimId := by
    rw [Finset.union_empty, List.mem_toFinset]
  rw [documents, docs_foldl, List.map_append, List.count_append]
  show (docs.map NostrEvent.id).count ev.id +
    ((written ((docs.map claimId).toFinset ∪ ∅) (batches as)).map NostrEvent.id).count ev.id = 1 ↔ _
  rw [hzero, count_written, Nat.zero_add]
  simp only [hstore]
  obtain ⟨batch, hbatch, hin⟩ := List.mem_flatten.mp hev
  -- some batch has the event, so there is a first one
  have hsome : ((batches as).find? fun batch => claimId ev ∈ batch.map claimId).isSome = true := by
    rw [List.find?_isSome]
    exact ⟨batch, hbatch, by simpa using ⟨ev, hin, rfl⟩⟩
  obtain ⟨first, hfirst⟩ := Option.isSome_iff_exists.mp hsome
  rw [hfirst, Option.elim_some]
  by_cases hclaimed : claimId ev ∈ docs.map claimId
  · rw [if_pos hclaimed]
    simp [hclaimed]
  · rw [if_neg hclaimed]
    simp [hclaimed]

/-! ## A repetition and a shared claim id -/

section Runs

private def noted (id : String) : NostrEvent :=
  { id := id, pubkey := "", createdAt := 1700000000, kind := 1, tags := [], content := "", sig := "" }

private def validId : String := "5c83da77af1dec6d7289834998ad7aafbd9e2191396d75ec3cc27f5a77226f36"

/-- An event twice in one batch has two documents, and of two events whose ids do not decode, in two
batches, the second has none. -/
theorem repeated_and_malformed :
    ((([.batch [noted validId, noted validId]] : List DedupeAct).foldl step (start [])).documents
        validId = 2 ∧
      (([.batch [noted "one"], .checkpoint, .batch [noted "two"]] : List DedupeAct).foldl step
        (start [])).documents "two" = 0) ∧
      ¬ ∀ docs as, DocumentedOnce docs as := by
  have htwice : (([.batch [noted validId, noted validId]] : List DedupeAct).foldl step
      (start [])).documents validId = 2 := by decide +kernel
  refine ⟨⟨htwice, by decide +kernel⟩, fun h => ?_⟩
  have honce := h [] [.batch [noted validId, noted validId]] (noted validId) (by decide) (by decide)
  have : (2 : ℕ) = 1 := htwice.symm.trans honce
  omega

end Runs

end Dedupe

end NostrSearch.Indexer
