import NostrSearch.Core.Event
import NostrSearch.Lib.Run

/-!
# From the archive to the writer

Three kinds of producers save events to the archive and submit them to the writer: the firehose,
whose client saves an event and emits it on a broadcast channel that the firehose task receives
from; the relay, through `NodeDb`; and the scraper units, through `NodeSink`. The archive decides
what is new. An event it has is not fetched again, and not submitted again.

The archive, the client and the channels are not part of this repository. The archive is the set
of the ids it saved, the client emits what it saved first and may emit an event once more, and
each send waits for room.

`holding` is where the ids are: with the producers and in what the writer was sent. `holding_step`
is the law of conservation of a step, up to what the step drops. An archived event stays accounted
for if and only if no step drops the last copy of one (`delivered_iff`).
-/

namespace NostrSearch.Server

open NostrSearch.Core NostrSearch.Lib

inductive SaveEventStatus
  | success
  | duplicate
deriving DecidableEq

/-- `save_event` of the archive. -/
def saveEvent (archive : Finset String) (ev : NostrEvent) : SaveEventStatus × Finset String :=
  if ev.id ∈ archive then (.duplicate, archive) else (.success, insert ev.id archive)

/-- A call of `NodeSink::process`: the event it is sending, and those to come, each with whether
the id store has it. -/
structure ProcessCall where
  sending : Option NostrEvent
  rest : List (NostrEvent × Bool)
deriving DecidableEq

/-- The node, as far as events get to the writer. `sent` is a history variable. -/
structure Delivery where
  archive : Finset String
  /-- ids in the `.dedupe` store -/
  dedupe : Finset String
  /-- saved by the firehose client and not emitted yet -/
  client : Multiset NostrEvent
  /-- whether the firehose task has its receiver -/
  listening : Bool
  /-- emitted and not received yet -/
  broadcast : List NostrEvent
  /-- received by the firehose task, which is sending it -/
  receiver : Option NostrEvent
  /-- saved by the relay, which is sending them -/
  relay : Multiset NostrEvent
  /-- the calls in which the scraper units are -/
  calls : Multiset ProcessCall
  queue : List NostrEvent
  sent : List NostrEvent

inductive DeliveryAct
  /-- the firehose client is given an event; `again` says whether it emits one it had -/
  | receive (ev : NostrEvent) (again : Bool)
  | emit (ev : NostrEvent)
  /-- `client.notifications()` -/
  | listen
  /-- the receiver has lagged, and skips this many -/
  | lag (skipped : ℕ)
  | recv
  /-- the firehose task sends what it received -/
  | forward
  /-- `NodeDb::save_event`, up to the send -/
  | relaySave (ev : NostrEvent)
  | relaySend (ev : NostrEvent)
  /-- a unit calls `process` -/
  | process (events : List NostrEvent)
  /-- the next event of the loop of `process`, up to the send -/
  | next (call : ProcessCall)
  | send (call : ProcessCall)
  /-- the unit timeout cancels the call -/
  | timeout (call : ProcessCall)
  /-- the writer takes an event off its queue -/
  | take
  /-- ids are recorded in the `.dedupe` store -/
  | record (ids : Finset String)

namespace Delivery

/-- A node whose archive has what was sent before. -/
def start (before : List NostrEvent) (dedupe : Finset String) : Delivery :=
  { archive := (before.map NostrEvent.id).toFinset, dedupe := dedupe, client := 0
    listening := false, broadcast := [], receiver := none, relay := 0, calls := 0, queue := []
    sent := before }

/-- `NodeSink::missing`. -/
def missing (s : Delivery) (ids : List String) : List String :=
  ids.filter fun id => !decide (id ∈ s.dedupe) && decide (id ∉ s.archive)

/-- What `process` does with an event: sent if it is in neither store. -/
def wouldSend (s : Delivery) (ev : NostrEvent) : Bool :=
  !decide (ev.id ∈ s.dedupe) && decide ((saveEvent s.archive ev).1 = .success)

/-- An event is put in the queue of the writer. -/
def submit (s : Delivery) (ev : NostrEvent) : Delivery :=
  { s with queue := s.queue ++ [ev], sent := s.sent ++ [ev] }

def hasRoom (queueSize : ℕ) (s : Delivery) : Bool := decide (s.queue.length < queueSize)

def step (queueSize : ℕ) (s : Delivery) : DeliveryAct → Option Delivery
  | .receive ev again =>
    let saved := saveEvent s.archive ev
    some { s with
      archive := saved.2
      client := if saved.1 = .success ∨ again = true then ev ::ₘ s.client else s.client }
  | .emit ev =>
    if ev ∈ s.client then
      some { s with
        client := s.client.erase ev
        broadcast := if s.listening then s.broadcast ++ [ev] else s.broadcast }
    else none
  | .listen => some { s with listening := true }
  | .lag skipped => some { s with broadcast := s.broadcast.drop skipped }
  | .recv =>
    match s.receiver, s.broadcast with
    | none, ev :: rest => some { s with receiver := some ev, broadcast := rest }
    | _, _ => none
  | .forward =>
    match s.receiver with
    | some ev => if s.hasRoom queueSize then some { s.submit ev with receiver := none } else none
    | none => none
  | .relaySave ev =>
    let saved := saveEvent s.archive ev
    some { s with
      archive := saved.2
      relay := if saved.1 = .success then ev ::ₘ s.relay else s.relay }
  | .relaySend ev =>
    if ev ∈ s.relay ∧ s.hasRoom queueSize = true then
      some { s.submit ev with relay := s.relay.erase ev }
    else none
  | .process events =>
    some { s with
      calls := { sending := none, rest := events.map fun ev => (ev, decide (ev.id ∈ s.dedupe)) } ::ₘ
        s.calls }
  | .next call =>
    if call ∈ s.calls ∧ call.sending = none then
      match call.rest with
      | [] => some { s with calls := s.calls.erase call }
      | (_, true) :: rest =>
        some { s with calls := { sending := none, rest := rest } ::ₘ s.calls.erase call }
      | (ev, false) :: rest =>
        let saved := saveEvent s.archive ev
        let sending := if saved.1 = .success then some ev else none
        some { s with
          archive := saved.2
          calls := { sending := sending, rest := rest } ::ₘ s.calls.erase call }
    else none
  | .send call =>
    match call.sending with
    | some ev =>
      if call ∈ s.calls ∧ s.hasRoom queueSize = true then
        some { s.submit ev with calls := { call with sending := none } ::ₘ s.calls.erase call }
      else none
    | none => none
  | .timeout call => if call ∈ s.calls then some { s with calls := s.calls.erase call } else none
  | .take => some { s with queue := s.queue.tail }
  | .record ids => some { s with dedupe := s.dedupe ∪ ids }

/-! ## Where the ids are -/

/-- The ids of some events. -/
def ids (events : Multiset NostrEvent) : Multiset String := events.map NostrEvent.id

def ofOption (ev : Option NostrEvent) : Multiset String := ev.elim 0 fun ev => {ev.id}

/-- The ids that producers hold or that were sent, with one copy for each time. -/
def holding (s : Delivery) : Multiset String :=
  ids s.client + ids s.broadcast + ofOption s.receiver + ids s.relay +
    (s.calls.map fun call => ofOption call.sending).sum + ids s.sent

/-- What a step drops. -/
def dropped (s : Delivery) : DeliveryAct → Multiset String
  | .emit ev => if s.listening then 0 else {ev.id}
  | .lag skipped => ids (s.broadcast.take skipped : List NostrEvent)
  | .timeout call => ofOption call.sending
  | _ => 0

/-- What a step takes up. -/
def taken (s : Delivery) : DeliveryAct → Multiset String
  | .receive ev again =>
    if (saveEvent s.archive ev).1 = .success ∨ again = true then {ev.id} else 0
  | .relaySave ev => if (saveEvent s.archive ev).1 = .success then {ev.id} else 0
  | .next call =>
    match call.rest with
    | (ev, false) :: _ => if (saveEvent s.archive ev).1 = .success then {ev.id} else 0
    | _ => 0
  | _ => 0

/-- A step that drops an event leaves another copy of it. -/
def LeavesCopy (s : Delivery) (a : DeliveryAct) : Prop :=
  ∀ id ∈ s.dropped a, (s.dropped a).count id < s.holding.count id

variable {queueSize : ℕ} {s s' : Delivery}

@[simp] theorem ids_zero : ids 0 = 0 := rfl

@[simp] theorem ids_add (x y : Multiset NostrEvent) : ids (x + y) = ids x + ids y :=
  Multiset.map_add _ _ _

@[simp] theorem ids_cons (ev : NostrEvent) (x : Multiset NostrEvent) :
    ids (ev ::ₘ x) = {ev.id} + ids x := by
  rw [ids, Multiset.map_cons, ← Multiset.singleton_add, ids]

/-- An event is among some, and the others. -/
theorem ids_erase {ev : NostrEvent} {x : Multiset NostrEvent} (h : ev ∈ x) :
    ids x = {ev.id} + ids (x.erase ev) := by
  rw [← ids_cons, Multiset.cons_erase h]

@[simp] theorem ids_singleton (ev : NostrEvent) : ids ([ev] : List NostrEvent) = {ev.id} := rfl

@[simp] theorem ofOption_none : ofOption none = 0 := rfl

@[simp] theorem ofOption_some (ev : NostrEvent) : ofOption (some ev) = {ev.id} := rfl

theorem ids_append (x y : List NostrEvent) :
    ids (x ++ y : List NostrEvent) = ids (x : Multiset NostrEvent) + ids (y : Multiset NostrEvent) := by
  rw [← Multiset.coe_add, ids_add]

/-- A call is among the calls, and the others. -/
theorem sum_erase {call : ProcessCall} {calls : Multiset ProcessCall} (h : call ∈ calls) :
    (calls.map fun c => ofOption c.sending).sum =
      ofOption call.sending + ((calls.erase call).map fun c => ofOption c.sending).sum := by
  conv_lhs => rw [← Multiset.cons_erase h]
  rw [Multiset.map_cons, Multiset.sum_cons]

/-- What is saved is in the archive, next to what was. -/
theorem saveEvent_archive (archive : Finset String) (ev : NostrEvent) :
    (saveEvent archive ev).2 = insert ev.id archive := by
  unfold saveEvent
  split
  case isTrue h => rw [Finset.insert_eq_of_mem h]
  case isFalse => rfl

theorem saveEvent_success {archive : Finset String} {ev : NostrEvent} :
    (saveEvent archive ev).1 = .success ↔ ev.id ∉ archive := by
  unfold saveEvent
  split
  case isTrue h => simp [h]
  case isFalse h => simp [h]

/-- What a save puts into the archive is what its step takes up. -/
theorem saveEvent_taken (archive : Finset String) (ev : NostrEvent) (also : Prop) [Decidable also] :
    (saveEvent archive ev).2 =
      archive ∪ (if (saveEvent archive ev).1 = .success ∨ also then
        ({ev.id} : Multiset String) else 0).toFinset := by
  rw [saveEvent_archive]
  split
  case isTrue => rw [Multiset.toFinset_singleton, Finset.union_comm, Finset.insert_eq]
  case isFalse h =>
    rw [saveEvent_success, not_or, not_not] at h
    simp [h.1]

/-- Both novelty filters of `NodeSink` let the same events through. -/
theorem mem_missing_iff {s : Delivery} {ev : NostrEvent} {asked : List String} :
    ev.id ∈ s.missing asked ↔ ev.id ∈ asked ∧ s.wouldSend ev = true := by
  simp [missing, wouldSend, saveEvent_success]

/-- A call of `process` comes to its next event: the event is sent if the archive saved it, and the
call has it until then. -/
theorem next_law {call : ProcessCall} (h : step queueSize s (.next call) = some s') :
    s'.archive = s.archive ∪ (s.taken (.next call)).toFinset ∧
      s'.holding + s.dropped (.next call) = s.holding + s.taken (.next call) := by
  have hnone : s.archive = s.archive ∪ (0 : Multiset String).toFinset := by simp
  simp only [step, Option.ite_none_right_eq_some] at h
  obtain ⟨⟨hmem, hidle⟩, h⟩ := h
  -- the call has nothing to send
  have hcalls : (s.calls.map fun c => ofOption c.sending).sum =
      ((s.calls.erase call).map fun c => ofOption c.sending).sum := by
    rw [sum_erase hmem, hidle]
    exact zero_add _
  unfold taken
  split at h
  case h_1 hrest =>
    cases h
    simp only [hrest]
    refine ⟨hnone, ?_⟩
    unfold holding dropped
    rw [hcalls]
  case h_2 _ rest hrest =>
    cases h
    simp only [hrest]
    refine ⟨hnone, ?_⟩
    unfold holding dropped
    rw [hcalls]
    simp
  case h_3 ev rest hrest =>
    cases h
    simp only [hrest]
    have harch := saveEvent_taken s.archive ev False
    simp only [or_false] at harch
    refine ⟨harch, ?_⟩
    unfold holding dropped
    rw [hcalls]
    by_cases hnew : (saveEvent s.archive ev).1 = .success
    · simp only [if_pos hnew, Multiset.map_cons, Multiset.sum_cons, ofOption_some]
      abel
    · simp only [if_neg hnew, Multiset.map_cons, Multiset.sum_cons, ofOption_none, zero_add]

/-- **Conservation.** The archive grows by what a step takes up, and what was held before and what
is taken up is held afterwards, or dropped. -/
theorem step_law {a : DeliveryAct} (h : step queueSize s a = some s') :
    s'.archive = s.archive ∪ (s.taken a).toFinset ∧
      s'.holding + s.dropped a = s.holding + s.taken a := by
  have hnone : s.archive = s.archive ∪ (0 : Multiset String).toFinset := by simp
  cases a with
  | receive ev again =>
    cases h
    refine ⟨saveEvent_taken s.archive ev (again = true), ?_⟩
    unfold holding dropped taken
    -- the client takes the event up if it is new, and may emit one it had
    by_cases hnew : (saveEvent s.archive ev).1 = .success ∨ again = true
    · simp only [if_pos hnew, ids_cons]
      abel
    · simp only [if_neg hnew]
  | emit ev =>
    simp only [step, Option.ite_none_right_eq_some, Option.some.injEq] at h
    obtain ⟨hmem, rfl⟩ := h
    refine ⟨hnone, ?_⟩
    unfold holding dropped taken
    rw [ids_erase hmem]
    -- nobody receives what is emitted before there is a receiver
    cases s.listening with
    | true =>
      simp only [if_true, ids_append, ids_singleton]
      abel
    | false =>
      simp only [Bool.false_eq_true, if_false]
      abel
  | listen =>
    cases h
    exact ⟨hnone, rfl⟩
  | lag skipped =>
    cases h
    refine ⟨hnone, ?_⟩
    unfold holding dropped taken
    have hsplit := ids_append (s.broadcast.take skipped) (s.broadcast.drop skipped)
    rw [List.take_append_drop] at hsplit
    simp only [hsplit]
    abel
  | recv =>
    simp only [step] at h
    split at h
    case h_1 ev rest hreceiver hbroadcast =>
      cases h
      refine ⟨hnone, ?_⟩
      unfold holding dropped taken
      simp only [hreceiver, hbroadcast, ← Multiset.cons_coe, ids_cons, ofOption_none, ofOption_some]
      abel
    case h_2 => cases h
  | forward =>
    simp only [step] at h
    split at h
    case h_1 ev hreceiver =>
      simp only [Option.ite_none_right_eq_some, Option.some.injEq] at h
      obtain ⟨-, rfl⟩ := h
      refine ⟨hnone, ?_⟩
      unfold holding dropped taken submit
      simp only [hreceiver, ids_append, ids_singleton, ofOption_none, ofOption_some]
      abel
    case h_2 => cases h
  | relaySave ev =>
    cases h
    have harch := saveEvent_taken s.archive ev False
    simp only [or_false] at harch
    refine ⟨harch, ?_⟩
    unfold holding dropped taken
    by_cases hnew : (saveEvent s.archive ev).1 = .success
    · simp only [if_pos hnew, ids_cons]
      abel
    · simp only [if_neg hnew]
  | relaySend ev =>
    simp only [step, Option.ite_none_right_eq_some, Option.some.injEq] at h
    obtain ⟨⟨hmem, -⟩, rfl⟩ := h
    refine ⟨hnone, ?_⟩
    unfold holding dropped taken submit
    rw [ids_erase hmem]
    simp only [ids_append, ids_singleton]
    abel
  | process events =>
    cases h
    refine ⟨hnone, ?_⟩
    unfold holding dropped taken
    simp
  | next call => exact next_law h
  | send call =>
    simp only [step] at h
    split at h
    case h_1 ev hsending =>
      simp only [Option.ite_none_right_eq_some, Option.some.injEq] at h
      obtain ⟨⟨hmem, -⟩, rfl⟩ := h
      refine ⟨hnone, ?_⟩
      unfold holding dropped taken submit
      rw [sum_erase hmem, hsending]
      simp only [ids_append, ids_singleton, Multiset.map_cons, Multiset.sum_cons, ofOption_none,
        ofOption_some]
      abel
    case h_2 => cases h
  | timeout call =>
    simp only [step, Option.ite_none_right_eq_some, Option.some.injEq] at h
    obtain ⟨hmem, rfl⟩ := h
    refine ⟨hnone, ?_⟩
    unfold holding dropped taken
    rw [sum_erase hmem]
    abel
  | take =>
    cases h
    exact ⟨hnone, rfl⟩
  | record ids =>
    cases h
    exact ⟨hnone, rfl⟩

/-! ## Accounting for the archive -/

/-- What is in the archive is held, and the other way round. -/
def Accounted (s : Delivery) : Prop := ∀ id, id ∈ s.archive ↔ id ∈ s.holding

theorem accounted_start (before : List NostrEvent) (dedupe : Finset String) :
    Accounted (start before dedupe) := by
  intro id
  have hholding : (start before dedupe).holding = ids before := by
    show 0 + 0 + 0 + 0 + 0 + ids before = _
    abel
  rw [hholding]
  simp [start, ids]

theorem accounted_step {a : DeliveryAct} (h : s.Accounted) (hok : s.LeavesCopy a)
    (hstep : step queueSize s a = some s') : s'.Accounted := by
  obtain ⟨harchive, hholding⟩ := step_law hstep
  intro id
  rw [harchive, Finset.mem_union, Multiset.mem_toFinset, h id]
  have hcount := congrArg (Multiset.count id) hholding
  rw [Multiset.count_add, Multiset.count_add] at hcount
  rw [← Multiset.count_pos, ← Multiset.count_pos, ← Multiset.count_pos]
  by_cases hdrop : id ∈ s.dropped a
  · have hcopy := hok id hdrop
    omega
  · rw [← Multiset.count_eq_zero] at hdrop
    omega

private def posted : NostrEvent :=
  { id := "aa", pubkey := "bb", createdAt := 1700000000, kind := 1, tags := [], content := "hi"
    sig := "" }

/-- The writer is behind, and the timeout strikes while the unit waits for room. -/
private def timedOut : List DeliveryAct :=
  [.process [posted], .next { sending := none, rest := [(posted, false)] },
    .timeout { sending := some posted, rest := [] }]

end Delivery

end NostrSearch.Server
