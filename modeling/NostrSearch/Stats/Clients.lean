import NostrSearch.Core.Text
import NostrSearch.Lib.Buckets
import NostrSearch.Stats.Counter
import NostrSearch.Stats.Delta

/-!
# Client-tag usage

Which clients publish what, and when they were last seen. The `client` tag is freeform: names are
normalized, and once `MAX_CLIENTS` are held a new one is counted under `OTHER_CLIENT`. Which names
fit depends on the order in which a merge goes through the other map, so that `Merges` is a
relation.

Lowercasing is a parameter.
-/

namespace NostrSearch.Stats

open NostrSearch.Core NostrSearch.Lib

/-- Bucket name for events published without a `client` tag. -/
def NO_CLIENT : String := "N/A"

/-- Bucket for client names seen after the map is full. -/
def OTHER_CLIENT : String := "(other)"

def MAX_CLIENTS : ℕ := 1024

def MAX_CLIENT_LEN : ℕ := 64

/-- Per-client totals. -/
structure ClientStats where
  sum : ℕ
  /-- `created_at` of the most recent event from this client -/
  lastNote : ℕ
  /-- event count per kind -/
  kinds : Finmap (fun _ : ℕ => ℕ)

/-- Client-tag breakdown. -/
structure Clients where
  data : Finmap (fun _ : String => ClientStats)
  dirty : Finset String

namespace ClientStats

def default : ClientStats := { sum := 0, lastNote := 0, kinds := ∅ }

def merge (b other : ClientStats) : ClientStats :=
  { sum := wrapAdd b.sum other.sum
    lastNote := max b.lastNote other.lastNote
    kinds := absorb b.kinds 0 wrapAdd other.kinds }

def json (b : ClientStats) : Json :=
  Json.record
    [("sum", .num b.sum), ("last_note", .num b.lastNote),
      ("kinds", Keys.nat.view Layout.num b.kinds.lookup)]

/-- Totals patched over others: the kinds of both are left. -/
def onto (b b₀ : ClientStats) : ClientStats := { b with kinds := b.kinds ∪ b₀.kinds }

theorem mergePatch_json (b b₀ : ClientStats) :
    Json.mergePatch b.json b₀.json = (b.onto b₀).json := by
  apply Json.mergePatch_record
  apply Json.RecordPatch.cons (by intro h; cases h) (Json.mergePatch_num _ _)
  apply Json.RecordPatch.cons (by intro h; cases h) (Json.mergePatch_num _ _)
  apply Json.RecordPatch.cons (Keys.obj_ne_null _ _)
    (mergePatch_union Keys.nat (fun _ _ => rfl) b.kinds b₀.kinds)
  exact Json.RecordPatch.nil

/-- Totals cover those without further kinds. -/
def layout : Layout ClientStats where
  json := json
  onto := onto
  Covers b b₀ := b₀.kinds.keys ⊆ b.kinds.keys
  json_ne_null _ := Json.record_ne_null _
  mergePatch_json := mergePatch_json
  onto_of_covers b b₀ h := by rw [onto, union_of_subset h]
  covers_refl b := Finset.Subset.refl b.kinds.keys
  covers_trans _ _ _ h h' := Finset.Subset.trans h' h
  covers_onto c b b₀ h h₀ := by
    show (b.kinds ∪ b₀.kinds).keys ⊆ c.kinds.keys
    rw [Finmap.keys_union]
    exact Finset.union_subset h h₀

theorem covers_merge (b other : ClientStats) : layout.Covers (b.merge other) b := by
  show b.kinds.keys ⊆ (absorb b.kinds 0 wrapAdd other.kinds).keys
  rw [keys_absorb]
  exact Finset.subset_union_left

/-- What one event adds. -/
def addEvent (ev : NostrEvent) (b : ClientStats) : ClientStats :=
  { sum := wrapAdd b.sum 1
    lastNote := max b.lastNote ev.createdAt
    kinds := atEntry b.kinds ev.kind 0 fun n => wrapAdd n 1 }

theorem covers_addEvent (ev : NostrEvent) (b : ClientStats) :
    layout.Covers (b.addEvent ev) b := by
  show b.kinds.keys ⊆ (atEntry b.kinds ev.kind 0 fun n => wrapAdd n 1).keys
  rw [keys_atEntry]
  exact Finset.subset_insert ev.kind b.kinds.keys

end ClientStats

namespace Clients

def default : Clients := { data := ∅, dirty := ∅ }

/-- A raw `client` tag value as a bucket name. `lower` is `to_lowercase`. -/
def normalize (lower : List Char → List Char) (client : String) : String :=
  let c := trim client.toList
  -- a handler coordinate is kept whole
  if "31990:".toList.isPrefixOf c then String.ofList (lower c)
  else
    let base := trim (beforeFirst "@".toList (beforeFirst " - ".toList c))
    let out := lower base
    if MAX_CLIENT_LEN < byteLen out then
      let stop := (((charIndices 0 out).takeWhile fun x => x.1 ≤ MAX_CLIENT_LEN).getLast?.map
        Prod.fst).getD 0
      String.ofList (truncate stop out)
    else String.ofList out

/-- Once the map is full, a name it does not have goes to `OTHER_CLIENT`. -/
def keyFor (s : Clients) (client : String) : String :=
  if MAX_CLIENTS ≤ s.data.keys.card ∧ client ∉ s.data then OTHER_CLIENT else client

def observe (lower : List Char → List Char) (ev : NostrEvent) (s : Clients) : Clients × Bool :=
  let client :=
    match (ev.tagValues "client").head?.map (normalize lower) with
    | some c => if c.isEmpty then NO_CLIENT else c
    | none => NO_CLIENT
  let key := s.keyFor client
  ({ data := atEntry s.data key ClientStats.default (ClientStats.addEvent ev)
     dirty := insert key s.dirty }, true)

/-- One turn of the loop of `merge`. -/
def mergeEntry (s : Clients) (client : String) (os : ClientStats) : Clients :=
  let key := s.keyFor client
  { data := atEntry s.data key ClientStats.default fun b => b.merge os
    dirty := insert key s.dirty }

/-- `merge`, with the other's clients in this order. -/
def mergeIn (other : Clients) (s : Clients) (order : List String) : Clients :=
  order.foldl (fun s client => (other.data.lookup client).elim s (s.mergeEntry client)) s

/-- `merge`, in whatever order the other's map has its clients. -/
def Merges (s other s' : Clients) : Prop :=
  ∃ order : List String, order.Nodup ∧ (∀ client, client ∈ order ↔ client ∈ other.data) ∧
    s' = mergeIn other s order

def snapshot (s : Clients) : Json :=
  Keys.string.obj fun client => (s.data.lookup client).map ClientStats.json

/-- Only the clients that published since the last drain. -/
def drainDelta (s : Clients) : Clients × Option Json :=
  if s.dirty = ∅ then (s, none)
  else
    ({ s with dirty := ∅ },
      some (Keys.string.obj fun client =>
        if client ∈ s.dirty then (s.data.lookup client).map ClientStats.json else none))

/-- `client_tags` as the registry sees it. -/
def analysis {ε : Type} (lower : List Char → List Char) : DynAnalysis Clients ε where
  name := "client_tags"
  epoch := 0
  deps := []
  refreshInterval := none
  kinds := none
  default := default
  attach := fun _ s => s
  observe := fun ev _ ext s => ((observe lower ev s).1, ext, (observe lower ev s).2)
  refresh := fun _ s => s
  contribute := fun _ w => w
  onReset := fun _ ext => ext
  restored := fun s => { s with dirty := ∅ }

/-- What `client_tags` reports. -/
def reporter {ε : Type} (lower : List Char → List Char) : Reporter Clients ε where
  analysis := analysis lower
  merge := Merges
  snapshot := snapshot
  drainDelta := drainDelta

/-! ## What is reported -/

/-- What is marked has totals. -/
def Ok (s : Clients) : Prop := s.dirty ⊆ s.data.keys

/-- Changing the totals of one client, and marking it. -/
theorem moves_atEntry (s : Clients) (key : String) {f : ClientStats → ClientStats}
    (hf : ∀ b, ClientStats.layout.Covers (f b) b) :
    ClientStats.layout.Moves s.dirty s.data.lookup (insert key s.dirty)
      (atEntry s.data key ClientStats.default f).lookup := by
  rw [lookup_atEntry]
  apply Layout.moves_update
  intro b₀ hb₀
  rw [hb₀, Option.getD_some]
  exact Layout.under_some (hf b₀)

theorem ok_atEntry {s : Clients} (hs : s.Ok) (key : String) (f : ClientStats → ClientStats) :
    Ok { data := atEntry s.data key ClientStats.default f, dirty := insert key s.dirty } := by
  show insert key s.dirty ⊆ (atEntry s.data key ClientStats.default f).keys
  rw [keys_atEntry]
  exact Finset.insert_subset_insert key hs

/-- The loop of `merge`, whatever the order. -/
theorem mergeIn_spec (other : Clients) {s : Clients} (hs : s.Ok) (order : List String) :
    (mergeIn other s order).Ok ∧
      ClientStats.layout.Moves s.dirty s.data.lookup (mergeIn other s order).dirty
        (mergeIn other s order).data.lookup := by
  induction order generalizing s with
  | nil => exact ⟨hs, Layout.Moves.refl _ _⟩
  | cons client order ih =>
    have hstep : mergeIn other s (client :: order) =
        mergeIn other ((other.data.lookup client).elim s (s.mergeEntry client)) order := rfl
    rw [hstep]
    cases other.data.lookup client with
    | none => exact ih hs
    | some os =>
      have hok : (s.mergeEntry client os).Ok := ok_atEntry hs _ _
      have hmoves := s.moves_atEntry (s.keyFor client) fun b => ClientStats.covers_merge b os
      obtain ⟨hok', hmoves'⟩ := ih hok
      exact ⟨hok', hmoves.trans hmoves'⟩

/-- How `client_tags` keeps track of what it has to report. -/
def tracked {ε : Type} (lower : List Char → List Char) :
    (reporter lower : Reporter Clients ε).Tracked where
  κ := String
  β := ClientStats
  format := Keys.string.format ClientStats.layout
  view s := s.data.lookup
  dirty := Clients.dirty
  Inv := Ok
  snapshot_eq _ := rfl
  inv_default := Finset.empty_subset _
  view_default _ := rfl
  dirty_default := rfl
  inv_restored _ _ := Finset.empty_subset _
  dirty_restored _ := rfl
  attach s _ hs := ⟨hs, Layout.Moves.refl _ _⟩
  observe s ev _ _ hs :=
    ⟨ok_atEntry hs _ _, s.moves_atEntry _ (ClientStats.covers_addEvent ev)⟩
  merge s other s' hs _ h := by
    obtain ⟨order, -, -, rfl⟩ := h
    exact mergeIn_spec other hs order
  inv_drain s hs := by
    show s.drainDelta.1.Ok
    unfold drainDelta
    split
    · exact hs
    · exact Finset.empty_subset _
  view_drain s := by
    show s.drainDelta.1.data.lookup = s.data.lookup
    unfold drainDelta
    split <;> rfl
  dirty_drain s := by
    show s.drainDelta.1.dirty = ∅
    unfold drainDelta
    split
    case isTrue h => exact h
    case isFalse => rfl
  drain_clean s h := by
    show s.drainDelta.2 = none
    rw [drainDelta, if_pos h]
  drain_dirty s hs h := by
    have hshown : ∀ client ∈ s.dirty, (s.data.lookup client).isSome = true := fun client hc =>
      Finmap.lookup_isSome.mpr (Finmap.mem_keys.mp (hs hc))
    refine ⟨_, ?_, Keys.spells_patch Keys.string ClientStats.layout _⟩
    show s.drainDelta.2 = _
    rw [drainDelta, if_neg h, ← Keys.obj_changed Keys.string ClientStats.layout hshown]
    rfl

end Clients

end NostrSearch.Stats
