import NostrSearch.Core.Text
import NostrSearch.Lib.Buckets
import NostrSearch.Stats.Counter
import NostrSearch.Stats.Delta

/-!
# Daily activity

Event counts by kind and zap volume, by UTC day, each split by trust. The amount of a zap is that
of the receipt's `bolt11` invoice, or else the one the embedded request asks for; the parties are
the receipt's `P` and `p` tags, or else those of the request.

The invoice parser and the JSON parser are parameters. Of a request only strings, arrays and
objects are read.
-/

namespace NostrSearch.Stats

open NostrSearch.Core NostrSearch.Lib

def ZAP_RECEIPT : ℕ := 9735

def MAX_ZAP_MSATS : ℕ := 21000000 * 100000000 * 1000

/-- The parsers `activity` calls. -/
structure ZapParsers where
  /-- `serde_json::from_str` -/
  fromStr : String → Option Json
  /-- `SignedRawBolt11Invoice::from_str`, and the invoice's `amount_pico_btc` -/
  amountPicoBtc : List Char → Option ℕ

/-- One UTC day bucket. -/
structure DailyActivity where
  zapsSentSats : TrustedCount
  zapsReceivedSats : TrustedCount
  zapCount : ℕ
  /-- event count per kind -/
  kinds : Finmap (fun _ : ℕ => TrustedCount)

/-- Per-day activity and zap volume. -/
structure Activity where
  days : Finmap (fun _ : ℕ => DailyActivity)
  dirty : Finset ℕ

namespace DailyActivity

def default : DailyActivity :=
  { zapsSentSats := {}, zapsReceivedSats := {}, zapCount := 0, kinds := ∅ }

def merge (b other : DailyActivity) : DailyActivity :=
  { zapsSentSats := b.zapsSentSats.merge other.zapsSentSats
    zapsReceivedSats := b.zapsReceivedSats.merge other.zapsReceivedSats
    zapCount := wrapAdd b.zapCount other.zapCount
    kinds := absorb b.kinds {} TrustedCount.merge other.kinds }

def json (b : DailyActivity) : Json :=
  Json.record
    [("zaps_sent_sats", b.zapsSentSats.json), ("zaps_received_sats", b.zapsReceivedSats.json),
      ("zap_count", .num b.zapCount), ("kinds", Keys.nat.view TrustedCount.layout b.kinds.lookup)]

/-- A bucket patched over another: the kinds of both are left. -/
def onto (b b₀ : DailyActivity) : DailyActivity := { b with kinds := b.kinds ∪ b₀.kinds }

theorem mergePatch_json (b b₀ : DailyActivity) :
    Json.mergePatch b.json b₀.json = (b.onto b₀).json := by
  apply Json.mergePatch_record
  apply Json.RecordPatch.cons (Json.record_ne_null _) (TrustedCount.mergePatch_json _ _)
  apply Json.RecordPatch.cons (Json.record_ne_null _) (TrustedCount.mergePatch_json _ _)
  apply Json.RecordPatch.cons (by intro h; cases h) (Json.mergePatch_num _ _)
  apply Json.RecordPatch.cons (Keys.obj_ne_null _ _)
    (mergePatch_union Keys.nat (fun _ _ => rfl) b.kinds b₀.kinds)
  exact Json.RecordPatch.nil

/-- A bucket covers those without further kinds. -/
def layout : Layout DailyActivity where
  json := json
  onto := onto
  Covers b b₀ := b₀.kinds.keys ⊆ b.kinds.keys
  json_ne_null _ := Json.record_ne_null _
  mergePatch_json := mergePatch_json
  onto_of_covers b b₀ h := by rw [onto, union_of_subset h]
  covers_refl b := Finset.Subset.refl b.kinds.keys
  covers_trans _ _ _ h h' := Finset.Subset.trans h' h
  covers_onto c b b₀ h h₀ := by
    show (b.kinds ∪ b₀.kinds).keys ⊆ c.kinds.keys
    rw [Finmap.keys_union]
    exact Finset.union_subset h h₀

theorem covers_merge (b other : DailyActivity) : layout.Covers (b.merge other) b := by
  show b.kinds.keys ⊆ (absorb b.kinds {} TrustedCount.merge other.kinds).keys
  rw [keys_absorb]
  exact Finset.subset_union_left

end DailyActivity

namespace Activity

def default : Activity := { days := ∅, dirty := ∅ }

section Zaps

variable (z : ZapParsers)

/-- Amount encoded in a bolt11 invoice, in millisats. -/
def parseInvoiceMsats (bolt11 : String) : Option ℕ :=
  (z.amountPicoBtc (trim bolt11.toList)).map fun pico => pico / 10

/-- The zap request embedded in a receipt's `description` tag. -/
def zapRequest (ev : NostrEvent) : Option Json :=
  (ev.tagValues "description").head?.bind z.fromStr

/-- The second item of the first of a request's tags that is called `name`. -/
def requestTag (name : String) (tags : List Json) : Option String := do
  let t ← tags.find? fun t => (t.item 0).bind Json.asStr = some name
  (← t.item 1).asStr

/-- Millisats requested by the zap request's `amount` tag. -/
def requestMsats (req : Json) : Option ℕ := do
  parseU64 (← requestTag "amount" (← (← req.get "tags").asArr))

/-- Who sent and who received a zap. -/
def zapParties (ev : NostrEvent) (req : Option Json) : Option Pubkey × Option Pubkey :=
  let sender := (ev.tagValues "P").head?.bind Hash32.fromHex <|> do
    Hash32.fromHex (← (← (← req).get "pubkey").asStr)
  let recipient := (ev.tagValues "p").head?.bind Hash32.fromHex <|> do
    Hash32.fromHex (← requestTag "p" (← (← (← req).get "tags").asArr))
  (sender, recipient)

/-- What a zap receipt adds to its bucket. An unknown party counts as untrusted. -/
def addZap (ev : NostrEvent) (ctx : AnalysisCtx) (bucket : DailyActivity) : DailyActivity :=
  let req := zapRequest z ev
  let msats := ((ev.tagValues "bolt11").head?.bind (parseInvoiceMsats z) <|>
    req.bind requestMsats).filter fun m => m ≤ MAX_ZAP_MSATS
  match msats with
  | none => bucket
  | some msats =>
    let sats := msats / 1000
    let parties := zapParties ev req
    { bucket with
      zapsSentSats := bucket.zapsSentSats.incr (parties.1.any ctx.isTrusted) sats
      zapsReceivedSats := bucket.zapsReceivedSats.incr (parties.2.any ctx.isTrusted) sats
      zapCount := wrapAdd bucket.zapCount 1 }

/-- What an event adds to the bucket of its day. -/
def addEvent (ev : NostrEvent) (ctx : AnalysisCtx) (bucket : DailyActivity) : DailyActivity :=
  let bucket :=
    { bucket with kinds := atEntry bucket.kinds ev.kind {} fun c => c.incr ctx.authorTrusted 1 }
  if ev.kind = ZAP_RECEIPT then addZap z ev ctx bucket else bucket

def observe (ev : NostrEvent) (ctx : AnalysisCtx) (s : Activity) : Activity × Bool :=
  let day := dayStart ev.createdAt
  ({ days := atEntry s.days day DailyActivity.default (addEvent z ev ctx)
     dirty := insert day s.dirty }, true)

end Zaps

def merge (s other : Activity) : Activity :=
  { days := absorb s.days DailyActivity.default DailyActivity.merge other.days
    dirty := s.dirty ∪ other.days.keys }

def snapshot (s : Activity) : Json :=
  Keys.nat.obj fun day => (s.days.lookup day).map DailyActivity.json

/-- Only the day buckets touched since the last drain. -/
def drainDelta (s : Activity) : Activity × Option Json :=
  if s.dirty = ∅ then (s, none)
  else
    ({ s with dirty := ∅ },
      some (Keys.nat.obj fun day =>
        if day ∈ s.dirty then (s.days.lookup day).map DailyActivity.json else none))

/-- `activity` as the registry sees it. -/
def analysis {ε : Type} (z : ZapParsers) : DynAnalysis Activity ε where
  name := "activity"
  epoch := 1
  deps := ["follow_graph"]
  refreshInterval := none
  kinds := none
  default := default
  attach := fun _ s => s
  observe := fun ev ctx ext s => ((observe z ev ctx s).1, ext, (observe z ev ctx s).2)
  refresh := fun _ s => s
  contribute := fun _ w => w
  onReset := fun _ ext => ext
  restored := fun s => { s with dirty := ∅ }

/-- What `activity` reports. -/
def reporter {ε : Type} (z : ZapParsers) : Reporter Activity ε where
  analysis := analysis z
  merge s other s' := s' = s.merge other
  snapshot := snapshot
  drainDelta := drainDelta

/-! ## What is reported -/

theorem kinds_addZap (z : ZapParsers) (ev : NostrEvent) (ctx : AnalysisCtx) (b : DailyActivity) :
    (addZap z ev ctx b).kinds = b.kinds := by
  unfold addZap
  dsimp only
  split <;> rfl

/-- An event only adds kinds to its bucket. -/
theorem covers_addEvent (z : ZapParsers) (ev : NostrEvent) (ctx : AnalysisCtx)
    (b : DailyActivity) : DailyActivity.layout.Covers (addEvent z ev ctx b) b := by
  have hkinds : (addEvent z ev ctx b).kinds =
      atEntry b.kinds ev.kind {} fun c => c.incr ctx.authorTrusted 1 := by
    unfold addEvent
    dsimp only
    split
    · rw [kinds_addZap]
    · rfl
  show b.kinds.keys ⊆ (addEvent z ev ctx b).kinds.keys
  rw [hkinds, keys_atEntry]
  exact Finset.subset_insert ev.kind b.kinds.keys

theorem moves_observe (z : ZapParsers) (ev : NostrEvent) (ctx : AnalysisCtx) (s : Activity) :
    DailyActivity.layout.Moves s.dirty s.days.lookup (observe z ev ctx s).1.dirty
      (observe z ev ctx s).1.days.lookup := by
  show DailyActivity.layout.Moves s.dirty s.days.lookup (insert (dayStart ev.createdAt) s.dirty)
    (atEntry s.days (dayStart ev.createdAt) DailyActivity.default (addEvent z ev ctx)).lookup
  rw [lookup_atEntry]
  apply Layout.moves_update
  intro b₀ hb₀
  rw [hb₀, Option.getD_some]
  exact Layout.under_some (covers_addEvent z ev ctx b₀)

theorem moves_merge (s other : Activity) :
    DailyActivity.layout.Moves s.dirty s.days.lookup (s.merge other).dirty
      (s.merge other).days.lookup := by
  apply Layout.moves_of_covers Finset.subset_union_left
  · intro k hk
    have hk' : k ∉ other.days := by
      intro hmem
      exact hk (Finset.mem_union_right _ (Finmap.mem_keys.mpr hmem))
    exact (lookup_absorb_of_notMem hk').symm
  · intro k b₀ hb₀
    by_cases hk : k ∈ other.days
    · obtain ⟨ob, hob⟩ := Option.isSome_iff_exists.mp (Finmap.lookup_isSome.mpr hk)
      refine ⟨b₀.merge ob, ?_, DailyActivity.covers_merge b₀ ob⟩
      show (absorb s.days _ _ other.days).lookup k = _
      rw [lookup_absorb_of_some hob, hb₀, Option.getD_some]
    · refine ⟨b₀, ?_, DailyActivity.layout.covers_refl b₀⟩
      show (absorb s.days _ _ other.days).lookup k = _
      rw [lookup_absorb_of_notMem hk, hb₀]

/-- How `activity` keeps track of what it has to report. What is marked has a bucket. -/
def tracked {ε : Type} (z : ZapParsers) :
    (reporter z : Reporter Activity ε).Tracked where
  κ := ℕ
  β := DailyActivity
  format := Keys.nat.format DailyActivity.layout
  view s := s.days.lookup
  dirty := Activity.dirty
  Inv s := s.dirty ⊆ s.days.keys
  snapshot_eq _ := rfl
  inv_default := Finset.empty_subset _
  view_default _ := rfl
  dirty_default := rfl
  inv_restored _ _ := Finset.empty_subset _
  dirty_restored _ := rfl
  attach s _ hs := ⟨hs, Layout.Moves.refl _ _⟩
  observe s ev ctx _ hs := by
    refine ⟨?_, moves_observe z ev ctx s⟩
    show insert (dayStart ev.createdAt) s.dirty ⊆ (atEntry s.days _ _ _).keys
    rw [keys_atEntry]
    exact Finset.insert_subset_insert _ hs
  merge s other s' hs hother h := by
    have hs' : s' = s.merge other := h
    subst hs'
    refine ⟨?_, moves_merge s other⟩
    show s.dirty ∪ other.days.keys ⊆ (absorb s.days _ _ other.days).keys
    rw [keys_absorb]
    exact Finset.union_subset_union hs (Finset.Subset.refl _)
  inv_drain s hs := by
    show s.drainDelta.1.dirty ⊆ s.drainDelta.1.days.keys
    unfold drainDelta
    split
    · exact hs
    · exact Finset.empty_subset _
  view_drain s := by
    show s.drainDelta.1.days.lookup = s.days.lookup
    unfold drainDelta
    split <;> rfl
  dirty_drain s := by
    show s.drainDelta.1.dirty = ∅
    unfold drainDelta
    split
    case isTrue h => exact h
    case isFalse => rfl
  drain_clean s h := by
    show s.drainDelta.2 = none
    rw [drainDelta, if_pos h]
  drain_dirty s hs h := by
    have hshown : ∀ day ∈ s.dirty, (s.days.lookup day).isSome = true := fun day hday =>
      Finmap.lookup_isSome.mpr (Finmap.mem_keys.mp (hs hday))
    refine ⟨_, ?_, Keys.spells_patch Keys.nat DailyActivity.layout _⟩
    show s.drainDelta.2 = _
    rw [drainDelta, if_neg h, ← Keys.obj_changed Keys.nat DailyActivity.layout hshown]
    rfl

end Activity

end NostrSearch.Stats
