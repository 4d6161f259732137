import NostrSearch.Core.RelayUrl
import NostrSearch.Lib.Buckets
import NostrSearch.Stats.Hll
import NostrSearch.Stats.Registry

/-!
# Relays

The relays that relay lists advertise, each with a sketch of its advertisers and the estimate of
it. URLs come from event tags: once `MAX_RELAYS` are held, no new one is taken.

Lowercasing, the test for an address and the estimate of a sketch are parameters.
-/

namespace NostrSearch.Stats

open NostrSearch.Core NostrSearch.Lib

/-- Maximum relays tracked. -/
def MAX_RELAYS : ℕ := 8192

/-- What is known about one relay. -/
structure RelayStats where
  advertisers : ℕ
  /-- newest relay list that mentioned it -/
  lastSeen : ℕ
  hll : Hll

structure Relays where
  data : Finmap (fun _ : String => RelayStats)

/-- What the relay lists are read with. -/
structure RelayParsers where
  toLowercase : List Char → List Char
  isIp : List Char → Bool
  /-- the estimate of a sketch -/
  len : Hll → ℕ

namespace RelayStats

def default : RelayStats := { advertisers := 0, lastSeen := 0, hll := Hll.default }

/-- What an advertisement changes. -/
def advertise (p : RelayParsers) (ev : NostrEvent) (ctx : AnalysisCtx) (e : RelayStats) :
    RelayStats :=
  let hll := e.hll.insert ctx.author
  { advertisers := p.len hll
    lastSeen := max e.lastSeen ev.createdAt
    hll := hll }

end RelayStats

namespace Relays

def default : Relays := { data := ∅ }

/-- Whether there is no room for a relay. -/
def isFull (s : Relays) (url : String) : Bool :=
  decide (url ∉ s.data ∧ MAX_RELAYS ≤ s.data.keys.card)

/-- One turn of the loop over the tags of a relay list. -/
def observeTag (p : RelayParsers) (ev : NostrEvent) (ctx : AnalysisCtx) (acc : Relays × Bool)
    (raw : String) : Relays × Bool :=
  match (normalizeRelayUrl p.toLowercase p.isIp raw.toList).map String.ofList with
  | none => acc
  | some url =>
    if acc.1.isFull url then acc
    else
      ({ data := atEntry acc.1.data url RelayStats.default (RelayStats.advertise p ev ctx) }, true)

/-- The tags that a relay list names relays with. -/
def advertised (ev : NostrEvent) : List String := ev.tagValues "r" ++ ev.tagValues "u"

def observe (p : RelayParsers) (ev : NostrEvent) (ctx : AnalysisCtx) (s : Relays) :
    Relays × Bool :=
  (advertised ev).foldl (observeTag p ev ctx) (s, false)

/-- `relays` as the registry sees it. -/
def analysis {ε : Type} (p : RelayParsers) : DynAnalysis Relays ε where
  name := "relays"
  epoch := 0
  deps := []
  refreshInterval := none
  kinds := some [10002]
  default := default
  attach := fun _ s => s
  observe := fun ev ctx ext s => ((observe p ev ctx s).1, ext, (observe p ev ctx s).2)
  refresh := fun _ s => s
  contribute := fun _ w => w
  onReset := fun _ ext => ext
  restored := fun s => s

/-! ## The map is bounded -/

variable {p : RelayParsers} {ev : NostrEvent} {ctx : AnalysisCtx}

theorem card_observeTag {acc : Relays × Bool} (h : acc.1.data.keys.card ≤ MAX_RELAYS)
    (raw : String) : (observeTag p ev ctx acc raw).1.data.keys.card ≤ MAX_RELAYS := by
  unfold observeTag
  split
  · exact h
  case h_2 url hurl =>
    split
    · exact h
    case isFalse hfull =>
      show (atEntry acc.1.data url _ _).keys.card ≤ MAX_RELAYS
      rw [keys_atEntry]
      by_cases hmem : url ∈ acc.1.data
      · rwa [Finset.insert_eq_of_mem (Finmap.mem_keys.mpr hmem)]
      · have hroom : acc.1.data.keys.card < MAX_RELAYS := by
          unfold isFull at hfull
          rw [decide_eq_true_iff] at hfull
          exact Nat.lt_of_not_le fun hle => hfull ⟨hmem, hle⟩
        exact (Finset.card_insert_le _ _).trans hroom

/-- A relay list never makes the map grow over its bound. -/
theorem card_observe {s : Relays} (h : s.data.keys.card ≤ MAX_RELAYS) :
    (observe p ev ctx s).1.data.keys.card ≤ MAX_RELAYS := by
  have hloop : ∀ (tags : List String) (acc : Relays × Bool),
      acc.1.data.keys.card ≤ MAX_RELAYS →
        (tags.foldl (observeTag p ev ctx) acc).1.data.keys.card ≤ MAX_RELAYS := by
    intro tags
    induction tags with
    | nil => exact fun acc h => h
    | cons raw tags ih => exact fun acc h => ih _ (card_observeTag h raw)
  exact hloop _ _ h

end Relays

end NostrSearch.Stats
