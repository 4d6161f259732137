import NostrSearch.Core.Event
import NostrSearch.Core.Hex
import NostrSearch.Core.Num
import Mathlib.Data.Finmap

/-!
# Keys, the world, and the context of a fold

`Hash32` is the compact key type of the analyses. Producer analyses publish what they derive
about a pubkey into the `World`; consumers read it through the `AnalysisCtx` of the event they
fold. Pagerank scores are floating point and only ever served, so a `PubkeyStat` here has the
follower count and the tier.
-/

namespace NostrSearch.Stats

open NostrSearch.Core

abbrev Hash32 := Bytes32
abbrev Pubkey := Hash32
abbrev EventId := Hash32

/-- One byte from two hex digits of either case. -/
def hexPair (a b : Char) : Option UInt8 := do
  let x ← hexDigit a
  let y ← hexDigit b
  pure (UInt8.ofNat (16 * x + y))

/-- Parse from 64-char lowercase/uppercase hex. -/
def Hash32.fromHex (s : String) : Option Hash32 := decode32 hexPair s

/-- Per-pubkey materialized signals. -/
structure PubkeyStat where
  followers : ℕ := 0
  wotTier : ℕ := 0
deriving DecidableEq

/-- Materialized cross-analysis state, keyed by pubkey. -/
structure World where
  stats : Finmap (fun _ : Pubkey => PubkeyStat)

namespace World

/-- `World::default`. -/
def empty : World := { stats := ∅ }

def stat (w : World) (pk : Pubkey) : PubkeyStat := (w.stats.lookup pk).getD {}

def setFollowerCount (w : World) (pk : Pubkey) (count : ℕ) : World :=
  { stats := w.stats.insert pk { w.stat pk with followers := count } }

def setWotTier (w : World) (pk : Pubkey) (tier : ℕ) : World :=
  { stats := w.stats.insert pk { w.stat pk with wotTier := tier } }

def followerCount (w : World) (pk : Pubkey) : ℕ := (w.stat pk).followers

def wotTier (w : World) (pk : Pubkey) : ℕ := (w.stat pk).wotTier

@[simp] theorem stat_empty (p : Pubkey) : empty.stat p = {} := rfl

theorem stat_setFollowerCount (w : World) (pk p : Pubkey) (count : ℕ) :
    (w.setFollowerCount pk count).stat p =
      if p = pk then { w.stat p with followers := count } else w.stat p := by
  unfold stat setFollowerCount
  by_cases hp : p = pk
  · rw [hp, Finmap.lookup_insert, if_pos rfl, Option.getD_some, stat]
  · rw [Finmap.lookup_insert_of_ne _ hp, if_neg hp]

theorem stat_setWotTier (w : World) (pk p : Pubkey) (tier : ℕ) :
    (w.setWotTier pk tier).stat p =
      if p = pk then { w.stat p with wotTier := tier } else w.stat p := by
  unfold stat setWotTier
  by_cases hp : p = pk
  · rw [hp, Finmap.lookup_insert, if_pos rfl, Option.getD_some, stat]
  · rw [Finmap.lookup_insert_of_ne _ hp, if_neg hp]

end World

/-- Read-only side context for a single fold. -/
structure AnalysisCtx where
  now : ℕ
  author : Pubkey
  eventId : EventId
  world : World

namespace AnalysisCtx

def authorTier (ctx : AnalysisCtx) : ℕ := ctx.world.wotTier ctx.author

def isTrusted (ctx : AnalysisCtx) (pk : Pubkey) : Bool := decide (1 ≤ ctx.world.wotTier pk)

def authorTrusted (ctx : AnalysisCtx) : Bool := decide (1 ≤ ctx.authorTier)

end AnalysisCtx

end NostrSearch.Stats
