import Mathlib.Data.String.Basic
import Mathlib.Tactic

/-!
# Events

`NostrEvent` (NIP-01) and the readers of its tag array, as in `nostrsearch-core`.
-/

namespace NostrSearch.Core

section order

/-! Names and tags are sorted by their text. -/

instance stringLeTrans : IsTrans String (· ≤ ·) := inferInstance
instance stringLeAntisymm : Std.Antisymm (α := String) (· ≤ ·) := inferInstance
instance stringLeTotal : Std.Total (α := String) (· ≤ ·) := inferInstance

end order

/-- A single Nostr event as it appears on the wire. Ids and keys are hex strings here; they
are parsed where they are used, and nothing has checked them before. -/
structure NostrEvent where
  id : String
  pubkey : String
  createdAt : ℕ
  kind : ℕ
  tags : List (List String)
  content : String
  sig : String
deriving DecidableEq

/-- The values of all tags called `name`. Tags with no value are skipped. -/
def NostrEvent.tagValues (ev : NostrEvent) (name : String) : List String :=
  ev.tags.filterMap fun t =>
    match t with
    | n :: v :: _ => if n = name then some v else none
    | _ => none

/-- An ephemeral event, never stored by relays. -/
def NostrEvent.isEphemeral (ev : NostrEvent) : Bool :=
  decide (20000 ≤ ev.kind ∧ ev.kind < 30000)

/-- Events signed by a one-off key. -/
def NostrEvent.usesThrowawayKey (ev : NostrEvent) : Bool :=
  decide (ev.kind = 445 ∨ ev.kind = 1059 ∨ ev.kind = 24133) || ev.isEphemeral

end NostrSearch.Core
