import NostrSearch.Stats.Activity
import NostrSearch.Stats.ActiveUsers
import NostrSearch.Stats.Clients
import NostrSearch.Stats.NewUsers

/-!
# The four incremental reports

`activity`, `active_users`, `new_users` and `client_tags` are the analyses that drain deltas, and
each of them keeps the delta contract.
-/

namespace NostrSearch.Stats

open NostrSearch.Core NostrSearch.Lib

/-- Each delta is the difference of two snapshots, for each of the analyses that have them. -/
theorem deltas_exact {ε : Type} (z : ZapParsers) (len : Hll → ℕ)
    (lower : List Char → List Char) :
    (Activity.reporter z : Reporter Activity ε).DeltaExact ∧
      (ActiveUsers.reporter len : Reporter ActiveUsers ε).DeltaExact ∧
      NewUsers.reporter.DeltaExact ∧
      (Clients.reporter lower : Reporter Clients ε).DeltaExact := by
  refine ⟨?_, ?_, ?_, ?_⟩
  · exact (Activity.tracked z).deltaExact
  · exact (ActiveUsers.tracked len).deltaExact
  · exact NewUsers.tracked.deltaExact
  · exact (Clients.tracked lower).deltaExact

end NostrSearch.Stats
