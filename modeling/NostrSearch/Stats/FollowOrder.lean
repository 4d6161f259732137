import NostrSearch.Stats.FollowLists

/-!
# The order of delivery

A list not newer than the one held is dropped, so of two lists of one author with one date the
first delivered stays. Nothing else depends on the order: `same_in_any_order` is for events whose
ties agree, and compares the adjacency record by record and the counts while they fit.
-/

namespace NostrSearch.Stats.FollowGraph

open NostrSearch.Core NostrSearch.Lib NostrSearch.Stats

/-- No author has two lists with the newest of that author's dates that follow differently. -/
def NoTies (evs : List NostrEvent) : Prop :=
  TiesAgree authorOf NostrEvent.createdAt newFollows evs

/-- No count overflows on the way. -/
def FitsAlong (evs : List NostrEvent) : Prop :=
  ∀ pre, pre <+: evs → ∀ p, (foldAll pre).graph.occurrences p < 2 ^ 32

/-- Two orders of the same lists leave the same adjacency, and while no count overflows the same
counts. -/
theorem same_in_any_order {evs evs' : List NostrEvent} (hperm : evs.Perm evs')
    (hdated : Dated evs) (hties : NoTies evs) :
    (foldAll evs).graph = (foldAll evs').graph ∧
      (FitsAlong evs → FitsAlong evs' →
        ∀ p, (foldAll evs).state.count p = (foldAll evs').state.count p) := by
  have hdated' : Dated evs' := fun ev hev => hdated ev (hperm.mem_iff.mpr hev)
  have hdb : (foldAll evs).graph.db = (foldAll evs').graph.db := by
    apply Finmap.ext_lookup
    intro a
    have hnewest := newest_map_perm hperm hties a
    rw [lookup_foldAll hdated, lookup_foldAll hdated']
    -- a record is written from the date and the follows of the newest list
    have hrecord := congrArg (Option.map fun r : ℕ × List Pubkey => encode r.1 r.2) hnewest
    rw [Option.map_map, Option.map_map] at hrecord
    exact hrecord
  have hgraph : (foldAll evs).graph = (foldAll evs').graph := congrArg GraphStore.mk hdb
  refine ⟨hgraph, ?_⟩
  intro hfits hfits' p
  rw [count_foldAll hfits, count_foldAll hfits', hgraph]

/-! ## Two lists of one author -/

/-- A contact list of one author. -/
private def dateList (id : String) (createdAt : ℕ) (tags : List (List String)) : NostrEvent :=
  { id := id, pubkey := "1111111111111111111111111111111111111111111111111111111111111111"
    createdAt := createdAt, kind := 3, tags := tags, content := "", sig := "" }

private def follows22 : List (List String) :=
  [["p", "2222222222222222222222222222222222222222222222222222222222222222"]]

private def someId : String := "aaaaaaaaaaaaaaaaaaaaaaaaaaaaaaaaaaaaaaaaaaaaaaaaaaaaaaaaaaaaaaaa"

private def otherId : String := "bbbbbbbbbbbbbbbbbbbbbbbbbbbbbbbbbbbbbbbbbbbbbbbbbbbbbbbbbbbbbbbb"

/-- Following and then not, in either order of delivery. -/
private def twoDates : List NostrEvent := [dateList someId 1 follows22, dateList otherId 2 []]

private theorem fitsAlong_of_inits {evs : List NostrEvent}
    (h : (evs.inits.all fun pre => decide
      (total (foldAll pre).graph.db (fun raw => (decode raw).follows.length) < 2 ^ 32)) = true) :
    FitsAlong evs := by
  intro pre hpre p
  have hall := List.all_eq_true.mp h pre ((List.mem_inits pre evs).mpr hpre)
  exact lt_of_le_of_lt ((foldAll pre).graph.occurrences_le p) (of_decide_eq_true hall)

theorem same_in_both_orders :
    (foldAll twoDates).graph = (foldAll twoDates.reverse).graph ∧
      ∀ p, (foldAll twoDates).state.count p = (foldAll twoDates.reverse).state.count p := by
  have hdated : Dated twoDates := by
    unfold Dated
    decide +kernel
  have hties : NoTies twoDates := by
    have hone : ∀ x ∈ twoDates, ∀ y ∈ twoDates, x.createdAt = y.createdAt →
        newFollows x = newFollows y := by decide +kernel
    exact fun x hx y hy _ _ _ htime _ => hone x hx y hy htime
  obtain ⟨hgraph, hcount⟩ :=
    same_in_any_order (List.reverse_perm twoDates).symm hdated hties
  refine ⟨hgraph, hcount ?_ ?_⟩
  · exact fitsAlong_of_inits (by decide +kernel)
  · exact fitsAlong_of_inits (by decide +kernel)

/-- Following and not, with one date. -/
private def oneDate : List NostrEvent := [dateList someId 1 follows22, dateList otherId 1 []]

/-- Whichever of two lists with one date is delivered first stays. -/
theorem tie_keeps_the_first :
    ¬ ∀ evs evs' : List NostrEvent, evs.Perm evs' → (evs.map NostrEvent.id).Nodup →
      (∀ ev ∈ evs, ev.kind = 3) →
      (foldAll evs).graph = (foldAll evs').graph ∧
        ∀ p, (foldAll evs).state.count p = (foldAll evs').state.count p := by
  intro h
  have hcount := (h oneDate oneDate.reverse (List.reverse_perm oneDate).symm (by decide +kernel)
    (by decide +kernel)).2 (Vector.replicate 32 0x22)
  revert hcount
  decide +kernel

end NostrSearch.Stats.FollowGraph
