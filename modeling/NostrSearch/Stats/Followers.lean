import NostrSearch.Stats.FollowLists

/-!
# Followers

`followers evs p` is what a follower count should be: the authors whose newest list has `p`. The
code adds one for every tag of a list, so a list that names a pubkey twice counts twice, and the
count is a `u32`. `counted_once` says that the counts, and the counts and tiers published from
them, are right at every point of a sequence if every list taken names no pubkey twice and
follows no pubkey that has `2 ^ 32 - 1` other followers; and that this is needed, for lists of
fewer than `2 ^ 32` tags.
-/

namespace NostrSearch.Stats

open NostrSearch.Core NostrSearch.Lib

/-! ## Who is held to follow -/

namespace GraphStore

/-- The authors whose stored list has `p`. -/
def heldBy (g : GraphStore) (p : Pubkey) : Finset Pubkey :=
  support g.db fun raw => (decode raw).follows.count p

theorem mem_heldBy {g : GraphStore} {a p : Pubkey} : a ∈ g.heldBy p ↔ p ∈ g.listOf a := by
  rw [heldBy, mem_support, ← count_listOf, List.count_pos_iff]

/-- Storing a list puts its author in or takes it out. -/
theorem card_heldBy_put (g : GraphStore) (author : Pubkey) (ts : ℕ) (l : List Pubkey)
    (p : Pubkey) :
    ((g.put author ts l).heldBy p).card =
      ((g.heldBy p).erase author).card + if p ∈ l then 1 else 0 := by
  by_cases hp : p ∈ l
  · have hput : (g.put author ts l).heldBy p = insert author ((g.heldBy p).erase author) := by
      ext a
      rw [mem_heldBy, listOf_put, Finset.mem_insert, Finset.mem_erase, mem_heldBy]
      by_cases ha : a = author <;> simp [ha, hp]
    rw [hput, Finset.card_insert_of_notMem (Finset.notMem_erase author _), if_pos hp]
  · have hput : (g.put author ts l).heldBy p = (g.heldBy p).erase author := by
      ext a
      rw [mem_heldBy, listOf_put, Finset.mem_erase, mem_heldBy]
      by_cases ha : a = author <;> simp [ha, hp]
    rw [hput, if_neg hp, Nat.add_zero]

/-- Where no list names a pubkey twice, occurrences are followers. -/
theorem occurrences_eq_card {g : GraphStore} (h : ∀ a, (g.listOf a).Nodup) (p : Pubkey) :
    g.occurrences p = (g.heldBy p).card := by
  apply total_eq_card_support_iff.mpr
  intro a raw hraw
  have hcount := List.nodup_iff_count_le_one.mp (h a) p
  rw [count_listOf, hraw, Option.elim_some] at hcount
  exact hcount

end GraphStore

namespace FollowGraph

/-! ## Publishing -/

/-- Into an empty world each pubkey is published with its count and the tier of it. -/
theorem stat_contribute_empty (s : FollowGraph) (p : Pubkey) :
    (s.contribute World.empty).stat p = s.stat p := by
  rw [stat_contribute]
  by_cases hp : p ∈ s.counts
  · rw [if_pos hp]
  · rw [if_neg hp, stat_of_notMem hp]
    rfl

/-! ## Counting once -/

/-- The authors whose newest list has `p`. -/
def followers (evs : List NostrEvent) (p : Pubkey) : Finset Pubkey :=
  (evs.filterMap authorOf).toFinset.filter fun a => p ∈ (newestBy evs a).elim [] newFollows

/-- Counts, and what is published from them, are of followers. -/
structure Counted (evs : List NostrEvent) : Prop where
  count : ∀ p, (foldAll evs).state.count p = (followers evs p).card
  followerCount : ∀ p, ((foldAll evs).state.contribute World.empty).followerCount p =
    (followers evs p).card
  wotTier : ∀ p, ((foldAll evs).state.contribute World.empty).wotTier p =
    tier (followers evs p).card

/-- If the list is taken, it names no pubkey twice, and none that has `2 ^ 32 - 1` other
followers. -/
def ListedOnce (s : Graphed) (ev : NostrEvent) : Prop :=
  ∀ author, accepts ev s.graph s.state author →
    (newFollows ev).Nodup ∧
      ∀ p ∈ newFollows ev, ((s.graph.heldBy p).erase author).card + 1 < 2 ^ 32

/-- The stored lists' followers are the followers of the sequence. -/
theorem heldBy_foldAll {evs : List NostrEvent} (hdated : Dated evs) (p : Pubkey) :
    (foldAll evs).graph.heldBy p = followers evs p := by
  ext a
  rw [GraphStore.mem_heldBy, listOf_foldAll hdated, followers, Finset.mem_filter,
    iff_and_self]
  intro hp
  cases hnewest : newestBy evs a with
  | none =>
    rw [hnewest] at hp
    exact absurd hp List.not_mem_nil
  | some ev =>
    obtain ⟨hmem, hkey⟩ := newest_mem hnewest
    rw [List.mem_toFinset, List.mem_filterMap]
    exact ⟨ev, hmem, hkey⟩

theorem counted_of_count {evs : List NostrEvent}
    (h : ∀ p, (foldAll evs).state.count p = (followers evs p).card) : Counted evs := by
  refine ⟨h, ?_, ?_⟩
  · intro p
    rw [World.followerCount, stat_contribute_empty, stat, h]
  · intro p
    rw [World.wotTier, stat_contribute_empty, stat, h]

/-- The invariant of a sequence of lists that name no pubkey twice. -/
structure Once (s : Graphed) : Prop where
  attached : s.state.attached = true
  nodup : ∀ a, (s.graph.listOf a).Nodup
  count : ∀ p, s.state.count p = (s.graph.heldBy p).card
  fits : ∀ p, (s.graph.heldBy p).card < 2 ^ 32

theorem heldBy_start (p : Pubkey) : start.graph.heldBy p = ∅ := by
  apply Finset.eq_empty_of_forall_notMem
  intro a ha
  exact List.not_mem_nil (GraphStore.mem_heldBy.mp ha)

theorem once_start : Once start := by
  refine ⟨attached_start, fun _ => List.nodup_nil, ?_, ?_⟩
  · intro p
    rw [heldBy_start, Finset.card_empty]
    exact count_attach_of_empty rfl (Nat.two_pow_pos 32)
  · intro p
    rw [heldBy_start, Finset.card_empty]
    exact Nat.two_pow_pos 32

/-- The count a list that is taken leaves, where no list held names a pubkey twice. -/
theorem count_fold_of_accepts {s : Graphed} (hs : Once s) {ev : NostrEvent} {author : Pubkey}
    (hacc : accepts ev s.graph s.state author) (p : Pubkey) :
    (s.fold ev).state.count p =
      (((s.graph.heldBy p).erase author).card + (newFollows ev).count p) % 2 ^ 32 := by
  have hocc := GraphStore.occurrences_eq_card hs.nodup p
  have hcount : s.state.count p = s.graph.occurrences p := by rw [hs.count, hocc]
  have hfits : s.graph.occurrences p < 2 ^ 32 := by
    rw [hocc]
    exact hs.fits p
  have hmod := count_observe author ev.createdAt (newFollows ev) hcount hfits
  have hput := s.graph.occurrences_put author ev.createdAt (newFollows ev) p
  -- the author's old list had `p` once, if the author is among the holders
  have hold : (s.graph.listOf author).count p + ((s.graph.heldBy p).erase author).card =
      (s.graph.heldBy p).card := by
    by_cases hmem : author ∈ s.graph.heldBy p
    · have hone := List.count_eq_one_of_mem (hs.nodup author) (GraphStore.mem_heldBy.mp hmem)
      have hcard := Finset.card_erase_add_one hmem
      omega
    · have hzero := List.count_eq_zero_of_not_mem fun h => hmem (GraphStore.mem_heldBy.mpr h)
      rw [hzero, Finset.erase_eq_of_notMem hmem, Nat.zero_add]
  rw [Graphed.fold, observe_of_newer hacc.1 hacc.2.1 hacc.2.2, hmod]
  congr 1
  omega

theorem graph_fold_of_accepts {s : Graphed} {ev : NostrEvent} {author : Pubkey}
    (hacc : accepts ev s.graph s.state author) :
    (s.fold ev).graph = s.graph.put author ev.createdAt (newFollows ev) := by
  rw [Graphed.fold, observe_of_newer hacc.1 hacc.2.1 hacc.2.2]

theorem fold_of_rejects {s : Graphed} {ev : NostrEvent}
    (h : ∀ author, ¬ accepts ev s.graph s.state author) : s.fold ev = s := by
  rcases observe_cases ev s.graph s.state with ⟨author, hacc, -⟩ | ⟨-, hobs⟩
  · exact absurd hacc (h author)
  · rw [Graphed.fold, hobs]

theorem once_fold {s : Graphed} (hs : Once s) {ev : NostrEvent} (hok : ListedOnce s ev) :
    Once (s.fold ev) := by
  by_cases hacc : ∃ author, accepts ev s.graph s.state author
  · obtain ⟨author, hacc⟩ := hacc
    obtain ⟨hnodup, hroom⟩ := hok author hacc
    have hgraph := graph_fold_of_accepts hacc
    have hcard : ∀ p, ((s.fold ev).graph.heldBy p).card =
        ((s.graph.heldBy p).erase author).card + if p ∈ newFollows ev then 1 else 0 := by
      intro p
      rw [hgraph, GraphStore.card_heldBy_put]
    have hfits : ∀ p, ((s.fold ev).graph.heldBy p).card < 2 ^ 32 := by
      intro p
      have hle := Finset.card_erase_le (s := s.graph.heldBy p) (a := author)
      have hlt := hs.fits p
      rw [hcard]
      by_cases hp : p ∈ newFollows ev
      · rw [if_pos hp]
        exact hroom p hp
      · rw [if_neg hp]
        omega
    refine ⟨attached_fold hs.attached ev, ?_, ?_, hfits⟩
    · intro a
      rw [hgraph, GraphStore.listOf_put]
      split
      · exact hnodup
      · exact hs.nodup a
    · intro p
      have hlt := hfits p
      rw [hcard] at hlt ⊢
      rw [count_fold_of_accepts hs hacc, hnodup.count]
      exact Nat.mod_eq_of_lt hlt
  · rw [fold_of_rejects (not_exists.mp hacc)]
    exact hs

/-- A list that names a pubkey twice, or follows one that cannot be counted any more, leaves a
count that is not of followers. -/
theorem miscounts {s : Graphed} (hs : Once s) {ev : NostrEvent} (htags : ev.tags.length < 2 ^ 32)
    (hbad : ¬ ListedOnce s ev) :
    ¬ ∀ p, (s.fold ev).state.count p = ((s.fold ev).graph.heldBy p).card := by
  intro h
  apply hbad
  intro author hacc
  have hlength : (newFollows ev).length ≤ ev.tags.length :=
    (List.length_filterMap_le _ _).trans (List.length_filterMap_le _ _)
  have hcount : ∀ p ∈ newFollows ev,
      (((s.graph.heldBy p).erase author).card + (newFollows ev).count p) % 2 ^ 32 =
        ((s.graph.heldBy p).erase author).card + 1 := by
    intro p hp
    have hp' := h p
    rw [count_fold_of_accepts hs hacc, graph_fold_of_accepts hacc, GraphStore.card_heldBy_put,
      if_pos hp] at hp'
    exact hp'
  have hroom : ∀ p ∈ newFollows ev, ((s.graph.heldBy p).erase author).card + 1 < 2 ^ 32 := by
    intro p hp
    have hp' := hcount p hp
    omega
  refine ⟨?_, hroom⟩
  rw [List.nodup_iff_count_le_one]
  intro p
  by_cases hp : p ∈ newFollows ev
  · have hp' := hcount p hp
    have hroom' := hroom p hp
    have hle : (newFollows ev).count p ≤ (newFollows ev).length := List.count_le_length
    omega
  · rw [List.count_eq_zero_of_not_mem hp]
    omega

/-- One list moves no count by more than one. -/
theorem count_step {s : Graphed} {ev : NostrEvent} (hs : Once s) (hs' : Once (s.fold ev))
    (p : Pubkey) :
    (s.fold ev).state.count p ≤ s.state.count p + 1 ∧
      s.state.count p ≤ (s.fold ev).state.count p + 1 := by
  rw [hs.count, hs'.count]
  by_cases hacc : ∃ author, accepts ev s.graph s.state author
  · obtain ⟨author, hacc⟩ := hacc
    have hle := Finset.card_erase_le (s := s.graph.heldBy p) (a := author)
    have hge := Finset.pred_card_le_card_erase (s := s.graph.heldBy p) (a := author)
    rw [graph_fold_of_accepts hacc, GraphStore.card_heldBy_put]
    split <;> omega
  · rw [fold_of_rejects (not_exists.mp hacc)]
    omega

/-- In a sequence whose lists, as far as they are taken, name no pubkey twice and follow none that
cannot be counted any more, every count is at every point the number of authors whose newest list
has the pubkey, and so are the counts and tiers published, and no list moves a count by more than
one. Lists of fewer than `2 ^ 32` tags are counted so only in such sequences. -/
theorem counted_once {evs : List NostrEvent} (hdated : Dated evs) :
    (Along foldStep ListedOnce start evs →
      ∀ pre, pre <+: evs → Counted pre ∧ ∀ ev, pre ++ [ev] <+: evs → ∀ p,
        (foldAll (pre ++ [ev])).state.count p ≤ (foldAll pre).state.count p + 1 ∧
          (foldAll pre).state.count p ≤ (foldAll (pre ++ [ev])).state.count p + 1) ∧
      ((∀ ev ∈ evs, ev.tags.length < 2 ^ 32) → (∀ pre, pre <+: evs → Counted pre) →
        Along foldStep ListedOnce start evs) := by
  constructor
  · intro hok
    have honce : ∀ pre, pre <+: evs → Once (foldAll pre) := by
      intro pre hpre
      have hvisited : Visited foldStep start evs (foldAll pre) :=
        visited_foldStep.mpr ⟨pre, hpre, rfl⟩
      refine visited_invariant ?_ once_start hok hvisited
      intro s ev s' hs hev hs'
      cases hs'
      exact once_fold hs hev
    intro pre hpre
    refine ⟨?_, ?_⟩
    · apply counted_of_count
      intro p
      rw [(honce pre hpre).count, heldBy_foldAll (hdated.of_prefix hpre)]
    · intro ev hev p
      have hnext := honce _ hev
      rw [foldAll_concat] at hnext ⊢
      exact count_step (honce pre hpre) hnext p
  · intro htags hcounted
    have hstep : ∀ s (ev : NostrEvent) s', Once s → ev.tags.length < 2 ^ 32 → ListedOnce s ev →
        foldStep s ev = some s' → Once s' := by
      intro s ev s' hs _ hok hs'
      cases hs'
      exact once_fold hs hok
    -- a list that names somebody twice, or one below zero, moves the count too far
    have hbad : ∀ s (ev : NostrEvent) s', Once s → ev.tags.length < 2 ^ 32 →
        ¬ ListedOnce s ev → foldStep s ev = some s' →
          ¬ ∀ p, s'.state.count p = (s'.graph.heldBy p).card := by
      intro s ev s' hs htags hbad hs'
      cases hs'
      exact miscounts hs htags hbad
    apply (visited_iff_along hstep (fun s hs => hs.count) hbad once_start htags).mp
    intro s hs p
    obtain ⟨pre, hpre, rfl⟩ := visited_foldStep.mp hs
    rw [(hcounted pre hpre).count, heldBy_foldAll (hdated.of_prefix hpre)]

/-! ## Two lists -/

/-- A contact list that names the given keys. -/
private def naming (author : String) (keys : List String) : NostrEvent :=
  { id := "a1", pubkey := author, createdAt := 1, kind := 3, tags := keys.map fun k => ["p", k]
    content := "", sig := "" }

private def key11 : String := "1111111111111111111111111111111111111111111111111111111111111111"

private def keyAA : String := "aaaaaaaaaaaaaaaaaaaaaaaaaaaaaaaaaaaaaaaaaaaaaaaaaaaaaaaaaaaaaaaa"

private def keyAA' : String := "AAAAAAAAAAAAAAAAAAAAAAAAAAAAAAAAAAAAAAAAAAAAAAAAAAAAAAAAAAAAAAAA"

/-- A list with one name in it is counted once. -/
theorem one_name_counted_once :
    Along foldStep ListedOnce start [naming key11 [keyAA]] ∧
      ∀ pre, pre <+: [naming key11 [keyAA]] → Counted pre := by
  have hdated : Dated [naming key11 [keyAA]] := by
    unfold Dated
    decide +kernel
  have hok : Along foldStep ListedOnce start [naming key11 [keyAA]] := by
    refine fun s' _ => ⟨?_, trivial⟩
    intro author _
    refine ⟨by decide +kernel, ?_⟩
    intro p _
    rw [heldBy_start, Finset.erase_empty, Finset.card_empty]
    omega
  exact ⟨hok, fun pre hpre => ((counted_once hdated).1 hok pre hpre).1⟩

/-- One author, one list, two tags with one key: the count is two and the followers are one. -/
theorem named_twice_counts_twice :
    ¬ ∀ evs : List NostrEvent, (∀ ev ∈ evs, ev.kind = 3) → ∀ p,
      (foldAll evs).state.count p = (followers evs p).card := by
  intro h
  have hcount := h [naming key11 [keyAA, keyAA']] (by decide) (Vector.replicate 32 0xaa)
  revert hcount
  decide +kernel

end FollowGraph

end NostrSearch.Stats
