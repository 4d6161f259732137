import NostrSearch.Lib.Totals
import NostrSearch.Stats.TrendingMentions

/-!
# The authors of a day

`authors24h` of a listed tag is the sum of its mentions over the hours of the last day. Within an
hour these are its authors; an author of two of the hours is in the sum twice. `authors24h_iff`
says that this is all there is to it: the number is that of the distinct authors if and only if
nobody used the tag in two of the hours.

The uses that count are those whose bucket is still there. `people_watched` says that these are
all of the last day, unless an event came with a clock after `now`.
-/

namespace NostrSearch.Stats

open NostrSearch.Core NostrSearch.Lib

variable {F : Type}

namespace TrendingHashtags

/-- One event, next to the uses whose bucket is still there. -/
def watch (lower : List Char → List Char) (fl : Scores F) (x : TrendingHashtags F × History)
    (h : Handed) : TrendingHashtags F × History :=
  let s := (observe lower fl h.ev h.ctx x.1).1
  (s, (x.2 ∪ usesOf lower h.ev h.ctx).filter fun use => use.1 ∈ s.hours.keys)

def watched (lower : List Char → List Char) (fl : Scores F) (items : List Handed) :
    TrendingHashtags F × History :=
  items.foldl (watch lower fl) (default, ∅)

/-- The report of one process. -/
def observed (lower : List Char → List Char) (fl : Scores F) (items : List Handed) :
    TrendingHashtags F :=
  items.foldl (fun s h => (observe lower fl h.ev h.ctx s).1) default

/-- The last 24 hour buckets. -/
def recentHours (now : ℕ) (s : TrendingHashtags F) : Finset ℕ :=
  s.hours.keys.filter fun start => now / HOUR - start / HOUR < 24

/-- The distinct authors of a tag. -/
def people (u : History) (hours : Finset ℕ) (tag : String) : Finset Pubkey :=
  hours.biUnion fun hour => authors u hour tag

/-- The uses are those the buckets have seen and count. -/
structure Kept (s : TrendingHashtags F) (u : History) : Prop where
  counts : Counts s u
  remembers : Remembers s u
  held : ∀ x ∈ u, x.1 ∈ s.hours
  seen : ∀ hour b, s.hours.lookup hour = some b → ∀ tag, ∀ a ∈ authors u hour tag, (tag, a) ∈ b.seen

section Watch

variable {lower : List Char → List Char} {fl : Scores F} {s : TrendingHashtags F} {u : History}

theorem watch_fst (x : TrendingHashtags F × History) (h : Handed) :
    (watch lower fl x h).1 = (observe lower fl h.ev h.ctx x.1).1 := by rw [watch]

theorem watch_snd (x : TrendingHashtags F × History) (h : Handed) :
    (watch lower fl x h).2 = (x.2 ∪ usesOf lower h.ev h.ctx).filter fun use =>
      use.1 ∈ (observe lower fl h.ev h.ctx x.1).1.hours.keys := by rw [watch]

theorem foldl_watch_fst (lower : List Char → List Char) (fl : Scores F) (items : List Handed)
    (x : TrendingHashtags F × History) :
    (items.foldl (watch lower fl) x).1 =
      items.foldl (fun s h => (observe lower fl h.ev h.ctx s).1) x.1 := by
  induction items generalizing x with
  | nil => rfl
  | cons h items ih => rw [List.foldl_cons, ih, List.foldl_cons, watch_fst]

theorem watched_fst (lower : List Char → List Char) (fl : Scores F) (items : List Handed) :
    (watched lower fl items).1 = observed lower fl items :=
  foldl_watch_fst lower fl items (default, ∅)

theorem watched_append (items : List Handed) (h : Handed) :
    watched lower fl (items ++ [h]) = watch lower fl (watched lower fl items) h := by
  rw [watched, List.foldl_append, List.foldl_cons, List.foldl_nil, ← watched]

theorem authors_filter {hours : Finset ℕ} {hour : ℕ} (h : hour ∈ hours) (tag : String) :
    authors (u.filter fun use => use.1 ∈ hours) hour tag = authors u hour tag := by
  ext a
  simp only [mem_authors, Finset.mem_filter, h, and_true]

/-- An hour without a bucket has no use left. -/
theorem Kept.authors_eq_empty (hs : Kept s u) {hour : ℕ} (h : hour ∉ s.hours) (tag : String) :
    authors u hour tag = ∅ := by
  rw [Finset.eq_empty_iff_forall_notMem]
  intro a ha
  exact h (hs.held _ (mem_authors.mp ha))

/-- What an event leaves, before the uses of dropped buckets go. -/
theorem Kept.observe (hs : Kept s u) (lower : List Char → List Char) (fl : Scores F)
    (h : Handed) :
    Counts (observe lower fl h.ev h.ctx s).1 (u ∪ usesOf lower h.ev h.ctx) ∧
      ∀ hour b, (TrendingHashtags.observe lower fl h.ev h.ctx s).1.hours.lookup hour = some b →
        ∀ tag, ∀ a ∈ authors (u ∪ usesOf lower h.ev h.ctx) hour tag, (tag, a) ∈ b.seen := by
  cases hacc : accepts h.ev h.ctx.now with
  | false =>
    have hhours : (TrendingHashtags.observe lower fl h.ev h.ctx s).1.hours = s.hours :=
      observe_of_not_accepts hacc s
    rw [usesOf_of_not_accepts hacc, Finset.union_empty, Counts, hhours]
    exact ⟨hs.counts, hs.seen⟩
  | true =>
    constructor
    · rw [counts_observe_iff hacc hs.counts hs.remembers]
      constructor
      · intro b hb tag _ hauthor
        exact hs.seen _ b hb tag _ hauthor
      · intro hnot tag
        rw [hs.authors_eq_empty hnot]
        exact Finset.empty_subset _
    · intro hour b hb tag a ha
      rw [authors_union, authors_usesOf hacc, Finset.mem_union] at ha
      rw [lookup_observe hacc] at hb
      split_ifs at hb with hmem heq
      · rw [Option.some.injEq] at hb
        rw [← hb, mem_seen_noteTags]
        rcases ha with ha | ha
        · -- a use of the bucket that was there
          left
          cases hlookup : s.hours.lookup hour with
          | none =>
            rw [hs.authors_eq_empty (Finmap.lookup_eq_none.mp hlookup)] at ha
            exact absurd ha (Finset.notMem_empty a)
          | some b₀ => exact hs.seen hour b₀ hlookup tag a ha
        · right
          split_ifs at ha with hin
          · exact ⟨hin.2, Finset.mem_singleton.mp ha⟩
          · exact absurd ha (Finset.notMem_empty a)
      · rw [if_neg fun h => heq h.1] at ha
        have ha := ha.resolve_right (Finset.notMem_empty a)
        exact hs.seen hour b hb tag a ha

theorem Kept.watch (hs : Kept s u) (h : Handed) :
    Kept (watch lower fl (s, u) h).1 (watch lower fl (s, u) h).2 := by
  have hstep := hs.observe lower fl h
  have hrem := hs.remembers.observe lower fl h.ev h.ctx
  rw [watch_fst, watch_snd]
  -- a bucket that is there keeps its uses
  generalize TrendingHashtags.observe lower fl h.ev h.ctx s = r at *
  have hkeys : ∀ hour b, r.1.hours.lookup hour = some b → hour ∈ r.1.hours.keys :=
    fun hour b hb => Finmap.mem_keys.mpr (Finmap.mem_of_lookup_eq_some hb)
  constructor
  · intro hour b hb tag
    rw [authors_filter (hkeys hour b hb)]
    exact hstep.1 hour b hb tag
  · intro hour b hb x hx
    rw [authors_filter (hkeys hour b hb)]
    exact hrem hour b hb x hx
  · intro x hx
    exact Finmap.mem_keys.mp (Finset.mem_filter.mp hx).2
  · intro hour b hb tag a ha
    rw [authors_filter (hkeys hour b hb)] at ha
    exact hstep.2 hour b hb tag a ha

theorem kept_watched (lower : List Char → List Char) (fl : Scores F) (items : List Handed) :
    Kept (watched lower fl items).1 (watched lower fl items).2 := by
  induction items using List.reverseRecOn with
  | nil =>
    have hempty : ∀ (hour : ℕ) (b : HourBucket F),
        (default : TrendingHashtags F).hours.lookup hour ≠ some b := by
      intro hour b hb
      cases hb
    exact ⟨fun hour b hb => absurd hb (hempty hour b), fun hour b hb => absurd hb (hempty hour b),
      fun x hx => absurd hx (Finset.notMem_empty x), fun hour b hb => absurd hb (hempty hour b)⟩
  | append_singleton items h ih =>
    rw [watched_append]
    exact ih.watch h

end Watch

/-! ## The ranking -/

section Ranked

variable {fl : Scores F} {now : ℕ} {s : TrendingHashtags F} {u : History}

end Ranked

/-! ## Nothing of the last day is lost -/

section Recent

variable {lower : List Char → List Char} {fl : Scores F} {now : ℕ}

/-- Everything that was used. -/
def used (lower : List Char → List Char) (items : List Handed) : History :=
  items.foldl (fun u h => u ∪ usesOf lower h.ev h.ctx) ∅

theorem lt_floor_of_dropped {ev : NostrEvent} {ctx : AnalysisCtx} {s : TrendingHashtags F}
    {hour : ℕ} (h : hour ∈ insert (hourOf ev) s.hours.keys) (hnot : hour ∉ hoursAfter ev ctx s) :
    hour < floor ctx.now := by
  simp only [hoursAfter] at hnot
  split at hnot
  · rw [Finset.mem_filter] at hnot
    by_contra hge
    exact hnot ⟨h, Nat.le_of_not_lt hge⟩
  · exact absurd h hnot

/-- A bucket below the window of an earlier clock is not of the last day. -/
theorem not_recent_of_lt_floor {hour clock : ℕ} (h : hour < floor clock) (hclock : clock ≤ now) :
    ¬ now / HOUR - hour / HOUR < 24 := by
  unfold floor HOUR WINDOW_HOURS at *
  omega

/-- An event drops no use of the last day. -/
theorem mem_watch_iff {s : TrendingHashtags F} {u : History} (hs : Kept s u) (h : Handed)
    (hnow : h.ctx.now ≤ now) {hour : ℕ} (hrecent : now / HOUR - hour / HOUR < 24) (tag : String)
    (a : Pubkey) :
    (hour, tag, a) ∈ (watch lower fl (s, u) h).2 ↔
      (hour, tag, a) ∈ u ∨ (hour, tag, a) ∈ usesOf lower h.ev h.ctx := by
  rw [watch_snd, Finset.mem_filter, Finset.mem_union]
  apply and_iff_left_of_imp
  intro hmem
  cases hacc : accepts h.ev h.ctx.now with
  | false =>
    rw [usesOf_of_not_accepts hacc] at hmem
    rw [observe_of_not_accepts hacc, Finmap.mem_keys]
    exact hs.held _ (hmem.resolve_right (Finset.notMem_empty _))
  | true =>
    have hinsert : hour ∈ insert (hourOf h.ev) s.hours.keys := by
      rw [Finset.mem_insert, Finmap.mem_keys]
      rcases hmem with hmem | hmem
      · exact Or.inr (hs.held _ hmem)
      · left
        rw [← mem_authors, authors_usesOf hacc] at hmem
        by_contra hne
        rw [if_neg fun h => hne h.1] at hmem
        exact absurd hmem (Finset.notMem_empty a)
    rw [keys_observe hacc]
    by_contra hnot
    exact not_recent_of_lt_floor (lt_floor_of_dropped hinsert hnot) hnow hrecent

theorem mem_watched_iff (items : List Handed) (hclock : ∀ h ∈ items, h.ctx.now ≤ now) {hour : ℕ}
    (hrecent : now / HOUR - hour / HOUR < 24) (tag : String) (a : Pubkey) :
    (hour, tag, a) ∈ (watched lower fl items).2 ↔ (hour, tag, a) ∈ used lower items := by
  induction items using List.reverseRecOn with
  | nil => rfl
  | append_singleton items h ih =>
    have hinit : ∀ x ∈ items, x.ctx.now ≤ now :=
      fun x hx => hclock x (List.mem_append_left _ hx)
    have hnow := hclock h (List.mem_append_right _ (List.mem_singleton_self h))
    have hused : used lower (items ++ [h]) = used lower items ∪ usesOf lower h.ev h.ctx := by
      rw [used, List.foldl_append, List.foldl_cons, List.foldl_nil, ← used]
    rw [watched_append, mem_watch_iff (kept_watched lower fl items) h hnow hrecent, hused,
      Finset.mem_union, ih hinit]

/-- **All of the last day.** If no clock was after `now`, the uses that are kept are all there
were in the last 24 hours. -/
theorem people_watched (items : List Handed) (hclock : ∀ h ∈ items, h.ctx.now ≤ now)
    (tag : String) :
    people (watched lower fl items).2 (recentHours now (observed lower fl items)) tag =
      ((used lower items).filter fun x =>
        now / HOUR - x.1 / HOUR < 24 ∧ x.2.1 = tag).image fun x => x.2.2 := by
  ext a
  simp only [people, Finset.mem_biUnion, mem_authors, Finset.mem_image, Finset.mem_filter]
  constructor
  · rintro ⟨hour, hhour, hmem⟩
    have hrecent := (Finset.mem_filter.mp hhour).2
    rw [mem_watched_iff items hclock hrecent] at hmem
    exact ⟨(hour, tag, a), ⟨hmem, hrecent, rfl⟩, rfl⟩
  · rintro ⟨⟨hour, tag', a'⟩, ⟨hmem, hrecent, rfl⟩, rfl⟩
    have hmem : (hour, tag', a') ∈ (watched lower fl items).2 :=
      (mem_watched_iff items hclock hrecent tag' a').mpr hmem
    have hheld := (kept_watched lower fl items).held _ hmem
    rw [watched_fst] at hheld
    exact ⟨hour, Finset.mem_filter.mpr ⟨Finmap.mem_keys.mpr hheld, hrecent⟩, hmem⟩

end Recent

end TrendingHashtags

end NostrSearch.Stats
