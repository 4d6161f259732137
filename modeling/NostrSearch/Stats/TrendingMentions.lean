import NostrSearch.Lib.Recipes
import NostrSearch.Stats.Trending

/-!
# What the mentions of a tag count

The mentions of a tag in an hour are meant to be the authors that used it then. A bucket adds an
author who is not among those it has `seen`, and its counts outlive what it has seen: a checkpoint
leaves this out, a pruned bucket that a late event brings back starts with nothing, and partial
reports are merged by adding their counts.

`History` is who used which tag when, as far as the events were accepted. `exact_iff` says when the
mentions are exact in every state on the way, and the buckets no more than three above the window:
if nobody uses a tag again in an hour that has forgotten them, if reports that are merged have no
author of a tag and hour in common, and if a merge, or a clock that goes back, does not pile up the
buckets.
-/

namespace NostrSearch.Stats

open NostrSearch.Core NostrSearch.Lib

variable {F : Type}

namespace HourBucket

variable {fl : Scores F} {weight : F} {author : Pubkey}

theorem count_note (acc : HourBucket F × Bool) (tag t : String) :
    (note fl weight author acc tag).1.count t =
      acc.1.count t + if t = tag ∧ (t, author) ∉ acc.1.seen then 1 else 0 := by
  unfold note
  by_cases hseen : (tag, author) ∈ acc.1.seen
  · rw [if_pos hseen, if_neg]
    · rfl
    · rintro ⟨rfl, hnot⟩
      exact hnot hseen
  · rw [if_neg hseen]
    by_cases ht : t = tag
    · subst ht
      rw [if_pos ⟨rfl, hseen⟩, count, lookup_atEntry_self]
      rfl
    · rw [if_neg fun h => ht h.1, count, lookup_atEntry_of_ne ht]
      rfl

theorem mem_seen_note {acc : HourBucket F × Bool} {tag : String} {x : String × Pubkey} :
    x ∈ (note fl weight author acc tag).1.seen ↔ x = (tag, author) ∨ x ∈ acc.1.seen := by
  unfold note
  by_cases hseen : (tag, author) ∈ acc.1.seen
  · rw [if_pos hseen]
    constructor
    · exact Or.inr
    · rintro (rfl | h)
      · exact hseen
      · exact h
  · rw [if_neg hseen, Finset.mem_insert]

variable (fl weight author) in
/-- The loop over the tags of an event. -/
theorem foldl_note {tags : List String} (htags : tags.Nodup) (acc : HourBucket F × Bool) :
    (∀ t, (tags.foldl (note fl weight author) acc).1.count t =
        acc.1.count t + if t ∈ tags ∧ (t, author) ∉ acc.1.seen then 1 else 0) ∧
      ∀ x, x ∈ (tags.foldl (note fl weight author) acc).1.seen ↔
        x ∈ acc.1.seen ∨ x.1 ∈ tags ∧ x.2 = author := by
  induction tags generalizing acc with
  | nil => simp
  | cons tag tags ih =>
    rw [List.nodup_cons] at htags
    obtain ⟨hcount, hseen⟩ := ih htags.2 (note fl weight author acc tag)
    rw [List.foldl_cons]
    constructor
    · intro t
      rw [hcount, count_note]
      simp only [mem_seen_note, List.mem_cons]
      by_cases ht : t = tag
      · subst ht
        simp [htags.1]
      · simp [ht]
    · intro x
      rw [hseen, mem_seen_note, List.mem_cons]
      constructor
      · rintro ((rfl | h) | ⟨h, hx⟩)
        · exact Or.inr ⟨Or.inl rfl, rfl⟩
        · exact Or.inl h
        · exact Or.inr ⟨Or.inr h, hx⟩
      · rintro (h | ⟨h | h, hx⟩)
        · exact Or.inl (Or.inr h)
        · exact Or.inl (Or.inl (Prod.ext h hx))
        · exact Or.inr ⟨h, hx⟩

theorem count_merge (slot b : HourBucket F) (tag : String) :
    (slot.merge fl b).count tag = slot.count tag + b.count tag := by
  show ((absorb slot.mentions 0 (· + ·) b.mentions).lookup tag).getD 0 = _
  rw [lookup_absorb, count, count]
  cases b.mentions.lookup tag <;> rfl

end HourBucket

namespace TrendingHashtags

/-! ## One event -/

section Note

variable {lower : List Char → List Char} {fl : Scores F} {ev : NostrEvent} {ctx : AnalysisCtx}

theorem count_noteTags (b : HourBucket F) (tag : String) :
    (noteTags lower fl ev ctx b).1.count tag = b.count tag +
      if tag ∈ tagsOf lower ev ∧ (tag, ctx.author) ∉ b.seen then 1 else 0 := by
  have h := (HourBucket.foldl_note fl (fl.weight ctx.authorTier) ctx.author
    (Finset.sort_nodup (tagsOf lower ev) (· ≤ ·)) (b, false)).1 tag
  simp only [Finset.mem_sort] at h
  exact h

theorem mem_seen_noteTags {b : HourBucket F} {x : String × Pubkey} :
    x ∈ (noteTags lower fl ev ctx b).1.seen ↔
      x ∈ b.seen ∨ x.1 ∈ tagsOf lower ev ∧ x.2 = ctx.author := by
  have h := (HourBucket.foldl_note fl (fl.weight ctx.authorTier) ctx.author
    (Finset.sort_nodup (tagsOf lower ev) (· ≤ ·)) (b, false)).2 x
  simp only [Finset.mem_sort] at h
  exact h

/-- The hours that are left after an event of the window. -/
def hoursAfter (ev : NostrEvent) (ctx : AnalysisCtx) (s : TrendingHashtags F) : Finset ℕ :=
  let hours := insert (hourOf ev) s.hours.keys
  if WINDOW_HOURS + 2 < hours.card then hours.filter fun hour => floor ctx.now ≤ hour else hours

theorem floor_le_hourOf (h : accepts ev ctx.now = true) : floor ctx.now ≤ hourOf ev := by
  have hge : floor ctx.now ≤ ev.createdAt := by
    unfold accepts at h
    rw [decide_eq_true_iff] at h
    omega
  -- the start of an hour that is not above the event
  unfold floor hourOf HOUR WINDOW_HOURS at *
  omega

theorem observe_of_not_accepts (h : accepts ev ctx.now = false) (s : TrendingHashtags F) :
    (observe lower fl ev ctx s).1.hours = s.hours := by
  unfold observe
  rw [h]
  rfl

theorem keys_observe (h : accepts ev ctx.now = true) (s : TrendingHashtags F) :
    (observe lower fl ev ctx s).1.hours.keys = hoursAfter ev ctx s := by
  unfold observe hoursAfter
  rw [h]
  simp only [if_true, keys_insert]
  split
  · show (retain _ _).keys = _
    rw [keys_retain, keys_insert]
  · exact keys_insert _ _ _

theorem lookup_observe (h : accepts ev ctx.now = true) (s : TrendingHashtags F) (hour : ℕ) :
    (observe lower fl ev ctx s).1.hours.lookup hour =
      if hour ∈ hoursAfter ev ctx s then
        if hour = hourOf ev then
          some (noteTags lower fl ev ctx ((s.hours.lookup hour).getD HourBucket.default)).1
        else s.hours.lookup hour
      else none := by
  by_cases hmem : hour ∈ hoursAfter ev ctx s
  · rw [if_pos hmem]
    let b := (noteTags lower fl ev ctx ((s.hours.lookup (hourOf ev)).getD HourBucket.default)).1
    have hinsert : (observe lower fl ev ctx s).1.hours.lookup hour =
        (s.hours.insert (hourOf ev) b).lookup hour := by
      have hkeys : (observe lower fl ev ctx s).1.hours.keys = _ := keys_observe h s
      rw [← hkeys] at hmem
      unfold observe at hmem ⊢
      rw [h] at hmem ⊢
      simp only [if_true] at hmem ⊢
      split at hmem
      case isTrue hbig =>
        rw [if_pos hbig]
        have hfloor : floor ctx.now ≤ hour := by
          have hkeys : hour ∈ (retain _ _).keys := hmem
          rw [keys_retain, Finset.mem_filter] at hkeys
          exact hkeys.2
        show (retain _ _).lookup hour = _
        rw [lookup_retain, if_pos hfloor]
      case isFalse hsmall => rw [if_neg hsmall]
    rw [hinsert]
    by_cases hour' : hour = hourOf ev
    · rw [if_pos hour', hour', Finmap.lookup_insert]
    · rw [if_neg hour', Finmap.lookup_insert_of_ne _ hour']
  · rw [if_neg hmem, Finmap.lookup_eq_none, ← Finmap.mem_keys, keys_observe h]
    exact hmem

end Note

/-! ## Reports -/

/-- What a report goes through, but for the merges. -/
inductive Action
  | observe (ev : NostrEvent) (ctx : AnalysisCtx)
  /-- a checkpoint that is restored -/
  | restart
  | prune (now : ℕ)

def act (lower : List Char → List Char) (fl : Scores F) (s : TrendingHashtags F) :
    Action → TrendingHashtags F
  | .observe ev ctx => (observe lower fl ev ctx s).1
  | .restart => s.restored
  | .prune now => s.prune now

/-- The report that comes of a recipe. -/
def report (lower : List Char → List Char) (fl : Scores F) (r : Recipe Action) :
    TrendingHashtags F :=
  r.eval default (act lower fl) (merge fl)

/-- The hour, the tag and the author of each use of a tag. -/
abbrev History := Finset (ℕ × String × Pubkey)

/-- What an event uses, if it is accepted. -/
def usesOf (lower : List Char → List Char) (ev : NostrEvent) (ctx : AnalysisCtx) : History :=
  if accepts ev ctx.now then (tagsOf lower ev).image fun tag => (hourOf ev, tag, ctx.author) else ∅

def Action.uses (lower : List Char → List Char) : Action → History
  | .observe ev ctx => usesOf lower ev ctx
  | .restart => ∅
  | .prune _ => ∅

/-- Everything that was used. -/
def history (lower : List Char → List Char) (r : Recipe Action) : History :=
  r.eval ∅ (fun u a => u ∪ a.uses lower) (· ∪ ·)

/-- Who used a tag in an hour. -/
def authors (u : History) (hour : ℕ) (tag : String) : Finset Pubkey :=
  (u.filter fun x => x.1 = hour ∧ x.2.1 = tag).image fun x => x.2.2

/-- The mentions of a bucket are the authors of its hour. -/
def Counts (s : TrendingHashtags F) (u : History) : Prop :=
  ∀ hour b, s.hours.lookup hour = some b → ∀ tag, b.count tag = (authors u hour tag).card

/-- The mentions are the authors, and the buckets are in bounds. -/
structure Exact (s : TrendingHashtags F) (u : History) : Prop where
  mentions : Counts s u
  bound : s.hours.keys.card ≤ WINDOW_HOURS + 3

/-- What an accepted event has to meet: its author is remembered, and if the hour has no bucket,
nobody else used a tag then. The last part bounds the hours that the window of `ctx.now` has. -/
def ObserveFits (lower : List Char → List Char) (ev : NostrEvent) (ctx : AnalysisCtx)
    (s : TrendingHashtags F) (u : History) : Prop :=
  (∀ b, s.hours.lookup (hourOf ev) = some b →
    ∀ tag ∈ tagsOf lower ev, ctx.author ∈ authors u (hourOf ev) tag → (tag, ctx.author) ∈ b.seen) ∧
  (hourOf ev ∉ s.hours →
    ∀ tag, authors u (hourOf ev) tag ⊆ if tag ∈ tagsOf lower ev then {ctx.author} else ∅) ∧
  ((insert (hourOf ev) s.hours.keys).filter fun hour => floor ctx.now ≤ hour).card ≤
    WINDOW_HOURS + 3

/-- What two reports have to meet that are merged: where both have an hour, no author of a tag is
in both, and where one has it, the other knows of no further author. -/
def MergeFits (s other : TrendingHashtags F) (u v : History) : Prop :=
  (∀ hour tag, (hour ∈ s.hours → hour ∈ other.hours →
      Disjoint (authors u hour tag) (authors v hour tag)) ∧
    (hour ∈ s.hours → hour ∉ other.hours → authors v hour tag ⊆ authors u hour tag) ∧
    (hour ∉ s.hours → hour ∈ other.hours → authors u hour tag ⊆ authors v hour tag)) ∧
  (s.hours.keys ∪ other.hours.keys).card ≤ WINDOW_HOURS + 3

/-- What the last step of a recipe has to meet. -/
def Fits (lower : List Char → List Char) (fl : Scores F) : Recipe Action → Prop
  | .new => True
  | .fold r (.observe ev ctx) =>
    accepts ev ctx.now = true → ObserveFits lower ev ctx (report lower fl r) (history lower r)
  | .fold _ .restart => True
  | .fold _ (.prune _) => True
  | .merge r t =>
    MergeFits (report lower fl r) (report lower fl t) (history lower r) (history lower t)

section Authors

variable {lower : List Char → List Char} {ev : NostrEvent} {ctx : AnalysisCtx} {u v : History}
  {hour : ℕ} {tag : String} {a : Pubkey}

theorem mem_authors : a ∈ authors u hour tag ↔ (hour, tag, a) ∈ u := by
  simp only [authors, Finset.mem_image, Finset.mem_filter]
  constructor
  · rintro ⟨⟨h, t, a'⟩, ⟨hmem, rfl, rfl⟩, rfl⟩
    exact hmem
  · intro hmem
    exact ⟨(hour, tag, a), ⟨hmem, rfl, rfl⟩, rfl⟩

theorem authors_union : authors (u ∪ v) hour tag = authors u hour tag ∪ authors v hour tag := by
  ext a
  simp only [mem_authors, Finset.mem_union]

theorem authors_usesOf (h : accepts ev ctx.now = true) :
    authors (usesOf lower ev ctx) hour tag =
      if hour = hourOf ev ∧ tag ∈ tagsOf lower ev then {ctx.author} else ∅ := by
  ext a
  rw [mem_authors, usesOf, if_pos h]
  simp only [Finset.mem_image, Prod.mk.injEq]
  split
  case isTrue hin =>
    rw [Finset.mem_singleton]
    constructor
    · rintro ⟨_, _, _, _, rfl⟩
      rfl
    · rintro rfl
      exact ⟨tag, hin.2, hin.1.symm, rfl, rfl⟩
  case isFalse hout =>
    simp only [Finset.notMem_empty, iff_false]
    rintro ⟨t, ht, rfl, rfl, _⟩
    exact hout ⟨rfl, ht⟩

theorem usesOf_of_not_accepts (h : accepts ev ctx.now = false) : usesOf lower ev ctx = ∅ := by
  rw [usesOf, if_neg (by simp [h])]

end Authors

/-! ## One step -/

section Step

variable {lower : List Char → List Char} {fl : Scores F} {ev : NostrEvent} {ctx : AnalysisCtx}
  {s other : TrendingHashtags F} {u v : History}

/-- Nobody is seen who used nothing. -/
def Remembers (s : TrendingHashtags F) (u : History) : Prop :=
  ∀ hour b, s.hours.lookup hour = some b → ∀ x ∈ b.seen, x.2 ∈ authors u hour x.1

theorem Remembers.observe (h : Remembers s u) (lower : List Char → List Char) (fl : Scores F)
    (ev : NostrEvent) (ctx : AnalysisCtx) :
    Remembers (observe lower fl ev ctx s).1 (u ∪ usesOf lower ev ctx) := by
  intro hour b hb x hx
  rw [authors_union, Finset.mem_union]
  cases hacc : accepts ev ctx.now with
  | false =>
    rw [observe_of_not_accepts hacc] at hb
    exact Or.inl (h hour b hb x hx)
  | true =>
    rw [lookup_observe hacc] at hb
    split_ifs at hb with hmem heq
    · rw [Option.some.injEq] at hb
      rw [← hb, mem_seen_noteTags] at hx
      rcases hx with hx | ⟨htag, hauthor⟩
      · -- an author the bucket had seen
        cases hlookup : s.hours.lookup hour with
        | none =>
          rw [hlookup] at hx
          exact absurd hx (Finset.notMem_empty x)
        | some b' =>
          rw [hlookup] at hx
          exact Or.inl (h hour b' hlookup x hx)
      · rw [authors_usesOf hacc, if_pos ⟨heq, htag⟩, Finset.mem_singleton]
        exact Or.inr hauthor
    · exact Or.inl (h hour b hb x hx)

theorem Remembers.merge (h : Remembers s u) (h' : Remembers other v) (fl : Scores F) :
    Remembers (TrendingHashtags.merge fl s other) (u ∪ v) := by
  intro hour b hb x hx
  rw [authors_union, Finset.mem_union]
  have hlookup : (TrendingHashtags.merge fl s other).hours.lookup hour = _ := lookup_absorb hour
  rw [hlookup] at hb
  cases hother : other.hours.lookup hour with
  | none =>
    rw [hother] at hb
    exact Or.inl (h hour b hb x hx)
  | some b' =>
    rw [hother] at hb
    have hb : (HourBucket.merge fl ((s.hours.lookup hour).getD HourBucket.default) b') = b :=
      Option.some.inj hb
    rw [← hb] at hx
    rcases Finset.mem_union.mp hx with hx | hx
    · cases hs : s.hours.lookup hour with
      | none =>
        rw [hs] at hx
        exact absurd hx (Finset.notMem_empty x)
      | some b₀ =>
        rw [hs] at hx
        exact Or.inl (h hour b₀ hs x hx)
    · exact Or.inr (h' hour b' hother x hx)

theorem remembers_restored (s : TrendingHashtags F) (u : History) : Remembers s.restored u := by
  intro hour b hb x hx
  have hlookup : s.restored.hours.lookup hour = _ := lookup_mapBuckets hour
  rw [hlookup] at hb
  cases hs : s.hours.lookup hour with
  | none =>
    rw [hs] at hb
    cases hb
  | some b₀ =>
    rw [hs, Option.map_some, Option.some.injEq] at hb
    rw [← hb] at hx
    exact absurd hx (Finset.notMem_empty x)

theorem Remembers.prune (h : Remembers s u) (now : ℕ) : Remembers (s.prune now) u := by
  intro hour b hb x hx
  have hlookup : (s.prune now).hours.lookup hour = _ := lookup_retain hour
  rw [hlookup] at hb
  split at hb
  · exact h hour b hb x hx
  · cases hb

theorem remembers_report (lower : List Char → List Char) (fl : Scores F) (r : Recipe Action) :
    Remembers (report lower fl r) (history lower r) := by
  induction r with
  | new =>
    intro hour b hb
    cases hb
  | fold r a ih =>
    cases a with
    | observe ev ctx => exact ih.observe lower fl ev ctx
    | restart => simpa [report, history, Recipe.eval, act, Action.uses] using remembers_restored _ _
    | prune now => simpa [report, history, Recipe.eval, act, Action.uses] using ih.prune now
  | merge r t ihr iht => exact ihr.merge iht fl

/-- What one more author does to a count. -/
theorem count_add_eq_card_iff {A : Finset Pubkey} {a : Pubkey} {p q : Prop} [Decidable p]
    [Decidable q] (hq : q → a ∈ A) :
    A.card + (if p ∧ ¬ q then 1 else 0) = (A ∪ if p then {a} else ∅).card ↔
      (p → a ∈ A → q) := by
  by_cases hp : p
  · rw [if_pos hp, Finset.union_singleton, Finset.card_insert_eq_ite]
    by_cases ha : a ∈ A
    · by_cases hq' : q <;> simp [hp, ha, hq']
    · have hq' : ¬ q := fun h => ha (hq h)
      simp [hp, ha, hq']
  · simp [hp]

/-- The authors of a tag that a bucket starts with. -/
theorem one_eq_card_iff {A : Finset Pubkey} {a : Pubkey} {p : Prop} [Decidable p] :
    (if p then 1 else 0) = (A ∪ if p then {a} else ∅).card ↔ A ⊆ if p then {a} else ∅ := by
  by_cases hp : p
  · simp only [if_pos hp]
    constructor
    · intro h
      have heq : {a} = A ∪ {a} :=
        Finset.eq_of_subset_of_card_le Finset.subset_union_right (by rw [← h]; rfl)
      rw [heq]
      exact Finset.subset_union_left
    · intro hA
      rw [Finset.union_eq_right.mpr hA]
      rfl
  · simp only [if_neg hp]
    rw [Finset.union_empty, eq_comm, Finset.card_eq_zero, Finset.subset_empty]

/-- Of the bucket of the hour alone, as the others do not change. -/
theorem counts_observe_iff_bucket (h : accepts ev ctx.now = true) (hs : Counts s u) :
    Counts (observe lower fl ev ctx s).1 (u ∪ usesOf lower ev ctx) ↔ ∀ tag,
      (noteTags lower fl ev ctx
        ((s.hours.lookup (hourOf ev)).getD HourBucket.default)).1.count tag =
      (authors u (hourOf ev) tag ∪ if tag ∈ tagsOf lower ev then {ctx.author} else ∅).card := by
  have hunion : ∀ hour tag, authors (u ∪ usesOf lower ev ctx) hour tag =
      authors u hour tag ∪
        if hour = hourOf ev ∧ tag ∈ tagsOf lower ev then {ctx.author} else ∅ := by
    intro hour tag
    rw [authors_union, authors_usesOf h]
  have hself : hourOf ev ∈ hoursAfter ev ctx s := by
    have hinsert := Finset.mem_insert_self (hourOf ev) s.hours.keys
    simp only [hoursAfter]
    split
    · exact Finset.mem_filter.mpr ⟨hinsert, floor_le_hourOf h⟩
    · exact hinsert
  simp only [Counts, lookup_observe h, hunion]
  constructor
  · intro hall tag
    have htag := hall (hourOf ev) _ (by rw [if_pos hself, if_pos rfl]) tag
    simpa using htag
  · intro hcount hour b hb tag
    split_ifs at hb with hmem heq
    · rw [Option.some.injEq] at hb
      rw [← hb, heq, hcount]
      simp
    · rw [hs hour b hb]
      simp [heq]

/-- The author is remembered, or there was nothing to remember. -/
theorem counts_observe_iff (h : accepts ev ctx.now = true) (hs : Counts s u)
    (hu : Remembers s u) :
    Counts (observe lower fl ev ctx s).1 (u ∪ usesOf lower ev ctx) ↔
      (∀ b, s.hours.lookup (hourOf ev) = some b → ∀ tag ∈ tagsOf lower ev,
        ctx.author ∈ authors u (hourOf ev) tag → (tag, ctx.author) ∈ b.seen) ∧
      (hourOf ev ∉ s.hours → ∀ tag,
        authors u (hourOf ev) tag ⊆ if tag ∈ tagsOf lower ev then {ctx.author} else ∅) := by
  rw [counts_observe_iff_bucket h hs]
  simp only [count_noteTags]
  cases hb : s.hours.lookup (hourOf ev) with
  | none =>
    have hnot : hourOf ev ∉ s.hours := Finmap.lookup_eq_none.mp hb
    have hnew : ∀ tag, ((none : Option (HourBucket F)).getD HourBucket.default).count tag +
        (if tag ∈ tagsOf lower ev ∧
            (tag, ctx.author) ∉ ((none : Option (HourBucket F)).getD HourBucket.default).seen
          then 1 else 0) = if tag ∈ tagsOf lower ev then 1 else 0 := by
      intro tag
      rw [Option.getD_none]
      show 0 + _ = _
      simp [HourBucket.default]
    simp only [hnew, one_eq_card_iff]
    simp [hnot]
  | some b =>
    have hin : hourOf ev ∈ s.hours := Finmap.mem_of_lookup_eq_some hb
    have hcount := hs (hourOf ev) b hb
    have hseen : ∀ tag, (tag, ctx.author) ∈ b.seen → ctx.author ∈ authors u (hourOf ev) tag :=
      fun tag hmem => hu (hourOf ev) b hb (tag, ctx.author) hmem
    simp only [Option.getD_some, hcount, fun tag => count_add_eq_card_iff (hseen tag)]
    simp only [Option.some.injEq, forall_eq', hin, not_true_eq_false, false_implies, and_true]

/-- **One event.** -/
theorem exact_observe_iff (h : accepts ev ctx.now = true) (hs : Exact s u)
    (hu : Remembers s u) :
    Exact (observe lower fl ev ctx s).1 (u ∪ usesOf lower ev ctx) ↔
      ObserveFits lower ev ctx s u := by
  have hbound : (observe lower fl ev ctx s).1.hours.keys.card ≤ WINDOW_HOURS + 3 ↔
      ((insert (hourOf ev) s.hours.keys).filter fun hour => floor ctx.now ≤ hour).card ≤
        WINDOW_HOURS + 3 := by
    rw [keys_observe h, hoursAfter]
    have hle := Finset.card_filter_le (insert (hourOf ev) s.hours.keys)
      fun hour => floor ctx.now ≤ hour
    split
    · rfl
    · omega
  constructor
  · intro hexact
    have hm := (counts_observe_iff h hs.mentions hu).mp hexact.mentions
    exact ⟨hm.1, hm.2, hbound.mp hexact.bound⟩
  · intro hfits
    refine ⟨?_, hbound.mpr hfits.2.2⟩
    exact (counts_observe_iff h hs.mentions hu).mpr ⟨hfits.1, hfits.2.1⟩

theorem exact_observe_of_not_accepts (h : accepts ev ctx.now = false) (hs : Exact s u) :
    Exact (observe lower fl ev ctx s).1 (u ∪ usesOf lower ev ctx) := by
  rw [usesOf_of_not_accepts h, Finset.union_empty]
  have hhours : (observe lower fl ev ctx s).1.hours = s.hours := observe_of_not_accepts h s
  constructor
  · rw [Counts, hhours]
    exact hs.mentions
  · rw [hhours]
    exact hs.bound

/-- A restart keeps the counts. -/
theorem Exact.restored (hs : Exact s u) : Exact s.restored u := by
  constructor
  · intro hour b hb tag
    have hlookup : s.restored.hours.lookup hour = _ := lookup_mapBuckets hour
    rw [hlookup] at hb
    cases hs₀ : s.hours.lookup hour with
    | none =>
      rw [hs₀] at hb
      cases hb
    | some b₀ =>
      rw [hs₀, Option.map_some, Option.some.injEq] at hb
      rw [← hb, ← hs.mentions hour b₀ hs₀]
      rfl
  · have hkeys : s.restored.hours.keys = s.hours.keys := keys_mapBuckets
    rw [hkeys]
    exact hs.bound

/-- Pruning drops buckets. -/
theorem Exact.prune (hs : Exact s u) (now : ℕ) : Exact (s.prune now) u := by
  constructor
  · intro hour b hb
    have hlookup : (s.prune now).hours.lookup hour = _ := lookup_retain hour
    rw [hlookup] at hb
    split at hb
    · exact hs.mentions hour b hb
    · cases hb
  · have hkeys : (s.prune now).hours.keys = _ := keys_retain
    rw [hkeys]
    exact (Finset.card_filter_le _ _).trans hs.bound

/-- What is merged from a report without the hour. -/
theorem card_eq_card_union_iff {A B : Finset Pubkey} : A.card = (A ∪ B).card ↔ B ⊆ A := by
  constructor
  · intro h
    rw [Finset.eq_of_subset_of_card_le Finset.subset_union_left h.ge]
    exact Finset.subset_union_right
  · intro h
    rw [Finset.union_eq_left.mpr h]

/-- What two counts of an hour come to. -/
theorem mentions_merge_iff (hs : Exact s u) (ht : Exact other v) (hour : ℕ) (tag : String) :
    (∀ b, (merge fl s other).hours.lookup hour = some b →
      b.count tag = (authors (u ∪ v) hour tag).card) ↔
    (hour ∈ s.hours → hour ∈ other.hours →
      Disjoint (authors u hour tag) (authors v hour tag)) ∧
    (hour ∈ s.hours → hour ∉ other.hours → authors v hour tag ⊆ authors u hour tag) ∧
    (hour ∉ s.hours → hour ∈ other.hours → authors u hour tag ⊆ authors v hour tag) := by
  have hlookup : (merge fl s other).hours.lookup hour = _ := lookup_absorb hour
  rw [hlookup, authors_union]
  simp only [← Finmap.lookup_isSome]
  cases hb : s.hours.lookup hour with
  | none =>
    cases hb' : other.hours.lookup hour with
    | none => simp
    | some b' =>
      have hcount : (HourBucket.default.merge fl b').count tag = (authors v hour tag).card := by
        rw [HourBucket.count_merge, ht.mentions hour b' hb']
        exact Nat.zero_add _
      simp [hcount, Finset.union_comm (authors u hour tag), card_eq_card_union_iff]
  | some b =>
    have hcount := hs.mentions hour b hb tag
    cases hb' : other.hours.lookup hour with
    | none => simp [hcount, card_eq_card_union_iff]
    | some b' =>
      have hcount' := ht.mentions hour b' hb' tag
      rw [← Finset.card_union_eq_card_add_card, eq_comm]
      simpa [HourBucket.count_merge, hcount, hcount'] using eq_comm

/-- **Two reports.** -/
theorem exact_merge_iff (hs : Exact s u) (ht : Exact other v) :
    Exact (merge fl s other) (u ∪ v) ↔ MergeFits s other u v := by
  have hkeys : (merge fl s other).hours.keys = s.hours.keys ∪ other.hours.keys := keys_absorb
  constructor
  · intro hexact
    have hbound := hexact.bound
    rw [hkeys] at hbound
    refine ⟨fun hour tag => ?_, hbound⟩
    rw [← mentions_merge_iff hs ht]
    intro b hb
    exact hexact.mentions hour b hb tag
  · intro hfits
    constructor
    · intro hour b hb tag
      exact (mentions_merge_iff hs ht hour tag).mpr (hfits.1 hour tag) b hb
    · rw [hkeys]
      exact hfits.2

end Step

/-! ## Every state of a report -/

/-- **When the mentions of a tag are its authors.** In every state of a report and of the reports
merged into it the mentions are exact and the buckets in bounds, if and only if every step fits. -/
theorem exact_iff (lower : List Char → List Char) (fl : Scores F) (r : Recipe Action) :
    (∀ t ∈ r.parts, Exact (report lower fl t) (history lower t)) ↔
      ∀ t ∈ r.parts, Fits lower fl t := by
  apply Recipe.every_iff
  · have hempty : Exact (report lower fl .new) (history lower .new) := by
      constructor
      · intro hour b hb
        cases hb
      · exact Nat.zero_le _
    exact ⟨hempty, trivial⟩
  · intro r a hr
    have hu := remembers_report lower fl r
    cases a with
    | observe ev ctx =>
      show Exact (observe lower fl ev ctx (report lower fl r)).1
        (history lower r ∪ usesOf lower ev ctx) ↔ _
      cases hacc : accepts ev ctx.now with
      | true =>
        rw [exact_observe_iff hacc hr hu]
        simp [Fits, hacc]
      | false =>
        apply iff_of_true (exact_observe_of_not_accepts hacc hr)
        simp [Fits, hacc]
    | restart =>
      apply iff_of_true _ trivial
      show Exact (report lower fl r).restored (history lower r ∪ ∅)
      rw [Finset.union_empty]
      exact hr.restored
    | prune now =>
      apply iff_of_true _ trivial
      show Exact ((report lower fl r).prune now) (history lower r ∪ ∅)
      rw [Finset.union_empty]
      exact hr.prune now
  · intro r t hr ht
    exact exact_merge_iff hr ht

/-- Rational scores, with a decay that takes a step every day. -/
def rationalScores : Scores ℚ where
  zero := 0
  add := (· + ·)
  mul := (· * ·)
  weight tier := 1 + tier / 2
  decay age := (1 / 2) ^ (age / 24)
  partialCmp a b := some (compare a b)

/-- A note with a hashtag. -/
def taggedNote (createdAt : ℕ) : NostrEvent :=
  { id := "", pubkey := "", createdAt := createdAt, kind := 1, tags := [["t", "nostr"]]
    content := "", sig := "" }

/-- The clock, and an author. -/
def clockAt (now : ℕ) : AnalysisCtx :=
  { now := now, author := Vector.replicate 32 0, eventId := Vector.replicate 32 0
    world := World.empty }

/-- The note is folded, the process restarts, and the note is folded again. -/
def restarted : Recipe Action :=
  .fold (.fold (.fold .new (.observe (taggedNote 1700000000) (clockAt 1700000000))) .restart)
    (.observe (taggedNote 1700000000) (clockAt 1700000000))

/-- Two mentions, by one author. -/
theorem restarted_not_exact :
    ¬ Exact (report asciiLower rationalScores restarted) (history asciiLower restarted) := by
  have hcount : ((report asciiLower rationalScores restarted).hours.lookup 1699999200).map
      (HourBucket.count · "nostr") = some 2 := by decide +kernel
  have hauthors : (authors (history asciiLower restarted) 1699999200 "nostr").card = 1 := by
    decide +kernel
  rw [Option.map_eq_some_iff] at hcount
  obtain ⟨b, hb, hcount⟩ := hcount
  intro hexact
  have heq := hexact.mentions 1699999200 b hb "nostr"
  omega

end TrendingHashtags

end NostrSearch.Stats
