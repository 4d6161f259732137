import NostrSearch.Stats.Graph
import NostrSearch.Stats.Registry

/-!
# Follow-graph producer

Consumes kind-3 contact lists and keeps follower counts per pubkey incrementally, next to the
adjacency in the `GraphStore`. A list not newer than the one held is dropped; a newer one takes
the old one's entries out of the counts and puts its own in.

The counts are 32 bits wide, so `count_observe`, which says how one step moves them together with
the occurrences in the store, asks that both fit.
-/

namespace NostrSearch.Stats

open NostrSearch.Core

structure FollowGraph where
  /-- followed pubkey → follower count -/
  counts : Finmap (fun _ : Pubkey => ℕ)
  /-- whether the graph store has been handed over -/
  attached : Bool

namespace FollowGraph

def default : FollowGraph := { counts := ∅, attached := false }

/-- The count of a pubkey, zero when it has none. -/
def count (s : FollowGraph) (p : Pubkey) : ℕ := (s.counts.lookup p).getD 0

def tier (count : ℕ) : ℕ :=
  if count ≤ 9 then 0
  else if count ≤ 99 then 1
  else if count ≤ 999 then 2
  else if count ≤ 9999 then 3
  else 4

/-- `(c as i64 + delta).max(0) as u32`. -/
def bump (delta : ℤ) (c : ℕ) : ℕ := (max (c + delta) 0).toNat % 2 ^ 32

def setCount (s : FollowGraph) (p : Pubkey) (c : ℕ) : FollowGraph :=
  { s with counts := s.counts.insert p c }

def applyDelta (s : FollowGraph) (followed : List Pubkey) (delta : ℤ) : FollowGraph :=
  followed.foldl (fun s p => s.setCount p (bump delta (s.count p))) s

/-- One turn of the recount in `attach`: the counts so far and the authors seen. -/
def recountStep (acc : FollowGraph × ℕ) (_author : Pubkey) (fl : Follows) : FollowGraph × ℕ :=
  (fl.follows.foldl (fun s p => s.setCount p ((s.count p + 1) % 2 ^ 32)) acc.1, acc.2 + 1)

/-- Take the store, and rebuild the follower tally from it when there is none. -/
def attach (graph : GraphStore) (s : FollowGraph) : FollowGraph :=
  let s := { s with attached := true }
  if s.counts = ∅ then
    let acc := graph.forEach recountStep ({ s with counts := ∅ }, 0)
    if 0 < acc.2 then acc.1 else s
  else s

def onReset (s : FollowGraph) (graph : GraphStore) : GraphStore :=
  if s.attached then graph.clear else graph

/-- The pubkeys an event's `p` tags list. -/
def newFollows (ev : NostrEvent) : List Pubkey := (ev.tagValues "p").filterMap Hash32.fromHex

/-- Whether a list is newer than the one the store holds for its author. -/
def newer (graph : GraphStore) (author : Pubkey) (ev : NostrEvent) : Bool :=
  match graph.createdAt author with
  | some prev => decide (prev < ev.createdAt)
  | none => true

def observe (ev : NostrEvent) (graph : GraphStore) (s : FollowGraph) :
    FollowGraph × GraphStore × Bool :=
  match Hash32.fromHex ev.pubkey with
  | none => (s, graph, false)
  | some author =>
    if s.attached then
      if newer graph author ev then
        let s :=
          match graph.get author with
          | some old => s.applyDelta old.follows (-1)
          | none => s
        (s.applyDelta (newFollows ev) 1, graph.put author ev.createdAt (newFollows ev), true)
      else (s, graph, false)
    else (s, graph, false)

/-- Publish counts and tiers. The source goes through the hash map in its own order, which makes
no difference as no key comes twice. -/
def contribute (s : FollowGraph) (world : World) : World :=
  (sortedKeys s.counts).foldl
    (fun w p => (w.setFollowerCount p (s.count p)).setWotTier p (tier (s.count p))) world

/-- The store handle is not part of a checkpoint. -/
def restored (s : FollowGraph) : FollowGraph := { s with attached := false }

/-- `follow_graph` as the registry sees it. -/
def analysis : DynAnalysis FollowGraph GraphStore where
  name := "follow_graph"
  epoch := 0
  deps := []
  refreshInterval := none
  kinds := some [3]
  default := default
  attach := attach
  observe := fun ev _ => observe ev
  refresh := fun _ s => s
  contribute := contribute
  onReset := onReset
  restored := restored

/-! ## Publishing -/

/-- What the counts say of a pubkey: nothing, when it has none. -/
def stat (s : FollowGraph) (pk : Pubkey) : PubkeyStat :=
  { followers := s.count pk, wotTier := tier (s.count pk) }

theorem stat_of_notMem {s : FollowGraph} {pk : Pubkey} (h : pk ∉ s.counts) : s.stat pk = {} := by
  have hcount : s.count pk = 0 := by rw [count, Finmap.lookup_eq_none.mpr h, Option.getD_none]
  rw [stat, hcount]
  rfl

/-- **`contribute`** writes the pubkeys it counts, and only those. -/
theorem stat_contribute (s : FollowGraph) (w : World) (pk : Pubkey) :
    (s.contribute w).stat pk = if pk ∈ s.counts then s.stat pk else w.stat pk := by
  have hloop : ∀ (l : List Pubkey) (w : World),
      (l.foldl (fun w p => (w.setFollowerCount p (s.count p)).setWotTier p (tier (s.count p)))
        w).stat pk = if pk ∈ l then s.stat pk else w.stat pk := by
    intro l
    induction l with
    | nil => simp
    | cons p l ih =>
      intro w
      rw [List.foldl_cons, ih, World.stat_setWotTier, World.stat_setFollowerCount]
      by_cases hpk : pk = p
      · subst hpk
        simp [stat]
      · simp [hpk]
  rw [contribute, hloop]
  simp only [mem_sortedKeys, Finmap.mem_keys]

/-- The world is what the counts say, if it had nothing for the others. -/
theorem contribute_exact_iff (s : FollowGraph) (w : World) :
    (∀ pk, (s.contribute w).stat pk = s.stat pk) ↔ ∀ pk, w.stat pk ≠ {} → pk ∈ s.counts := by
  apply forall_congr'
  intro pk
  rw [stat_contribute]
  split
  case isTrue h => simp [h]
  case isFalse h =>
    rw [stat_of_notMem h]
    simp [h]

/-! ## Counting -/

@[simp] theorem count_default (p : Pubkey) : default.count p = 0 := rfl

@[simp] theorem count_restored (s : FollowGraph) (p : Pubkey) : s.restored.count p = s.count p :=
  rfl

theorem count_setCount (s : FollowGraph) (p q : Pubkey) (c : ℕ) :
    (s.setCount q c).count p = if p = q then c else s.count p := by
  unfold count setCount
  by_cases hpq : p = q
  · rw [hpq, Finmap.lookup_insert, if_pos rfl, Option.getD_some]
  · rw [Finmap.lookup_insert_of_ne _ hpq, if_neg hpq]

theorem bump_neg_one {c : ℕ} (h : c < 2 ^ 32) : bump (-1) c = c - 1 := by
  unfold bump
  omega

theorem bump_one (c : ℕ) : bump 1 c = (c + 1) % 2 ^ 32 := by
  unfold bump
  omega

@[simp] theorem attached_applyDelta (s : FollowGraph) (followed : List Pubkey) (delta : ℤ) :
    (s.applyDelta followed delta).attached = s.attached := by
  induction followed generalizing s with
  | nil => rfl
  | cons q qs ih =>
    have hstep := ih (s.setCount q (bump delta (s.count q)))
    rw [applyDelta, List.foldl_cons]
    exact hstep

theorem applyDelta_cons (s : FollowGraph) (q : Pubkey) (qs : List Pubkey) (delta : ℤ) :
    s.applyDelta (q :: qs) delta =
      (s.setCount q (bump delta (s.count q))).applyDelta qs delta := rfl

/-- Taking a list out lowers each count by how often the list has the pubkey, down to zero. -/
theorem count_applyDelta_neg (s : FollowGraph) (followed : List Pubkey) {p : Pubkey}
    (h : s.count p < 2 ^ 32) :
    (s.applyDelta followed (-1)).count p = s.count p - followed.count p := by
  induction followed generalizing s with
  | nil => rfl
  | cons q qs ih =>
    have hq := s.count_setCount p q (bump (-1) (s.count q))
    by_cases hpq : p = q
    · subst hpq
      rw [if_pos rfl] at hq
      have hb := bump_neg_one h
      rw [applyDelta_cons, ih _ (by omega), hq, hb, List.count_cons_self]
      omega
    · rw [if_neg hpq] at hq
      rw [applyDelta_cons, ih _ (by omega), hq, List.count_cons_of_ne (Ne.symm hpq)]

/-- Putting a list in raises each count by how often the list has the pubkey, modulo `2 ^ 32`. -/
theorem count_applyDelta_one (s : FollowGraph) (followed : List Pubkey) {p : Pubkey}
    (h : s.count p < 2 ^ 32) :
    (s.applyDelta followed 1).count p = (s.count p + followed.count p) % 2 ^ 32 := by
  induction followed generalizing s with
  | nil => exact (Nat.mod_eq_of_lt h).symm
  | cons q qs ih =>
    have hq := s.count_setCount p q (bump 1 (s.count q))
    by_cases hpq : p = q
    · subst hpq
      rw [if_pos rfl] at hq
      have hb := bump_one (s.count p)
      rw [applyDelta_cons, ih _ (by omega), hq, hb, List.count_cons_self]
      omega
    · rw [if_neg hpq] at hq
      rw [applyDelta_cons, ih _ (by omega), hq, List.count_cons_of_ne (Ne.symm hpq)]

/-- The recount adds up the same way. -/
theorem recountStep_fst (acc : FollowGraph × ℕ) (author : Pubkey) (fl : Follows) :
    (recountStep acc author fl).1 = acc.1.applyDelta fl.follows 1 := by
  unfold recountStep applyDelta
  simp only [bump_one]

/-! ## One step -/

/-- What `observe` does with a list it takes. -/
theorem observe_of_newer {ev : NostrEvent} {graph : GraphStore} {s : FollowGraph}
    {author : Pubkey} (hauthor : Hash32.fromHex ev.pubkey = some author)
    (hs : s.attached = true) (hnewer : newer graph author ev = true) :
    observe ev graph s =
      ((s.applyDelta (graph.listOf author) (-1)).applyDelta (newFollows ev) 1,
        graph.put author ev.createdAt (newFollows ev), true) := by
  unfold observe
  rw [hauthor]
  simp only [hs, hnewer, if_true]
  rw [GraphStore.listOf]
  cases graph.get author with
  | none => rfl
  | some old => rfl

/-- What it takes for a list to be taken. -/
def accepts (ev : NostrEvent) (graph : GraphStore) (s : FollowGraph) (author : Pubkey) : Prop :=
  Hash32.fromHex ev.pubkey = some author ∧ s.attached = true ∧ newer graph author ev = true

instance (ev : NostrEvent) (graph : GraphStore) (s : FollowGraph) (author : Pubkey) :
    Decidable (accepts ev graph s author) := inferInstanceAs (Decidable (_ ∧ _ ∧ _))

/-- `observe` takes the list, or leaves everything as it is. -/
theorem observe_cases (ev : NostrEvent) (graph : GraphStore) (s : FollowGraph) :
    (∃ author, accepts ev graph s author ∧
      observe ev graph s =
        ((s.applyDelta (graph.listOf author) (-1)).applyDelta (newFollows ev) 1,
          graph.put author ev.createdAt (newFollows ev), true)) ∨
      ((∀ author, ¬ accepts ev graph s author) ∧ observe ev graph s = (s, graph, false)) := by
  cases hauthor : Hash32.fromHex ev.pubkey with
  | none =>
    right
    constructor
    · rintro author ⟨h, -, -⟩
      rw [hauthor] at h
      cases h
    · unfold observe
      rw [hauthor]
  | some author =>
    by_cases hs : s.attached = true ∧ newer graph author ev = true
    · exact Or.inl ⟨author, ⟨hauthor, hs⟩, observe_of_newer hauthor hs.1 hs.2⟩
    · right
      constructor
      · rintro a ⟨h, hrest⟩
        rw [hauthor, Option.some.injEq] at h
        subst h
        exact hs hrest
      · unfold observe
        rw [hauthor]
        rcases not_and_or.mp hs with h | h <;> simp [h]

/-- How one taken list moves a count that was the tally, modulo the width of a count. -/
theorem count_observe {graph : GraphStore} {s : FollowGraph} {p : Pubkey} (author : Pubkey)
    (ts : ℕ) (l : List Pubkey) (hcount : s.count p = graph.occurrences p)
    (hfits : graph.occurrences p < 2 ^ 32) :
    ((s.applyDelta (graph.listOf author) (-1)).applyDelta l 1).count p =
      (graph.put author ts l).occurrences p % 2 ^ 32 := by
  have hheld := graph.count_listOf_le author p
  have hput := graph.occurrences_put author ts l p
  have hneg := s.count_applyDelta_neg (graph.listOf author) (p := p) (by omega)
  rw [count_applyDelta_one _ _ (by omega), hneg, hcount]
  congr 1
  omega

/-- The recount finds what is there. -/
theorem count_attach_of_empty {graph : GraphStore} {s : FollowGraph} (hs : s.counts = ∅)
    {p : Pubkey} (hfits : graph.occurrences p < 2 ^ 32) :
    (s.attach graph).count p = graph.occurrences p := by
  have hzero : ({ s with attached := true, counts := ∅ } : FollowGraph).count p = 0 := rfl
  -- the loop, over any list of keys still to come
  have hloop : ∀ (l : List Pubkey) (acc : FollowGraph × ℕ),
      acc.1.count p + (l.map fun k => (graph.listOf k).count p).sum < 2 ^ 32 →
        (l.foldl (fun d k => (graph.get k).elim d (recountStep d k)) acc).1.count p =
            acc.1.count p + (l.map fun k => (graph.listOf k).count p).sum ∧
          acc.2 ≤ (l.foldl (fun d k => (graph.get k).elim d (recountStep d k)) acc).2 ∧
          ((l.foldl (fun d k => (graph.get k).elim d (recountStep d k)) acc).2 = acc.2 →
            (l.map fun k => (graph.listOf k).count p).sum = 0) := by
    intro l
    induction l with
    | nil =>
      intro acc _
      simp
    | cons k l ih =>
      intro acc hacc
      rw [List.map_cons, List.sum_cons] at hacc ⊢
      rw [List.foldl_cons]
      cases hget : graph.get k with
      | none =>
        have hlist : graph.listOf k = [] := by rw [GraphStore.listOf, hget, Option.elim_none]
        rw [hlist, List.count_nil] at hacc ⊢
        rw [Option.elim_none, Nat.zero_add]
        exact ih acc (by omega)
      | some fl =>
        have hlist : graph.listOf k = fl.follows := by
          rw [GraphStore.listOf, hget, Option.elim_some]
        rw [hlist] at hacc ⊢
        rw [Option.elim_some]
        have hstep : (recountStep acc k fl).1.count p = acc.1.count p + fl.follows.count p := by
          rw [recountStep_fst, count_applyDelta_one _ _ (by omega), Nat.mod_eq_of_lt (by omega)]
        have hseen : (recountStep acc k fl).2 = acc.2 + 1 := rfl
        obtain ⟨hsum, hle, -⟩ := ih (recountStep acc k fl) (by omega)
        refine ⟨by omega, by omega, fun h => by omega⟩
  rw [graph.occurrences_eq_sum] at hfits ⊢
  obtain ⟨hsum, -, hnone⟩ := hloop (sortedKeys graph.db)
    ({ s with attached := true, counts := ∅ }, 0) (by rw [hzero]; omega)
  unfold attach
  simp only [hs, if_true]
  split
  case isTrue hseen => rw [GraphStore.forEach, hsum, hzero, Nat.zero_add]
  case isFalse hseen =>
    have hunseen := hnone (by rw [GraphStore.forEach] at hseen; omega)
    rw [hunseen]
    rfl

theorem attach_of_ne {graph : GraphStore} {s : FollowGraph} (hs : s.counts ≠ ∅) :
    s.attach graph = { s with attached := true } := by
  unfold attach
  simp only [if_neg hs]

theorem attached_attach (graph : GraphStore) (s : FollowGraph) :
    (s.attach graph).attached = true := by
  by_cases hs : s.counts = ∅
  · have hloop : ∀ (l : List Pubkey) (acc : FollowGraph × ℕ), acc.1.attached = true →
        (l.foldl (fun d k => (graph.get k).elim d (recountStep d k)) acc).1.attached = true := by
      intro l
      induction l with
      | nil => exact fun acc h => h
      | cons k l ih =>
        intro acc h
        rw [List.foldl_cons]
        apply ih
        cases graph.get k with
        | none => exact h
        | some fl => rw [Option.elim_some, recountStep_fst, attached_applyDelta, h]
    unfold attach
    simp only [hs, if_true]
    split
    · exact hloop _ _ rfl
    · rfl
  · rw [attach_of_ne hs]

end FollowGraph

end NostrSearch.Stats
