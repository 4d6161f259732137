import NostrSearch.Lib.Newest
import NostrSearch.Lib.Run
import NostrSearch.Stats.FollowGraph

/-!
# What the follow graph holds

Folding a sequence of contact lists into an empty graph leaves, for each author, the newest list
of that author, and of several with the newest date the first delivered (`lookup_foldAll`). The
counts are the occurrences in these lists as long as they fit (`count_foldAll`).

`created_at` is a `u64`, and comes back from its eight bytes as it was; `Dated` is that bound.
-/

namespace NostrSearch.Stats.FollowGraph

open NostrSearch.Core NostrSearch.Lib NostrSearch.Stats

/-- The analysis with its store. -/
structure Graphed where
  state : FollowGraph
  graph : GraphStore

/-- A new analysis, attached to an empty store. -/
def start : Graphed := { state := attach GraphStore.empty default, graph := GraphStore.empty }

def Graphed.fold (s : Graphed) (ev : NostrEvent) : Graphed :=
  let r := observe ev s.graph s.state
  { state := r.1, graph := r.2.1 }

/-- One list, as a step of a run. -/
def foldStep (s : Graphed) (ev : NostrEvent) : Option Graphed := some (s.fold ev)

/-- Fold a sequence of lists into an empty graph. -/
def foldAll (evs : List NostrEvent) : Graphed := evs.foldl Graphed.fold start

def authorOf (ev : NostrEvent) : Option Pubkey := Hash32.fromHex ev.pubkey

/-- The newest list of an author. -/
def newestBy (evs : List NostrEvent) (author : Pubkey) : Option NostrEvent :=
  newest authorOf NostrEvent.createdAt evs author

/-- The dates are 64-bit numbers. -/
def Dated (evs : List NostrEvent) : Prop := ∀ ev ∈ evs, ev.createdAt ≤ u64Max

theorem run_foldStep (s : Graphed) (evs : List NostrEvent) :
    run foldStep s evs = some (evs.foldl Graphed.fold s) := by
  induction evs generalizing s with
  | nil => rfl
  | cons ev evs ih =>
    rw [run_cons, foldStep, Option.bind_some, List.foldl_cons]
    exact ih _

theorem visited_foldStep {evs : List NostrEvent} {s : Graphed} :
    Visited foldStep start evs s ↔ ∃ pre, pre <+: evs ∧ foldAll pre = s := by
  unfold Visited
  simp only [run_foldStep, Option.some.injEq]
  rfl

@[simp] theorem attached_start : start.state.attached = true :=
  attached_attach GraphStore.empty default

theorem attached_fold {s : Graphed} (h : s.state.attached = true) (ev : NostrEvent) :
    (s.fold ev).state.attached = true := by
  unfold Graphed.fold
  rcases observe_cases ev s.graph s.state with ⟨author, -, hobs⟩ | ⟨-, hobs⟩
  · rw [hobs]
    simp only [attached_applyDelta, h]
  · rw [hobs]
    exact h

theorem foldAll_concat (evs : List NostrEvent) (ev : NostrEvent) :
    foldAll (evs ++ [ev]) = (foldAll evs).fold ev := by
  rw [foldAll, List.foldl_append, List.foldl_cons, List.foldl_nil, foldAll]

theorem attached_foldAll (evs : List NostrEvent) : (foldAll evs).state.attached = true := by
  induction evs using List.reverseRecOn with
  | nil => exact attached_start
  | append_singleton evs ev ih =>
    rw [foldAll_concat]
    exact attached_fold ih ev

theorem Dated.of_prefix {evs pre : List NostrEvent} (h : Dated evs) (hpre : pre <+: evs) :
    Dated pre := fun ev hev => h ev (hpre.subset hev)

/-- The date of a record is the date it was stored with. -/
theorem createdAt_of_lookup {g : GraphStore} {author : Pubkey} {ts : ℕ} {l : List Pubkey}
    (hts : ts ≤ u64Max) (h : g.db.lookup author = some (encode ts l)) :
    g.createdAt author = some ts := by
  have hput : (g.put author ts l).db = g.db := by
    apply Finmap.ext_lookup
    intro a
    rw [GraphStore.put]
    by_cases ha : a = author
    · rw [ha, Finmap.lookup_insert, h]
    · rw [Finmap.lookup_insert_of_ne _ ha]
  have hput' : g.put author ts l = g := congrArg GraphStore.mk hput
  have hcreated := g.createdAt_put_self author ts l
  unfold u64Max at hts
  rw [hput', Nat.mod_eq_of_lt (by omega)] at hcreated
  exact hcreated

/-- **The adjacency.** The record of each author is that of the author's newest list. -/
theorem lookup_foldAll {evs : List NostrEvent} (hdated : Dated evs) (a : Pubkey) :
    (foldAll evs).graph.db.lookup a =
      (newestBy evs a).map fun ev => encode ev.createdAt (newFollows ev) := by
  induction evs using List.reverseRecOn with
  | nil => rfl
  | append_singleton evs ev ih =>
    have hdated' : Dated evs := hdated.of_prefix (List.prefix_append evs [ev])
    have ih := ih hdated'
    rw [foldAll_concat, Graphed.fold]
    rcases observe_cases ev (foldAll evs).graph (foldAll evs).state with
      ⟨author, ⟨hauthor, -, hnewer⟩, hobs⟩ | ⟨hnot, hobs⟩
    · rw [hobs]
      by_cases ha : a = author
      · -- the list is the author's, and newer than what there was
        subst ha
        rw [newestBy, newest_concat_self evs hauthor, GraphStore.put, Finmap.lookup_insert]
        unfold newestBy at ih
        cases hheld : newest authorOf NostrEvent.createdAt evs a with
        | none => rfl
        | some old =>
          rw [hheld, Option.map_some] at ih
          have hts : old.createdAt ≤ u64Max := hdated' old (newest_mem hheld).1
          rw [newer, createdAt_of_lookup hts ih] at hnewer
          simp only [if_pos (of_decide_eq_true hnewer), Option.map_some]
      · have hkey : authorOf ev ≠ some a := by
          rw [authorOf, hauthor]
          exact fun h => ha (Option.some.inj h).symm
        rw [newestBy, newest_concat_of_ne evs hkey, GraphStore.put,
          Finmap.lookup_insert_of_ne _ ha]
        exact ih
    · rw [hobs, newestBy]
      by_cases hkey : authorOf ev = some a
      · -- the author's, but the list held is as new
        rw [newest_concat_self evs hkey]
        unfold newestBy at ih
        have hnewer : ¬ newer (foldAll evs).graph a ev = true := fun h =>
          hnot a ⟨hkey, attached_foldAll evs, h⟩
        cases hheld : newest authorOf NostrEvent.createdAt evs a with
        | none =>
          rw [hheld, Option.map_none] at ih
          rw [newer, GraphStore.createdAt, ih] at hnewer
          exact absurd rfl hnewer
        | some old =>
          rw [hheld, Option.map_some] at ih
          have hts : old.createdAt ≤ u64Max := hdated' old (newest_mem hheld).1
          rw [newer, createdAt_of_lookup hts ih] at hnewer
          have hlt : ¬ old.createdAt < ev.createdAt := fun h => hnewer (decide_eq_true h)
          simp only [if_neg hlt, Option.map_some]
          exact ih
      · rw [newest_concat_of_ne evs hkey]
        exact ih

/-- The list held for an author is the author's newest. -/
theorem listOf_foldAll {evs : List NostrEvent} (hdated : Dated evs) (a : Pubkey) :
    (foldAll evs).graph.listOf a = (newestBy evs a).elim [] newFollows := by
  rw [GraphStore.listOf, GraphStore.get, lookup_foldAll hdated]
  cases newestBy evs a with
  | none => rfl
  | some ev =>
    rw [Option.map_some, Option.map_some, Option.elim_some, decode_encode]
    rfl

/-- **The counts**, as long as they fit. -/
theorem count_foldAll {evs : List NostrEvent}
    (hfits : ∀ pre, pre <+: evs → ∀ p, (foldAll pre).graph.occurrences p < 2 ^ 32) (p : Pubkey) :
    (foldAll evs).state.count p = (foldAll evs).graph.occurrences p := by
  induction evs using List.reverseRecOn generalizing p with
  | nil => exact count_attach_of_empty rfl (hfits [] List.nil_prefix p)
  | append_singleton evs ev ih =>
    have hpre : evs <+: evs ++ [ev] := List.prefix_append evs [ev]
    have ih := ih fun pre h => hfits pre (h.trans hpre)
    have hlast := hfits _ (List.prefix_refl (evs ++ [ev])) p
    rw [foldAll_concat, Graphed.fold] at hlast ⊢
    rcases observe_cases ev (foldAll evs).graph (foldAll evs).state with
      ⟨author, -, hobs⟩ | ⟨-, hobs⟩
    · rw [hobs] at hlast ⊢
      have hmod := count_observe author ev.createdAt (newFollows ev) (ih p) (hfits evs hpre p)
      rw [hmod]
      exact Nat.mod_eq_of_lt hlast
    · rw [hobs]
      exact ih p

end NostrSearch.Stats.FollowGraph
