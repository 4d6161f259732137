import NostrSearch.Server.OpenEnded

/-!
# A root that grows

A registry serves a root. Months are created and written under the root, in any order, while the
registry answers searches and lookups. Every open-ended search is measured against a registry opened
on the root as it is then.
-/

namespace NostrSearch.Server

open NostrSearch.Core NostrSearch.Lib

/-- A root, and the registry over it. -/
structure Serving where
  root : Root
  reg : ShardRegistry

namespace Serving

/-- What happens to a root and the registry that serves it. -/
inductive Action
  | mkdir (id : ShardId)
  | commit (id : ShardId) (docs : List Document)
  | search (filter : SearchFilter) (now : ℕ) (ws : List ℕ)
  | getEvent (eventId : List Char)
  | stats

/-- A registry is opened on a root. -/
def start (root : Root) (maxOpen : ℕ) : Serving :=
  { root := root, reg := .openWithCapacity root maxOpen }

variable {ε σ : Type} (ctx : SearchContext ε σ) (one : σ)

/-- One action. A month is written once it has a directory; a search runs to its end. -/
def step (s : Serving) : Action → Option Serving
  | .mkdir id => some { s with root := s.root.mkdir id }
  | .commit id docs =>
    if id ∈ s.root.months then some { s with root := s.root.commit id docs } else none
  | .search filter now ws =>
    (ctx.search s.root s.reg filter now ws).map fun r => { s with reg := r.1 }
  | .getEvent eventId => some { s with reg := (s.reg.getEvent one s.root eventId).1 }
  | .stats => some { s with reg := (s.reg.stats s.root).1 }

/-- Directories are made for months, with a month of the year each. -/
def OfMonth : Action → Prop
  | .mkdir id => id.Valid
  | _ => True

instance : DecidablePred OfMonth
  | .mkdir id => inferInstanceAs (Decidable id.Valid)
  | .commit _ _ => .isTrue trivial
  | .search _ _ _ => .isTrue trivial
  | .getEvent _ => .isTrue trivial
  | .stats => .isTrue trivial

/-- An open-ended search with a large limit returns the documents that a registry just opened on the
root returns. -/
def SameAsFresh (s : Serving) : Action → Prop
  | .search filter now ws =>
    ctx.OpenEnded filter → ctx.LargeEnough s.root filter →
      ∀ maxOpen ws' reg' r reg'' r', ctx.search s.root s.reg filter now ws = some (reg', r) →
        ctx.search s.root (.openWithCapacity s.root maxOpen) filter now ws' = some (reg'', r') →
        (returned r).Perm (returned r')
  | _ => True

/-- An open-ended search with a large limit looks at the root again, or has all the documents in the
months it looks at. -/
def NothingHidden (s : Serving) : Action → Prop
  | .search filter now _ =>
    ctx.OpenEnded filter → ctx.LargeEnough s.root filter →
      s.reg.Rediscovers s.root ∨ ctx.SeesAll s.root s.reg filter now
  | _ => True

/-- Months are months, and the registry remembers one. -/
structure Inv (s : Serving) : Prop where
  valid : ∀ id ∈ s.root.months, id.Valid
  known : s.reg.Known s.root

variable {ctx one} {s s' : Serving}

theorem inv_start {root : Root} (hroot : ∀ id ∈ root.months, id.Valid) (maxOpen : ℕ) :
    Inv (start root maxOpen) :=
  ⟨hroot, ShardRegistry.known_open hroot maxOpen⟩

/-- A search leaves the registry with a month it knows. -/
theorem known_search {filter : SearchFilter} {now : ℕ} {ws : List ℕ}
    {r : ShardRegistry × Except (PlanError ε) (List (SearchHit σ))} (h : Inv s)
    (hr : ctx.search s.root s.reg filter now ws = some r) : r.1.Known s.root := by
  obtain ⟨reg', r⟩ := r
  have hanchor := ShardRegistry.known_anchor h.valid h.known
  obtain ⟨-, hreg, -⟩ | ⟨-, -, hreg, -⟩ | ⟨_, _, _, -, hfound, -, -, hreg, -⟩ :=
    SearchContext.search_cases hr
  · rw [hreg]
    exact h.known
  · rw [hreg]
    exact hanchor
  · rw [hreg]
    exact ⟨hanchor.valid, fun _ => (ShardRegistry.anchor_spec h.valid h.known).2 hfound⟩

theorem inv_step {a : Action} (h : Inv s) (ha : OfMonth a) (hs : step ctx one s a = some s') :
    Inv s' := by
  cases a with
  | mkdir id =>
    cases hs
    refine ⟨fun id' hid' => ?_, h.known.valid, fun hopen => ?_⟩
    · rcases Root.mem_months_mkdir.mp hid' with hid' | rfl
      · exact h.valid id' hid'
      · exact ha
    · exact Root.mem_months_mkdir.mpr (Or.inl (h.known.mem_of_open hopen))
  | commit id docs =>
    by_cases hid : id ∈ s.root.months
    · rw [step, if_pos hid] at hs
      cases hs
      have hmonths := @Root.months_commit s.root id docs
      exact ⟨hmonths ▸ h.valid, h.known.valid, hmonths ▸ h.known.mem_of_open⟩
    · rw [step, if_neg hid] at hs
      cases hs
  | search filter now ws =>
    obtain ⟨r, hr, rfl⟩ := Option.map_eq_some_iff.mp hs
    exact ⟨h.valid, known_search (s := s) h hr⟩
  | getEvent eventId =>
    cases hs
    exact ⟨h.valid, ShardRegistry.known_discover h.valid h.known⟩
  | stats =>
    cases hs
    exact ⟨h.valid, ShardRegistry.known_discover h.valid h.known⟩

theorem sameAsFresh_iff {a : Action} (h : Inv s) (hs : step ctx one s a = some s') :
    SameAsFresh ctx s a ↔ NothingHidden ctx s a := by
  cases a with
  | search filter now ws =>
    obtain ⟨⟨reg', r⟩, hr, -⟩ := Option.map_eq_some_iff.mp hs
    refine forall₂_congr fun hopen hlarge => ?_
    constructor
    · intro hsame
      obtain ⟨ws', ⟨reg'', r'⟩, hr'⟩ := SearchContext.exists_search ctx filter now h.valid
        (ShardRegistry.known_open h.valid s.reg.maxOpen)
      exact (SearchContext.same_iff h.valid h.known hopen hlarge hr hr').mp
        (hsame _ _ _ _ _ _ hr hr')
    · intro hnone maxOpen ws' reg₁ r₁ reg₂ r₂ hr₁ hr₂
      exact (SearchContext.same_iff h.valid h.known hopen hlarge hr₁ hr₂).mpr hnone
  | mkdir id => exact Iff.rfl
  | commit id docs => exact Iff.rfl
  | getEvent eventId => exact Iff.rfl
  | stats => exact Iff.rfl

/-- **Open-ended searches see what is on disk.** In any run from a registry just opened, the
open-ended searches return what a registry opened at their moment returns, if and only if each of
them looks at the root again or has nothing hidden from it. -/
theorem open_ended_iff {root : Root} (hroot : ∀ id ∈ root.months, id.Valid) (maxOpen : ℕ)
    {as : List Action} (has : ∀ a ∈ as, OfMonth a) :
    Along (step ctx one) (SameAsFresh ctx) (start root maxOpen) as ↔
      Along (step ctx one) (NothingHidden ctx) (start root maxOpen) as :=
  along_iff_along (fun _ _ _ h ha _ hs => inv_step h ha hs) (fun _ _ _ h _ hs => sameAsFresh_iff h hs)
    (inv_start hroot maxOpen) has

/-- A registry that remembers the oldest month on disk, which has an index, sees everything. -/
def remembersOldest (s : Serving) : Action → Bool
  | .search _ _ _ =>
    decide (s.reg.Rediscovers s.root) ||
      (s.root.openReader s.root.oldest).isSome && s.reg.earliest == s.root.oldest
  | _ => true

theorem nothingHidden_of_remembersOldest {a : Action} (h : remembersOldest s a = true) :
    NothingHidden ctx s a := by
  cases a with
  | search filter now ws =>
    intro _ _
    rw [remembersOldest, Bool.or_eq_true, Bool.and_eq_true, beq_iff_eq] at h
    rcases h with h | ⟨hopens, hearliest⟩
    · exact Or.inl (of_decide_eq_true h)
    · right
      unfold SearchContext.SeesAll
      rw [if_pos hopens]
      intro id hid hlt
      exact absurd (Root.oldest_le hid) (not_le.mpr (hearliest ▸ hlt))
  | mkdir id => trivial
  | commit id docs => trivial
  | getEvent eventId => trivial
  | stats => trivial

/-! ## A month before the first -/

/-- Everything, up to ten documents. -/
def everything : SearchFilter := { SearchFilter.default with limit := 10 }

/-- November appears and is searched, on its last day. -/
def november : List Action :=
  [.mkdir ⟨2023, 11⟩, .commit ⟨2023, 11⟩ [SearchContext.dated "aa" 1700000000],
    .search everything 1701385200 [0, 0, 0]]

/-- October appears, and its documents are written. -/
def october : List Action :=
  [.mkdir ⟨2023, 10⟩, .commit ⟨2023, 10⟩ [SearchContext.dated "bb" 1698000000]]

/-- The run of two months, with these actions after. -/
def afterTwoMonths (as : List Action) : Option Serving :=
  run (step SearchContext.twoThreads 0) (start [] 4) (november ++ october ++ as)

/-- With `stats` asked before the search, October is seen. -/
theorem seen_after_stats :
    (afterTwoMonths [.stats, .search everything 1701385200 [0, 1, 1, 0, 0, 1]]).isSome = true ∧
      Along (step SearchContext.twoThreads 0) (SameAsFresh SearchContext.twoThreads) (start [] 4)
        (november ++ october ++ [.stats, .search everything 1701385200 [0, 1, 1, 0, 0, 1]]) :=
  ⟨by decide +kernel, (open_ended_iff (fun _ h => absurd h List.not_mem_nil) 4 (by decide)).mpr
    (along_of_alongB (fun _ _ h => nothingHidden_of_remembersOldest h) (by decide +kernel))⟩

/-- How many documents a search returns after the two months, from the registry of the run and from
one just opened. -/
def foundThen (fresh : Bool) (ws : List ℕ) : Option ℕ :=
  (afterTwoMonths []).bind fun s =>
    (SearchContext.twoThreads.search s.root
      (if fresh then .openWithCapacity s.root 4 else s.reg) everything 1701385200 ws).map
        fun r => (returned r.2).length

/-- Without, it is not: the reader of November is open, and the search starts there. -/
theorem october_hidden :
    ¬ Along (step SearchContext.twoThreads 0) (SameAsFresh SearchContext.twoThreads) (start [] 4)
      (november ++ october ++ [.search everything 1701385200 [0, 0, 0]]) := by
  intro h
  have hone : foundThen false [0, 0, 0] = some 1 := by decide +kernel
  have htwo : foundThen true [0, 1, 1, 0, 0, 1] = some 2 := by decide +kernel
  have hcount : (afterTwoMonths []).map (fun s =>
      (s.root.months.map fun id => ((s.root.docs id).filter allQuery).length).sum) = some 2 := by
    decide +kernel
  obtain ⟨s, hs, hone⟩ := Option.bind_eq_some_iff.mp hone
  obtain ⟨⟨reg, r⟩, hr, hone⟩ := Option.map_eq_some_iff.mp hone
  rw [foundThen, hs, Option.bind_some] at htwo
  obtain ⟨⟨reg', r'⟩, hr', htwo⟩ := Option.map_eq_some_iff.mp htwo
  rw [hs, Option.map_some, Option.some_inj] at hcount
  have hlast := (along_append h).2 s (by rw [← hs, afterTwoMonths, List.append_nil])
  have hstep : step SearchContext.twoThreads 0 s (.search everything 1701385200 [0, 0, 0]) =
      some { s with reg := reg } := Option.map_eq_some_iff.mpr ⟨_, hr, rfl⟩
  have hsame := (hlast _ hstep).1
  have hlarge : SearchContext.twoThreads.LargeEnough s.root everything := by
    intro q hq
    have hall : SearchContext.twoThreads.queryOf everything = .ok allQuery := rfl
    rw [hall] at hq
    cases hq
    rw [hcount]
    decide
  have hperm := hsame ⟨rfl, rfl⟩ hlarge 4 _ _ _ _ _ hr hr'
  have hlen := hperm.length_eq
  dsimp only at hone htwo
  omega

end Serving

end NostrSearch.Server
