import Mathlib.Data.Finmap
import Mathlib.Algebra.BigOperators.Group.Finset.Basic
import Mathlib.Tactic

/-!
# A keyed map of shared cells

The pattern behind a `Mutex<HashMap<K, Arc<V>>>` that many threads take handles from: a map
from keys to cells, each opened for one key, and the handles every thread holds on cells.
Cells are numbered in the order they were allocated; `key c` is the key cell `c` was opened
for.

A cell is *live* while something holds a handle on it, the map or a thread, and its
`strongCount` is the number of those handles. The four moves a system built on this pattern
makes are in `Step`: handles are dropped or cloned out of the map, a cell is opened for a key
the map does not have, and a key is removed when the map holds the only handle.

`Registered` is the invariant: whatever a thread holds a handle on is what the map has for
its key. It gives `live_unique`, at most one live cell for each key, and `no_live_of_absent`,
that nothing is live for a key the map does not have.
-/

namespace NostrSearch.Lib

/-- Keys, cells and who holds a handle on what. -/
structure Cells (κ T : Type) where
  map : Finmap (fun _ : κ => ℕ)
  key : ℕ → κ
  next : ℕ
  held : T → Multiset ℕ

/-- The cells a map has, one for each of its keys. -/
def mapValues {κ : Type} (m : Finmap (fun _ : κ => ℕ)) : Multiset ℕ :=
  m.entries.map Sigma.snd

section Values
variable {κ : Type} [DecidableEq κ]

theorem mem_mapValues {m : Finmap (fun _ : κ => ℕ)} {c : ℕ} :
    c ∈ mapValues m ↔ ∃ k, m.lookup k = some c := by
  unfold mapValues
  rw [Multiset.mem_map]
  constructor
  · rintro ⟨⟨k, v⟩, hmem, rfl⟩
    exact ⟨k, Finmap.lookup_eq_some_iff.mpr hmem⟩
  · rintro ⟨k, hk⟩
    exact ⟨⟨k, c⟩, Finmap.lookup_eq_some_iff.mp hk, rfl⟩

theorem lookup_erase_some {m : Finmap (fun _ : κ => ℕ)} {k k' : κ} {c : ℕ} :
    (m.erase k).lookup k' = some c ↔ k' ≠ k ∧ m.lookup k' = some c := by
  by_cases h : k' = k
  · subst h
    simp
  · simp [h, Finmap.lookup_erase_ne h]

theorem lookup_insert_some {m : Finmap (fun _ : κ => ℕ)} {k k' : κ} {c c' : ℕ} :
    (m.insert k c).lookup k' = some c' ↔ (k' = k ∧ c' = c) ∨ (k' ≠ k ∧ m.lookup k' = some c') := by
  by_cases h : k' = k
  · subst h
    simp [eq_comm]
  · simp [h, Finmap.lookup_insert_of_ne m h]

end Values

namespace Cells

variable {κ T : Type} [DecidableEq κ] [Fintype T]

/-- How many handles there are on a cell: the map's and every thread's. -/
def strongCount (s : Cells κ T) (c : ℕ) : ℕ :=
  (mapValues s.map).count c + ∑ t, (s.held t).count c

/-- Something holds a handle on the cell. -/
def Live (s : Cells κ T) (c : ℕ) : Prop := 0 < s.strongCount c

omit [Fintype T] in
theorem count_pos_of_lookup {s : Cells κ T} {k : κ} {c : ℕ} (h : s.map.lookup k = some c) :
    0 < (mapValues s.map).count c :=
  Multiset.count_pos.mpr (mem_mapValues.mpr ⟨k, h⟩)

omit [DecidableEq κ] in
theorem count_held_le (s : Cells κ T) (t : T) (c : ℕ) :
    (s.held t).count c ≤ ∑ u, (s.held u).count c :=
  Finset.single_le_sum (f := fun u => (s.held u).count c) (fun _ _ => Nat.zero_le _)
    (Finset.mem_univ t)

theorem live_iff {s : Cells κ T} {c : ℕ} :
    s.Live c ↔ (∃ k, s.map.lookup k = some c) ∨ ∃ t, c ∈ s.held t := by
  unfold Live strongCount
  rw [← mem_mapValues, ← Multiset.count_pos (a := c) (s := mapValues s.map)]
  constructor
  · intro h
    by_cases hm : 0 < (mapValues s.map).count c
    · exact Or.inl hm
    · right
      have hsum : ∑ t, (s.held t).count c ≠ 0 := by omega
      obtain ⟨t, -, ht⟩ := Finset.exists_ne_zero_of_sum_ne_zero hsum
      exact ⟨t, Multiset.count_ne_zero.mp ht⟩
  · rintro (hm | ⟨t, ht⟩)
    · omega
    · have hle := count_held_le s t c
      have hpos := Multiset.count_pos.mpr ht
      omega

/-- When the map has a cell and its count is one, the map's handle is the only one. -/
theorem not_held_of_strongCount_eq_one {s : Cells κ T} {k : κ} {c : ℕ}
    (hk : s.map.lookup k = some c) (h1 : s.strongCount c = 1) (t : T) : c ∉ s.held t := by
  intro ht
  have hmap := count_pos_of_lookup hk
  have hle := count_held_le s t c
  have hpos := Multiset.count_pos.mpr ht
  unfold strongCount at h1
  omega

/-- The moves of a system that keeps its handles in such a map. -/
inductive Step (s s' : Cells κ T) : Prop
  /-- Handles are dropped, and cloned from those the map has. -/
  | share (hmap : s'.map = s.map) (hkey : s'.key = s.key) (hnext : s'.next = s.next)
      (hheld : ∀ t, ∀ c ∈ s'.held t, c ∈ s.held t ∨ ∃ k, s.map.lookup k = some c)
  /-- A cell is opened for a key the map does not have, and its handle is shared. -/
  | openCell (k : κ) (habs : s.map.lookup k = none)
      (hmap : s'.map = s.map.insert k s.next) (hnew : s'.key s.next = k)
      (hkey : ∀ c, c ≠ s.next → s'.key c = s.key c) (hnext : s'.next = s.next + 1)
      (hheld : ∀ t, ∀ c ∈ s'.held t, c ∈ s.held t ∨ c = s.next)
  /-- A key is removed under the map's lock, which checked that nothing else holds its cell. -/
  | remove (k : κ) (c : ℕ) (hk : s.map.lookup k = some c) (hone : s.strongCount c = 1)
      (hmap : s'.map = s.map.erase k) (hkey : s'.key = s.key) (hnext : s'.next = s.next)
      (hheld : ∀ t, ∀ c ∈ s'.held t, c ∈ s.held t)

/-- A thread's handles are on the cells the map has for their keys, and the map files every
cell under the key it was opened for. -/
structure Registered (s : Cells κ T) : Prop where
  held : ∀ t, ∀ c ∈ s.held t, s.map.lookup (s.key c) = some c
  filed : ∀ k c, s.map.lookup k = some c → s.key c = k ∧ c < s.next

omit [Fintype T] in
theorem Registered.held_lt {s : Cells κ T} (h : s.Registered) {t : T} {c : ℕ}
    (hc : c ∈ s.held t) : c < s.next :=
  (h.filed _ c (h.held t c hc)).2

theorem Registered.step {s s' : Cells κ T} (h : s.Registered) (hs : Step s s') :
    s'.Registered := by
  cases hs with
  | share hmap hkey hnext hheld =>
    constructor
    · intro t c hc
      rw [hmap, hkey]
      rcases hheld t c hc with hc | ⟨k, hk⟩
      · exact h.held t c hc
      -- cloned from the map, under the key the map files it under
      · rw [(h.filed k c hk).1]
        exact hk
    · rw [hmap, hkey, hnext]
      exact h.filed
  | openCell k habs hmap hnew hkey hnext hheld =>
    -- the new cell is none of those there were
    have hlt : ∀ k' c, s.map.lookup k' = some c → c ≠ s.next := by
      intro k' c hk'
      have := (h.filed k' c hk').2
      omega
    constructor
    · intro t c hc
      rw [hmap, lookup_insert_some]
      rcases hheld t c hc with hc | rfl
      · have hreg := h.held t c hc
        have hne := hlt _ _ hreg
        rw [hkey c hne]
        -- a cell of this key was held, so the map had one
        refine Or.inr ⟨?_, hreg⟩
        intro heq
        rw [heq, habs] at hreg
        cases hreg
      · exact Or.inl ⟨hnew, rfl⟩
    · intro k' c hk'
      rw [hmap, lookup_insert_some] at hk'
      rw [hnext]
      rcases hk' with ⟨rfl, rfl⟩ | ⟨-, hk'⟩
      · exact ⟨hnew, by omega⟩
      · obtain ⟨hkc, hclt⟩ := h.filed k' c hk'
        exact ⟨by rw [hkey c (hlt _ _ hk'), hkc], by omega⟩
  | remove k c hk hone hmap hkey hnext hheld =>
    constructor
    · intro t d hd
      have hd := hheld t d hd
      have hreg := h.held t d hd
      rw [hmap, hkey, lookup_erase_some]
      refine ⟨?_, hreg⟩
      intro heq
      rw [heq, hk] at hreg
      cases hreg
      -- the count is one, and it is the map that holds the cell
      exact not_held_of_strongCount_eq_one hk hone t hd
    · intro k' d hd
      rw [hmap, lookup_erase_some] at hd
      rw [hkey, hnext]
      exact h.filed k' d hd.2

/-- Every live cell is the one the map has for its key. -/
theorem Registered.lookup_of_live {s : Cells κ T} (h : s.Registered) {c : ℕ} (hc : s.Live c) :
    s.map.lookup (s.key c) = some c := by
  rcases live_iff.mp hc with ⟨k, hk⟩ | ⟨t, ht⟩
  · rw [(h.filed k c hk).1]
    exact hk
  · exact h.held t c ht

/-- **At most one live cell for each key.** -/
theorem Registered.live_unique {s : Cells κ T} (h : s.Registered) {c d : ℕ} (hc : s.Live c)
    (hd : s.Live d) (hkey : s.key c = s.key d) : c = d := by
  have h1 := h.lookup_of_live hc
  have h2 := h.lookup_of_live hd
  rw [hkey, h2] at h1
  exact (Option.some.inj h1).symm

/-- Nothing is live for a key the map does not have. -/
theorem Registered.no_live_of_absent {s : Cells κ T} (h : s.Registered) {k : κ}
    (hk : s.map.lookup k = none) {c : ℕ} (hc : s.Live c) : s.key c ≠ k := by
  intro heq
  have := h.lookup_of_live hc
  rw [heq, hk] at this
  cases this

end Cells

end NostrSearch.Lib
