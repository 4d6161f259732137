import Mathlib.Data.Finset.Card
import Mathlib.Data.List.Nodup
import Mathlib.Tactic

/-!
# The most recently used keys

In a list of uses, the last one first, `idxOf k` counts the uses since `k` was last used. A cache
of `n` keys, in which a new key takes the place of the one whose last use is the oldest, holds the
`n` most recently used keys: `MostRecent` is kept by a use of a key that is held (`hit`), of one
that there is room for (`grow`), and of one that another has to make room for (`replace`).
-/

namespace NostrSearch.Lib

variable {κ : Type*} [DecidableEq κ] {n : ℕ} {uses : List κ} {s : Finset κ} {k v : κ}

/-- The keys `s` are the `n` most recently used ones, or all of them if there are fewer. -/
structure MostRecent (n : ℕ) (uses : List κ) (s : Finset κ) : Prop where
  used : ∀ a ∈ s, a ∈ uses
  card_le : s.card ≤ n
  newer : ∀ a ∈ s, ∀ b ∈ uses, b ∉ s → uses.idxOf a < uses.idxOf b
  full : ∀ b ∈ uses, b ∉ s → s.card = n

theorem mostRecent_nil (n : ℕ) : MostRecent n ([] : List κ) ∅ where
  used := by simp
  card_le := Nat.zero_le n
  newer := by simp
  full := by simp

/-- A use of another key is one more since the last use of `a`. -/
theorem idxOf_cons_of_ne {a : κ} (h : a ≠ k) : (k :: uses).idxOf a = uses.idxOf a + 1 :=
  List.idxOf_cons_ne uses h.symm

/-- A key that is held is used. -/
theorem MostRecent.hit (h : MostRecent n uses s) (hk : k ∈ s) : MostRecent n (k :: uses) s where
  used a ha := List.mem_cons_of_mem k (h.used a ha)
  card_le := h.card_le
  newer a ha b hb hbs := by
    have hbk : b ≠ k := fun heq => hbs (heq ▸ hk)
    have hb := List.mem_of_ne_of_mem hbk hb
    rw [idxOf_cons_of_ne hbk]
    by_cases hak : a = k
    · rw [hak, List.idxOf_cons_self]
      exact Nat.succ_pos _
    · rw [idxOf_cons_of_ne hak]
      exact Nat.succ_lt_succ (h.newer a ha b hb hbs)
  full b hb hbs := by
    have hbk : b ≠ k := fun heq => hbs (heq ▸ hk)
    exact h.full b (List.mem_of_ne_of_mem hbk hb) hbs

/-- A new key is used, and there is room for it. -/
theorem MostRecent.grow (h : MostRecent n uses s) (hk : k ∉ s) (hroom : s.card < n) :
    MostRecent n (k :: uses) (insert k s) := by
  -- all that were used are held
  have hall : ∀ b ∈ k :: uses, b ∈ insert k s := by
    intro b hb
    by_contra hbs
    rw [Finset.mem_insert, not_or] at hbs
    have hcard := h.full b (List.mem_of_ne_of_mem hbs.1 hb) hbs.2
    omega
  constructor
  · intro a ha
    rcases Finset.mem_insert.mp ha with rfl | ha
    · exact List.mem_cons_self
    · exact List.mem_cons_of_mem k (h.used a ha)
  · rw [Finset.card_insert_of_notMem hk]
    exact hroom
  · intro a _ b hb hbs
    exact absurd (hall b hb) hbs
  · intro b hb hbs
    exact absurd (hall b hb) hbs

/-- A new key is used, and the one whose last use is the oldest makes room for it. -/
theorem MostRecent.replace (h : MostRecent n uses s) (hk : k ∉ s) (hn : 0 < n)
    (hfull : s.card = n) (hv : v ∈ insert k s)
    (holdest : ∀ a ∈ insert k s, a ≠ v → (k :: uses).idxOf a < (k :: uses).idxOf v) :
    v ≠ k ∧ MostRecent n (k :: uses) ((insert k s).erase v) := by
  have hvk : v ≠ k := by
    rintro rfl
    obtain ⟨a, ha⟩ := Finset.card_pos.mp (hfull ▸ hn)
    have hlt := holdest a (Finset.mem_insert_of_mem ha) fun heq => hk (heq ▸ ha)
    rw [List.idxOf_cons_self] at hlt
    exact Nat.not_lt_zero _ hlt
  have hcard : ((insert k s).erase v).card = n := by
    rw [Finset.card_erase_of_mem hv, Finset.card_insert_of_notMem hk, hfull, Nat.add_sub_cancel]
  refine ⟨hvk, ?_, le_of_eq hcard, ?_, fun _ _ _ => hcard⟩
  · intro a ha
    rcases Finset.mem_insert.mp (Finset.mem_of_mem_erase ha) with rfl | ha
    · exact List.mem_cons_self
    · exact List.mem_cons_of_mem k (h.used a ha)
  · intro a ha b hb hbs
    obtain ⟨hav, ha⟩ := Finset.mem_erase.mp ha
    by_cases hbv : b = v
    · rw [hbv]
      exact holdest a ha hav
    · -- a key that was not held before
      have hbs : b ∉ insert k s := fun hmem => hbs (Finset.mem_erase.mpr ⟨hbv, hmem⟩)
      rw [Finset.mem_insert, not_or] at hbs
      rw [idxOf_cons_of_ne hbs.1]
      rcases Finset.mem_insert.mp ha with rfl | ha
      · rw [List.idxOf_cons_self]
        exact Nat.succ_pos _
      · have hak : a ≠ k := fun heq => hk (heq ▸ ha)
        rw [idxOf_cons_of_ne hak]
        exact Nat.succ_lt_succ (h.newer a ha b (List.mem_of_ne_of_mem hbs.1 hb) hbs.2)

end NostrSearch.Lib
