import Mathlib.Data.List.MinMax
import Mathlib.Tactic

/-!
# The newest record of each key

Records arrive one by one, each under a key and with a time; for each key the newest one counts,
and of several with the newest time the first that came. `newest_concat_self` is the register
update this comes to, `newest_map_perm` says how much of it does not depend on the order of
arrival: what records tied at the newest time have in common.
-/

namespace NostrSearch.Lib

variable {α κ β : Type*} [DecidableEq κ] {key : α → Option κ} {time : α → ℕ}

/-- The newest record of `k`, the first of several. -/
def newest (key : α → Option κ) (time : α → ℕ) (xs : List α) (k : κ) : Option α :=
  (xs.filter fun x => decide (key x = some k)).argmax time

/-- Records tied at the newest time of their key look the same to `f`. -/
def TiesAgree (key : α → Option κ) (time : α → ℕ) (f : α → β) (xs : List α) : Prop :=
  ∀ x ∈ xs, ∀ y ∈ xs, ∀ k, key x = some k → key y = some k → time x = time y →
    (∀ z ∈ xs, key z = some k → time z ≤ time x) → f x = f y

@[simp] theorem newest_nil (k : κ) : newest key time [] k = none := rfl

theorem newest_concat_of_ne (xs : List α) {x : α} {k : κ} (h : key x ≠ some k) :
    newest key time (xs ++ [x]) k = newest key time xs k := by
  have hx : [x].filter (fun x => decide (key x = some k)) = [] :=
    List.filter_cons_of_neg (by simpa using h)
  rw [newest, List.filter_append, hx, List.append_nil, newest]

/-- A record replaces the one held for its key if that one is older, or there is none. -/
theorem newest_concat_self (xs : List α) {x : α} {k : κ} (h : key x = some k) :
    newest key time (xs ++ [x]) k =
      match newest key time xs k with
      | none => some x
      | some y => if time y < time x then some x else some y := by
  have hx : [x].filter (fun x => decide (key x = some k)) = [x] :=
    List.filter_cons_of_pos (by simpa using h)
  rw [newest, List.filter_append, hx, List.argmax_concat, newest]
  cases (xs.filter fun x => decide (key x = some k)).argmax time <;> rfl

theorem newest_mem {xs : List α} {x : α} {k : κ} (h : newest key time xs k = some x) :
    x ∈ xs ∧ key x = some k := by
  have hmem := List.argmax_mem (Option.mem_def.mpr h)
  rw [List.mem_filter] at hmem
  exact ⟨hmem.1, of_decide_eq_true hmem.2⟩

theorem newest_le {xs : List α} {x y : α} {k : κ} (h : newest key time xs k = some x)
    (hy : y ∈ xs) (hk : key y = some k) : time y ≤ time x := by
  apply List.le_of_mem_argmax (l := xs.filter fun x => decide (key x = some k))
  · exact List.mem_filter.mpr ⟨hy, decide_eq_true hk⟩
  · exact h

theorem newest_eq_none {xs : List α} {k : κ} :
    newest key time xs k = none ↔ ∀ x ∈ xs, key x ≠ some k := by
  rw [newest, List.argmax_eq_none, List.filter_eq_nil_iff]
  simp only [decide_eq_true_eq]

/-- **Order of arrival.** Where ties agree, the newest record's time and what `f` sees of it do
not depend on the order of the records. -/
theorem newest_map_perm {f : α → β} {xs ys : List α} (hperm : xs.Perm ys)
    (hties : TiesAgree key time f xs) (k : κ) :
    (newest key time xs k).map (fun x => (time x, f x)) =
      (newest key time ys k).map (fun x => (time x, f x)) := by
  cases hx : newest key time xs k with
  | none =>
    have hy : newest key time ys k = none := by
      rw [newest_eq_none] at hx ⊢
      exact fun y hy => hx y (hperm.mem_iff.mpr hy)
    rw [hy]
  | some x =>
    obtain ⟨hxmem, hxk⟩ := newest_mem hx
    cases hy : newest key time ys k with
    | none => exact absurd hxk (newest_eq_none.mp hy x (hperm.mem_iff.mp hxmem))
    | some y =>
      obtain ⟨hymem, hyk⟩ := newest_mem hy
      have hymem' : y ∈ xs := hperm.mem_iff.mpr hymem
      -- each is as new as the other
      have htime : time x = time y :=
        le_antisymm (newest_le hy (hperm.mem_iff.mp hxmem) hxk) (newest_le hx hymem' hyk)
      have hf : f x = f y := by
        apply hties x hxmem y hymem' k hxk hyk htime
        exact fun z hz hzk => newest_le hx hz hzk
      rw [Option.map_some, Option.map_some, htime, hf]

end NostrSearch.Lib
