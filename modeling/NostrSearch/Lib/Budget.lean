import NostrSearch.Lib.Faults

/-!
# Code with a budget

Code that counts what it does, and stops above a limit, next to code that does not count. A `Meter`
says what the second has of the state of the first, and what the first has counted. `Costs m a k`
says that `m` returns `a`, counts `k` and leaves the part alone, and `Spends m p n` that `m` does
with the part what `p` does, and counts `n` unless `p` fails; both from where the limit has room.
-/

namespace NostrSearch.Lib

structure Meter (σ τ : Type) where
  part : σ → τ
  spent : σ → ℕ
  limit : ℕ

namespace Meter

variable {σ τ α β ι : Type} (M : Meter σ τ)

def Costs (m : Proc σ α) (a : α) (k : ℕ) : Prop :=
  ∀ s, M.spent s + k ≤ M.limit →
    ∃ s', m s = (.ok a, s') ∧ M.part s' = M.part s ∧ M.spent s' = M.spent s + k

def Spends (m : Proc σ Unit) (p : Proc τ Unit) (n : ℕ) : Prop :=
  ∀ s, M.spent s + n ≤ M.limit →
    (m s).1 = (p (M.part s)).1 ∧ M.part (m s).2 = (p (M.part s)).2 ∧
      ((m s).1 = .ok () → M.spent (m s).2 = M.spent s + n)

variable {M} {m : Proc σ α} {f : α → Proc σ β} {a : α} {b : β} {k n : ℕ} {p : Proc τ Unit}

theorem costs_pure : M.Costs (pure a) a 0 := fun s _ => ⟨s, rfl, rfl, rfl⟩

theorem costs_modify {g : σ → σ} (hpart : ∀ s, M.part (g s) = M.part s)
    (hspent : ∀ s, M.spent (g s) = M.spent s) : M.Costs (Proc.modify g) () 0 := by
  intro s _
  exact ⟨g s, rfl, hpart s, hspent s⟩

theorem Costs.bind {l : ℕ} (h : M.Costs m a k) (hf : M.Costs (f a) b l) :
    M.Costs (m >>= f) b (k + l) := by
  intro s hs
  obtain ⟨s', hrun, hpart, hspent⟩ := h s (by omega)
  obtain ⟨s'', hrun', hpart', hspent'⟩ := hf s' (by omega)
  refine ⟨s'', ?_, hpart'.trans hpart, by omega⟩
  rw [Proc.bind_ok hrun, hrun']

/-- What is not counted. -/
theorem Costs.bind_free (h : M.Costs m a 0) (hf : M.Costs (f a) b k) : M.Costs (m >>= f) b k := by
  have hbind := h.bind hf
  rwa [Nat.zero_add] at hbind

theorem Costs.lift_bind {r : Res α} (h : r = .ok a) (hf : M.Costs (f a) b k) :
    M.Costs ((monadLift r : Proc σ α) >>= f) b k := by
  intro s hs
  rw [Proc.lift_bind_ok h]
  exact hf s hs

theorem spends_pure : M.Spends (pure ()) (pure ()) 0 := fun _ _ => ⟨rfl, rfl, fun _ => rfl⟩

/-- What is counted first. -/
theorem Costs.spends {f : α → Proc σ Unit} (h : M.Costs m a k) (hf : M.Spends (f a) p n) :
    M.Spends (m >>= f) p (k + n) := by
  intro s hs
  obtain ⟨s', hrun, hpart, hspent⟩ := h s (by omega)
  obtain ⟨hresult, hpart', hspent'⟩ := hf s' (by omega)
  rw [Proc.bind_ok hrun, ← hpart]
  refine ⟨hresult, hpart', ?_⟩
  intro hok
  have hn := hspent' hok
  omega

theorem Costs.spends_free {f : α → Proc σ Unit} (h : M.Costs m a 0) (hf : M.Spends (f a) p n) :
    M.Spends (m >>= f) p n := by
  have hspends := h.spends hf
  rwa [Nat.zero_add] at hspends

theorem Spends.lift_bind {r : Res α} {f : α → Proc σ Unit} (h : r = .ok a)
    (hf : M.Spends (f a) p n) : M.Spends ((monadLift r : Proc σ α) >>= f) p n := by
  intro s hs
  rw [Proc.lift_bind_ok h]
  exact hf s hs

/-- One after the other. -/
theorem Spends.bind {m m' : Proc σ Unit} {p' : Proc τ Unit} {n' : ℕ} (h : M.Spends m p n)
    (h' : M.Spends m' p' n') :
    M.Spends (m >>= fun _ => m') (p >>= fun _ => p') (n + n') := by
  intro s hs
  obtain ⟨hresult, hpart, hspent⟩ := h s (by omega)
  cases hrun : m s with
  | mk r s' =>
    cases hrun' : p (M.part s) with
    | mk r' t =>
      rw [hrun, hrun'] at hresult hpart
      rw [hrun] at hspent
      -- both stop, or neither
      cases hresult
      cases hpart
      cases r with
      | error stop =>
        rw [Proc.bind_error hrun, Proc.bind_error hrun']
        exact ⟨rfl, rfl, nofun⟩
      | ok =>
        have hn := hspent rfl
        rw [Proc.bind_ok hrun, Proc.bind_ok hrun']
        obtain ⟨hresult', hpart', hspent'⟩ := h' s' (by dsimp only at hn; omega)
        refine ⟨hresult', hpart', ?_⟩
        intro hok
        have hn' := hspent' hok
        dsimp only at hn
        omega

/-- A loop over the places of a list, next to one over the list. -/
theorem spends_range {l : List ι} {m : ℕ → Proc σ Unit} {p : ι → Proc τ Unit} {size : ι → ℕ}
    (h : ∀ i (hi : i < l.length), M.Spends (m i) (p l[i]) (size l[i])) :
    M.Spends ((List.range l.length).forM m) (l.forM p) (l.map size).sum := by
  induction l generalizing m with
  | nil => exact spends_pure
  | cons x l ih =>
    have hhead : M.Spends (m 0) (p x) (size x) := h 0 (Nat.succ_pos _)
    have htail := ih (m := m ∘ Nat.succ) fun i hi => h (i + 1) (Nat.succ_lt_succ hi)
    rw [List.length_cons, List.range_succ_eq_map, List.map_cons, List.sum_cons]
    have hmap : ((List.range l.length).map Nat.succ).forM m =
        (List.range l.length).forM (m ∘ Nat.succ) := List.forM_map
    show M.Spends (m 0 >>= fun _ => ((List.range l.length).map Nat.succ).forM m)
      (p x >>= fun _ => l.forM p) _
    rw [hmap]
    exact hhead.bind htail

end Meter

end NostrSearch.Lib
