import NostrSearch.Lib.Buckets
import NostrSearch.Lib.Faults
import NostrSearch.Lib.Recipes
import Mathlib.Tactic

/-!
# Overflow checks on and off

The same code computes in two ways: with its overflow checks on it panics where a number does not
fit, with them off it goes on. `Checks r p a` says this of the two: `r`, with the checks on, panics
unless `p` holds, and where it does not panic it returns what the code returns without them.

There is a rule for each way to put code together. Of a loop, every turn has to fit from where the
turns before it left (`FitsAll`).
-/

namespace NostrSearch.Lib

variable {α β ι : Type}

/-- `r` panics unless `p`, and otherwise returns `a`. -/
structure Checks (r : Res α) (p : Prop) (a : α) : Prop where
  ok : p → r = .ok a
  panic : ¬ p → r = .error .panic

/-- Each turn of a loop fits. -/
def FitsAll (p : β → ι → Prop) (g : β → ι → β) : List ι → β → Prop
  | [], _ => True
  | x :: l, b => p b x ∧ FitsAll p g l (g b x)

namespace Checks

variable {r : Res α} {f : α → Res β} {p q : Prop} {a : α} {b : β}

/-- Code that is known to return. -/
theorem of_eq (h : r = .ok a) : Checks r True a := ⟨fun _ => h, fun hn => absurd trivial hn⟩

theorem pure (a : α) : Checks (.ok a) True a := of_eq rfl

theorem iff (h : Checks r p a) (hpq : p ↔ q) : Checks r q a :=
  ⟨fun hq => h.ok (hpq.mpr hq), fun hq => h.panic fun hp => hq (hpq.mp hp)⟩

theorem bind (h : Checks r p a) (hf : Checks (f a) q b) : Checks (r >>= f) (p ∧ q) b := by
  constructor
  · rintro ⟨hp, hq⟩
    rw [h.ok hp]
    exact hf.ok hq
  · intro hpq
    by_cases hp : p
    · rw [h.ok hp]
      exact hf.panic fun hq => hpq ⟨hp, hq⟩
    · rw [h.panic hp]
      rfl

/-- What is made of a result without further checks. -/
theorem last (h : Checks r p a) (g : α → β) : Checks (r >>= fun x => Pure.pure (g x)) p (g a) :=
  (h.bind (f := fun x => .ok (g x)) (pure (g a))).iff (and_iff_left trivial)

theorem ne_panic_iff (h : Checks r p a) : r ≠ .error .panic ↔ p := by
  constructor
  · intro hr
    by_contra hp
    exact hr (h.panic hp)
  · intro hp
    rw [h.ok hp]
    nofun

theorem eq_ok_iff (h : Checks r p a) {a' : α} : r = .ok a' ↔ p ∧ a' = a := by
  constructor
  · intro hr
    have hp : p := by
      rw [← h.ne_panic_iff, hr]
      nofun
    rw [h.ok hp, Except.ok.injEq] at hr
    exact ⟨hp, hr.symm⟩
  · rintro ⟨hp, rfl⟩
    exact h.ok hp

theorem foldlM {f : β → ι → Res β} {p : β → ι → Prop} {g : β → ι → β}
    (h : ∀ b x, Checks (f b x) (p b x) (g b x)) (l : List ι) (b : β) :
    Checks (l.foldlM f b) (FitsAll p g l b) (l.foldl g b) := by
  induction l generalizing b with
  | nil => exact pure b
  | cons x l ih => exact (h b x).bind (ih (g b x))

end Checks

theorem checks_add_exact (a b : ℕ) : Checks (Res.add a b) (a + b < 2 ^ 64) (a + b) :=
  ⟨Res.add_eq, fun h => if_neg h⟩

/-- Without checks, a sum wraps around. -/
theorem checks_add (a b : ℕ) : Checks (Res.add a b) (a + b < 2 ^ 64) ((a + b) % 2 ^ 64) := by
  constructor
  · intro h
    rw [Res.add_eq h, Nat.mod_eq_of_lt h]
  · intro h
    exact if_neg h

/-- A loop whose turns are not affected by those before them. -/
theorem fitsAll_iff {p : β → ι → Prop} {g : β → ι → β} {l : List ι} (hl : l.Nodup) {b : β}
    (h : ∀ x ∈ l, ∀ y ∈ l, y ≠ x → ∀ b, p (g b y) x ↔ p b x) :
    FitsAll p g l b ↔ ∀ x ∈ l, p b x := by
  induction l generalizing b with
  | nil => simp [FitsAll]
  | cons y l ih =>
    rw [List.nodup_cons] at hl
    rw [FitsAll, List.forall_mem_cons, ih hl.2 fun x hx z hz => h x (List.mem_cons_of_mem _ hx) z
      (List.mem_cons_of_mem _ hz)]
    apply and_congr_right
    intro _
    apply forall₂_congr
    intro x hx
    have hne : y ≠ x := by
      rintro rfl
      exact hl.1 hx
    exact h x (List.mem_cons_of_mem _ hx) y List.mem_cons_self hne b

/-! ## Buckets -/

section Buckets

variable {κ : Type}

/-- `atEntry`, with checks on. -/
def atEntryC [DecidableEq κ] (m : Finmap fun _ : κ => β) (k : κ) (d : β) (f : β → Res β) :
    Res (Finmap fun _ : κ => β) := do
  let b ← f ((m.lookup k).getD d)
  return m.insert k b

/-- `absorb`, with checks on. -/
def absorbC [LinearOrder κ] (m : Finmap fun _ : κ => β) (d : β) (merge : β → α → Res β)
    (src : Finmap fun _ : κ => α) : Res (Finmap fun _ : κ => β) :=
  (src.keys.sort (· ≤ ·)).foldlM
    (fun m k => (src.lookup k).elim (.ok m) fun c => atEntryC m k d fun b => merge b c) m

theorem checks_atEntry [DecidableEq κ] {f : β → Res β} {p : β → Prop} {g : β → β}
    (h : ∀ b, Checks (f b) (p b) (g b)) (m : Finmap fun _ : κ => β) (k : κ) (d : β) :
    Checks (atEntryC m k d f) (p ((m.lookup k).getD d)) (atEntry m k d g) := by
  have hlast := (h ((m.lookup k).getD d)).last fun b : β => m.insert k b
  exact hlast

theorem checks_absorb [LinearOrder κ] {merge : β → α → Res β} {p : β → α → Prop}
    {g : β → α → β} (h : ∀ b c, Checks (merge b c) (p b c) (g b c))
    (m : Finmap fun _ : κ => β) (d : β) (src : Finmap fun _ : κ => α) :
    Checks (absorbC m d merge src)
      (∀ k c, src.lookup k = some c → p ((m.lookup k).getD d) c) (absorb m d g src) := by
  -- what a turn needs of its own bucket
  let fits : (Finmap fun _ : κ => β) → κ → Prop := fun m k =>
    ∀ c, src.lookup k = some c → p ((m.lookup k).getD d) c
  have hturn : ∀ (m : Finmap fun _ : κ => β) (k : κ),
      Checks ((src.lookup k).elim (.ok m) fun c => atEntryC m k d fun b => merge b c) (fits m k)
        ((src.lookup k).elim m fun c => atEntry m k d fun b => g b c) := by
    intro m k
    cases hk : src.lookup k with
    | none => exact (Checks.pure m).iff (iff_of_true trivial fun c hc => by rw [hk] at hc; cases hc)
    | some c =>
      apply (checks_atEntry (fun b => h b c) m k d).iff
      constructor
      · intro hp c' hc'
        rw [hk, Option.some.injEq] at hc'
        rwa [← hc']
      · intro hp
        exact hp c hk
  apply (Checks.foldlM hturn (src.keys.sort (· ≤ ·)) m).iff
  rw [fitsAll_iff (Finset.sort_nodup _ _)]
  · constructor
    · intro hall k c hc
      have hmem : k ∈ src.keys.sort (· ≤ ·) :=
        (Finset.mem_sort _).mpr (Finmap.mem_keys.mpr (Finmap.mem_of_lookup_eq_some hc))
      exact hall k hmem c hc
    · intro hall k _ c hc
      exact hall k c hc
  · intro k _ j _ hjk m
    -- a turn changes its own bucket only
    have hlookup : ((src.lookup j).elim m fun c => atEntry m j d fun b => g b c).lookup k =
        m.lookup k := by
      cases src.lookup j with
      | none => rfl
      | some c =>
        show (atEntry m j d fun b => g b c).lookup k = m.lookup k
        exact lookup_atEntry_of_ne hjk.symm
    simp only [fits, hlookup]

end Buckets

/-! ## Recipes -/

namespace Recipe

variable {σ : Type} {init : σ} {step : σ → α → Res σ} {join : σ → σ → Res σ} {g : σ → α → σ}
  {h : σ → σ → σ} {p : σ → α → Prop} {q : σ → σ → Prop}

/-- `eval`, with checks on. -/
def evalC (init : σ) (step : σ → α → Res σ) (join : σ → σ → Res σ) : Recipe α → Res σ
  | new => .ok init
  | fold r a => do step (← r.evalC init step join) a
  | merge r t => do
    let s ← r.evalC init step join
    let u ← t.evalC init step join
    join s u

/-- Every fold and every merge fits. -/
def Fits (p : σ → α → Prop) (q : σ → σ → Prop) (init : σ) (g : σ → α → σ) (h : σ → σ → σ) :
    Recipe α → Prop
  | new => True
  | fold r a => r.Fits p q init g h ∧ p (r.eval init g h) a
  | merge r t =>
    r.Fits p q init g h ∧ t.Fits p q init g h ∧ q (r.eval init g h) (t.eval init g h)

theorem checks_eval (hstep : ∀ s a, Checks (step s a) (p s a) (g s a))
    (hjoin : ∀ s u, Checks (join s u) (q s u) (h s u)) (r : Recipe α) :
    Checks (r.evalC init step join) (r.Fits p q init g h) (r.eval init g h) := by
  induction r with
  | new => exact Checks.pure init
  | fold r a ih => exact ih.bind (hstep _ a)
  | merge r t ihr iht => exact ihr.bind (iht.bind (hjoin _ _))

end Recipe

end NostrSearch.Lib
