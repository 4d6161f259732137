import Mathlib.Order.Lattice
import Mathlib.Order.BoundedOrder.Basic
import Mathlib.Tactic

/-!
# Folding and merging

A result that is put together from parts: each part starts new and has items folded into it, and
parts are merged. A `Recipe` is one way to do so, and `eval` is what comes of it. Where a merge
leaves open what it returns, `Yields` is what may come of it.

* `le_eval_iff`: what every fold and every merge joins is the join of the items, so that only the
  set of the items matters (`eval_congr`).
* `every_iff`: a property that each step keeps under an exact condition holds of every part if and
  only if every step meets the condition.
-/

namespace NostrSearch.Lib

/-- How a result is put together. -/
inductive Recipe (α : Type*)
  | new
  | fold (r : Recipe α) (a : α)
  | merge (r t : Recipe α)

namespace Recipe

variable {σ α μ : Type*}

/-- The items that are folded in, in the order of the parts. -/
def items : Recipe α → List α
  | new => []
  | fold r a => r.items ++ [a]
  | merge r t => r.items ++ t.items

/-- The parts, the whole included. -/
def parts : Recipe α → List (Recipe α)
  | new => [new]
  | fold r a => fold r a :: r.parts
  | merge r t => merge r t :: (r.parts ++ t.parts)

/-- One part, with these items folded into it. -/
def ofList (as : List α) : Recipe α := as.foldl fold new

/-- What comes of a recipe. -/
def eval (init : σ) (step : σ → α → σ) (join : σ → σ → σ) : Recipe α → σ
  | new => init
  | fold r a => step (r.eval init step join) a
  | merge r t => join (r.eval init step join) (t.eval init step join)

/-- What may come of a recipe. -/
inductive Yields (init : σ) (step : σ → α → σ) (join : σ → σ → σ → Prop) : Recipe α → σ → Prop
  | new : Yields init step join new init
  | fold {r : Recipe α} {s : σ} (a : α) (hr : Yields init step join r s) :
      Yields init step join (fold r a) (step s a)
  | merge {r t : Recipe α} {s u v : σ} (hr : Yields init step join r s)
      (ht : Yields init step join t u) (h : join s u v) : Yields init step join (merge r t) v

theorem mem_parts_self (r : Recipe α) : r ∈ r.parts := by
  cases r <;> exact List.mem_cons_self

theorem items_foldl_fold (as : List α) (r : Recipe α) :
    (as.foldl fold r).items = r.items ++ as := by
  induction as generalizing r with
  | nil => rw [List.foldl_nil, List.append_nil]
  | cons a as ih => rw [List.foldl_cons, ih, items, List.append_assoc, List.singleton_append]

@[simp] theorem items_ofList (as : List α) : (ofList as).items = as := by
  rw [ofList, items_foldl_fold, items, List.nil_append]

section Eval

variable {init : σ} {step : σ → α → σ} {join : σ → σ → σ} {view : σ → μ} {w : α → μ}

theorem eval_foldl_fold (as : List α) (r : Recipe α) :
    (as.foldl fold r).eval init step join = as.foldl step (r.eval init step join) := by
  induction as generalizing r with
  | nil => rfl
  | cons a as ih => rw [List.foldl_cons, ih, List.foldl_cons, eval]

/-- One part is a fold over its items. -/
theorem eval_ofList (as : List α) : (ofList as).eval init step join = as.foldl step init := by
  rw [ofList, eval_foldl_fold, eval]

/-- What every fold and every merge joins is the join of the items. -/
theorem le_eval_iff [SemilatticeSup μ] [OrderBot μ] (hinit : view init = ⊥)
    (hstep : ∀ s a, view (step s a) = view s ⊔ w a)
    (hjoin : ∀ s t, view (join s t) = view s ⊔ view t) (r : Recipe α) (c : μ) :
    view (r.eval init step join) ≤ c ↔ ∀ a ∈ r.items, w a ≤ c := by
  induction r with
  | new => simp [eval, hinit, items]
  | fold r a ih =>
    rw [eval, hstep, sup_le_iff, ih, items]
    simp only [List.mem_append, List.mem_singleton, or_imp, forall_and, forall_eq]
  | merge r t ihr iht =>
    rw [eval, hjoin, sup_le_iff, ihr, iht, items]
    simp only [List.mem_append, or_imp, forall_and]

/-- Only the set of the items matters. -/
theorem eval_congr [SemilatticeSup μ] [OrderBot μ] (hinit : view init = ⊥)
    (hstep : ∀ s a, view (step s a) = view s ⊔ w a)
    (hjoin : ∀ s t, view (join s t) = view s ⊔ view t) {r t : Recipe α}
    (h : ∀ a, a ∈ r.items ↔ a ∈ t.items) :
    view (r.eval init step join) = view (t.eval init step join) := by
  have hle := le_eval_iff hinit hstep hjoin
  apply le_antisymm
  · rw [hle]
    intro a ha
    exact (hle t _).mp (le_refl _) a ((h a).mp ha)
  · rw [hle]
    intro a ha
    exact (hle r _).mp (le_refl _) a ((h a).mpr ha)

end Eval

section Every

variable {P ok : Recipe α → Prop}

/-- **Exact step conditions.** If `ok` is what a step has to meet for `P` to hold after it, where
`P` held of what the step took, then `P` holds of every part if and only if every step meets it. -/
theorem every_iff (hnew : P new ∧ ok new) (hfold : ∀ r a, P r → (P (fold r a) ↔ ok (fold r a)))
    (hmerge : ∀ r t, P r → P t → (P (merge r t) ↔ ok (merge r t))) (r : Recipe α) :
    (∀ t ∈ r.parts, P t) ↔ ∀ t ∈ r.parts, ok t := by
  induction r with
  | new => simp only [parts, List.forall_mem_singleton, hnew.1, hnew.2]
  | fold r a ih =>
    rw [parts, List.forall_mem_cons, List.forall_mem_cons]
    constructor
    · rintro ⟨hP, hparts⟩
      exact ⟨(hfold r a (hparts r r.mem_parts_self)).mp hP, ih.mp hparts⟩
    · rintro ⟨hok, hparts⟩
      have hP := ih.mpr hparts
      exact ⟨(hfold r a (hP r r.mem_parts_self)).mpr hok, hP⟩
  | merge r t ihr iht =>
    rw [parts, List.forall_mem_cons, List.forall_mem_cons, List.forall_mem_append,
      List.forall_mem_append]
    constructor
    · rintro ⟨hP, hr, ht⟩
      have hok := (hmerge r t (hr r r.mem_parts_self) (ht t t.mem_parts_self)).mp hP
      exact ⟨hok, ihr.mp hr, iht.mp ht⟩
    · rintro ⟨hok, hr, ht⟩
      have hPr := ihr.mpr hr
      have hPt := iht.mpr ht
      exact ⟨(hmerge r t (hPr r r.mem_parts_self) (hPt t t.mem_parts_self)).mpr hok, hPr, hPt⟩

end Every

end Recipe

end NostrSearch.Lib
