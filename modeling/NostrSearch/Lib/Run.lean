import Mathlib.Tactic

/-!
# Runs of a partial step function

A system is a step function `σ → α → Option σ`: what the action `α` does to the state, or
`none` when it is not enabled. This file has the vocabulary every system below is stated in:

* `run`, the state after a list of actions;
* `Along ok`, "every step this run takes meets `ok`", where `ok` reads the action and the
  state *before* the step;
* `run_invariant`, the induction that turns a step lemma into a run lemma, once with and
  once without a condition on the steps;
* `visited_iff_along`, for conditions that are exact: the property holds in every state a
  run visits if and only if every step of it meets the condition;
* `withHistory`, for properties that speak of what happened before.
-/

namespace NostrSearch.Lib

variable {σ α : Type*} {step : σ → α → Option σ}

/-- The state after the actions `as`, if each of them is enabled in its turn. -/
def run (step : σ → α → Option σ) : σ → List α → Option σ
  | s, [] => some s
  | s, a :: as => (step s a).bind fun s' => run step s' as

@[simp] theorem run_nil (s : σ) : run step s [] = some s := rfl

theorem run_cons (s : σ) (a : α) (as : List α) :
    run step s (a :: as) = (step s a).bind fun s' => run step s' as := rfl

theorem run_cons_some {s u : σ} {a : α} {as : List α} :
    run step s (a :: as) = some u ↔ ∃ s', step s a = some s' ∧ run step s' as = some u := by
  rw [run_cons, Option.bind_eq_some_iff]

theorem run_append (s : σ) (as bs : List α) :
    run step s (as ++ bs) = (run step s as).bind fun s' => run step s' bs := by
  induction as generalizing s with
  | nil => rfl
  | cons a as ih =>
    rw [List.cons_append, run_cons, run_cons, Option.bind_assoc]
    congr 1
    funext s'
    exact ih s'

theorem run_append_some {s u : σ} {as bs : List α} :
    run step s (as ++ bs) = some u ↔ ∃ s', run step s as = some s' ∧ run step s' bs = some u := by
  rw [run_append, Option.bind_eq_some_iff]

/-- Every step the run takes from `s` meets `ok`, which sees the state before the step. -/
def Along (step : σ → α → Option σ) (ok : σ → α → Prop) : σ → List α → Prop
  | _, [] => True
  | s, a :: as => ∀ s', step s a = some s' → ok s a ∧ Along step ok s' as

theorem Along.mono {ok ok' : σ → α → Prop} (h : ∀ s a, ok s a → ok' s a) {s : σ} {as : List α}
    (hs : Along step ok s as) : Along step ok' s as := by
  induction as generalizing s with
  | nil => trivial
  | cons a as ih =>
    intro s' hstep
    obtain ⟨hok, hrest⟩ := hs s' hstep
    exact ⟨h s a hok, ih hrest⟩

/-- A first step that is known, and meets `ok`. -/
theorem Along.cons {ok : σ → α → Prop} {s s' : σ} {a : α} {as : List α} (hstep : step s a = some s')
    (ha : ok s a) (hs : Along step ok s' as) : Along step ok s (a :: as) := by
  intro u hu
  rw [hstep, Option.some.injEq] at hu
  rw [← hu]
  exact ⟨ha, hs⟩

/-- Whether every step of the run meets `ok`, computed along with the run. -/
def alongB (step : σ → α → Option σ) (ok : σ → α → Bool) : σ → List α → Bool
  | _, [] => true
  | s, a :: as => (step s a).all fun s' => ok s a && alongB step ok s' as

theorem along_of_alongB {ok : σ → α → Prop} {okB : σ → α → Bool}
    (h : ∀ s a, okB s a = true → ok s a) {s : σ} {as : List α}
    (hs : alongB step okB s as = true) : Along step ok s as := by
  induction as generalizing s with
  | nil => trivial
  | cons a as ih =>
    intro s' hstep
    rw [alongB, hstep, Option.all_some, Bool.and_eq_true] at hs
    exact ⟨h s a hs.1, ih hs.2⟩

theorem alongB_of_along {ok : σ → α → Prop} {okB : σ → α → Bool}
    (h : ∀ s a s', step s a = some s' → ok s a → okB s a = true) {s u : σ} {as : List α}
    (hs : Along step ok s as) (hrun : run step s as = some u) : alongB step okB s as = true := by
  induction as generalizing s with
  | nil => rfl
  | cons a as ih =>
    obtain ⟨s', hs', hu⟩ := run_cons_some.mp hrun
    obtain ⟨ha, hrest⟩ := hs s' hs'
    rw [alongB, hs', Option.all_some, Bool.and_eq_true]
    exact ⟨h s a s' hs' ha, ih hrest hu⟩

/-- A condition the run's actions meet wherever they are taken, next to one its steps meet. -/
theorem Along.and_mem {ok : σ → α → Prop} {p : α → Prop} {s : σ} {as : List α}
    (hs : Along step ok s as) (hp : ∀ a ∈ as, p a) :
    Along step (fun s a => ok s a ∧ p a) s as := by
  induction as generalizing s with
  | nil => trivial
  | cons a as ih =>
    intro s' hstep
    obtain ⟨hok, hrest⟩ := hs s' hstep
    exact ⟨⟨hok, hp a List.mem_cons_self⟩, ih hrest fun b hb => hp b (List.mem_cons_of_mem a hb)⟩

/-- A condition on the actions alone. -/
theorem along_of_mem {p : α → Prop} {s : σ} {as : List α} (hp : ∀ a ∈ as, p a) :
    Along step (fun _ a => p a) s as := by
  induction as generalizing s with
  | nil => trivial
  | cons a as ih =>
    intro s' _
    exact ⟨hp a List.mem_cons_self, ih fun b hb => hp b (List.mem_cons_of_mem a hb)⟩

theorem along_append {ok : σ → α → Prop} {s : σ} {as bs : List α}
    (h : Along step ok s (as ++ bs)) :
    Along step ok s as ∧ ∀ s', run step s as = some s' → Along step ok s' bs := by
  induction as generalizing s with
  | nil =>
    refine ⟨trivial, fun s' hs' => ?_⟩
    cases hs'
    exact h
  | cons a as ih =>
    refine ⟨fun s' hs' => ⟨(h s' hs').1, (ih (h s' hs').2).1⟩, fun u hu => ?_⟩
    obtain ⟨s', hs', hu⟩ := run_cons_some.mp hu
    exact (ih (h s' hs').2).2 u hu

/-- **The run rule.** What every step meeting `ok` preserves, every run whose steps all
meet `ok` preserves. -/
theorem run_invariant {ok : σ → α → Prop} {Inv : σ → Prop}
    (hstep : ∀ s a s', Inv s → ok s a → step s a = some s' → Inv s')
    {s u : σ} {as : List α} (hs : Inv s) (hok : Along step ok s as)
    (hrun : run step s as = some u) : Inv u := by
  induction as generalizing s with
  | nil =>
    cases hrun
    exact hs
  | cons a as ih =>
    obtain ⟨s', hs', hu⟩ := run_cons_some.mp hrun
    obtain ⟨ha, hrest⟩ := hok s' hs'
    exact ih (hstep s a s' hs ha hs') hrest hu

/-- The run rule without a condition on the steps. -/
theorem run_invariant' {Inv : σ → Prop}
    (hstep : ∀ s a s', Inv s → step s a = some s' → Inv s')
    {s u : σ} {as : List α} (hs : Inv s) (hrun : run step s as = some u) : Inv u := by
  induction as generalizing s with
  | nil =>
    cases hrun
    exact hs
  | cons a as ih =>
    obtain ⟨s', hs', hu⟩ := run_cons_some.mp hrun
    exact ih (hstep s a s' hs hs') hu

/-- The run rule for an invariant that sees the actions taken so far. -/
theorem run_history_invariant {Inv : List α → σ → Prop}
    (hstep : ∀ pre s a s', Inv pre s → step s a = some s' → Inv (pre ++ [a]) s')
    {s u : σ} {pre as : List α} (hs : Inv pre s) (hrun : run step s as = some u) :
    Inv (pre ++ as) u := by
  induction as generalizing s pre with
  | nil =>
    cases hrun
    rwa [List.append_nil]
  | cons a as ih =>
    obtain ⟨s', hs', hu⟩ := run_cons_some.mp hrun
    rw [List.append_cons]
    exact ih (hstep pre s a s' hs hs') hu

/-- `u` is one of the states the run of `as` from `s` goes through, its first included. -/
def Visited (step : σ → α → Option σ) (s : σ) (as : List α) (u : σ) : Prop :=
  ∃ pre, pre <+: as ∧ run step s pre = some u

theorem visited_start (s : σ) (as : List α) : Visited step s as s :=
  ⟨[], List.nil_prefix, rfl⟩

theorem visited_cons {s s' u : σ} {a : α} {as : List α} (hs : step s a = some s')
    (h : Visited step s' as u) : Visited step s (a :: as) u := by
  obtain ⟨pre, hpre, hu⟩ := h
  refine ⟨a :: pre, ?_, run_cons_some.mpr ⟨s', hs, hu⟩⟩
  rw [List.cons_prefix_cons]
  exact ⟨rfl, hpre⟩

/-- A test of every state a run visits. -/
theorem forall_visited_of_inits {ok : σ → Bool} {s : σ} {as : List α}
    (h : (as.inits.all fun pre => (run step s pre).all ok) = true) :
    ∀ u, Visited step s as u → ok u = true := by
  rintro u ⟨pre, hpre, hu⟩
  have hall := List.all_eq_true.mp h pre (List.mem_inits pre as |>.mpr hpre)
  rwa [hu, Option.all_some] at hall

/-- A run whose steps all meet `ok` keeps the invariant in every state it visits. -/
theorem visited_invariant {ok : σ → α → Prop} {Inv : σ → Prop}
    (hstep : ∀ s a s', Inv s → ok s a → step s a = some s' → Inv s')
    {s u : σ} {as : List α} (hs : Inv s) (hok : Along step ok s as)
    (hu : Visited step s as u) : Inv u := by
  obtain ⟨pre, ⟨post, rfl⟩, hrun⟩ := hu
  exact run_invariant hstep hs (along_append hok).1 hrun

/-- Two conditions met along a run are met together. -/
theorem Along.and {ok ok' : σ → α → Prop} {s : σ} {as : List α} (h : Along step ok s as)
    (h' : Along step ok' s as) : Along step (fun s a => ok s a ∧ ok' s a) s as := by
  induction as generalizing s with
  | nil => trivial
  | cons a as ih =>
    intro s' hstep
    exact ⟨⟨(h s' hstep).1, (h' s' hstep).1⟩, ih (h s' hstep).2 (h' s' hstep).2⟩

/-- Along a run that keeps an invariant, what the invariant gives of each step. -/
theorem Along.imp {ok ok' : σ → α → Prop} {Inv : σ → Prop} {p : α → Prop}
    (hstep : ∀ s a s', Inv s → p a → ok s a → step s a = some s' → Inv s')
    (himp : ∀ s a s', Inv s → p a → ok s a → step s a = some s' → ok' s a)
    {s : σ} {as : List α} (hs : Inv s) (hp : ∀ a ∈ as, p a) (h : Along step ok s as) :
    Along step ok' s as := by
  induction as generalizing s with
  | nil => trivial
  | cons a as ih =>
    intro s' hs'
    have ha : p a := hp a List.mem_cons_self
    obtain ⟨hok, hrest⟩ := h s' hs'
    refine ⟨himp s a s' hs ha hok hs', ?_⟩
    exact ih (hstep s a s' hs ha hok hs') (fun b hb => hp b (List.mem_cons_of_mem a hb)) hrest

/-- Two conditions on the steps that say the same where the invariant holds: if steps that meet them
keep it, they are met along the same runs. -/
theorem along_iff_along {ok ok' : σ → α → Prop} {Inv : σ → Prop} {p : α → Prop}
    (hstep : ∀ s a s', Inv s → p a → ok s a → step s a = some s' → Inv s')
    (hiff : ∀ s a s', Inv s → p a → step s a = some s' → (ok' s a ↔ ok s a))
    {s : σ} {as : List α} (hs : Inv s) (hp : ∀ a ∈ as, p a) :
    Along step ok' s as ↔ Along step ok s as := by
  induction as generalizing s with
  | nil => exact Iff.rfl
  | cons a as ih =>
    have ha : p a := hp a List.mem_cons_self
    have hrest : ∀ b ∈ as, p b := fun b hb => hp b (List.mem_cons_of_mem a hb)
    refine forall_congr' fun s' => forall_congr' fun hs' => ?_
    constructor
    · rintro ⟨hok', halong⟩
      have hok := (hiff s a s' hs ha hs').mp hok'
      exact ⟨hok, (ih (hstep s a s' hs ha hok hs') hrest).mp halong⟩
    · rintro ⟨hok, halong⟩
      exact ⟨(hiff s a s' hs ha hs').mpr hok, (ih (hstep s a s' hs ha hok hs') hrest).mpr halong⟩

/-- What holds in every state a run visits holds after each of its steps. -/
theorem along_of_visited {g : σ → Prop} {s : σ} {as : List α}
    (hg : ∀ u, Visited step s as u → g u) :
    Along step (fun s a => ∀ s', step s a = some s' → g s') s as := by
  induction as generalizing s with
  | nil => trivial
  | cons a as ih =>
    intro s' hs'
    refine ⟨?_, ih fun u hu => hg u (visited_cons hs' hu)⟩
    intro u hu
    exact hg u (visited_cons hu (visited_start u as))

/-- **Exact step conditions.** The run's actions are all of the kind `p`, and the states it
visits of the kind `g`. If steps meeting `ok` preserve the invariant, the invariant gives `P`,
and a step that does not meet `ok` leaves a state without `P`, then `P` holds in every state a
run visits if and only if every step of the run meets `ok`. -/
theorem visited_iff_along_within {ok : σ → α → Prop} {Inv P g : σ → Prop} {p : α → Prop}
    (hstep : ∀ s a s', Inv s → p a → g s' → ok s a → step s a = some s' → Inv s')
    (hP : ∀ s, Inv s → P s)
    (hbad : ∀ s a s', Inv s → p a → g s' → ¬ ok s a → step s a = some s' → ¬ P s')
    {s : σ} {as : List α} (hs : Inv s) (hp : ∀ a ∈ as, p a)
    (hg : ∀ u, Visited step s as u → g u) :
    (∀ u, Visited step s as u → P u) ↔ Along step ok s as := by
  constructor
  · intro h
    induction as generalizing s with
    | nil => trivial
    | cons a as ih =>
      intro s' hs'
      have ha : p a := hp a List.mem_cons_self
      have hgs' : g s' := hg s' (visited_cons hs' (visited_start s' as))
      have hok : ok s a := by
        by_contra hbad'
        exact hbad s a s' hs ha hgs' hbad' hs' (h s' (visited_cons hs' (visited_start s' as)))
      exact ⟨hok, ih (hstep s a s' hs ha hgs' hok hs') (fun b hb => hp b (List.mem_cons_of_mem a hb))
        (fun u hu => hg u (visited_cons hs' hu)) fun u hu => h u (visited_cons hs' hu)⟩
  · intro h u hu
    have hsteps := (h.and_mem hp).and (along_of_visited hg)
    refine hP u (visited_invariant ?_ hs hsteps hu)
    rintro s a s' hInv ⟨⟨hok, ha⟩, hgs⟩ hs'
    exact hstep s a s' hInv ha (hgs s' hs') hok hs'

/-- Exact step conditions, whatever states are visited. -/
theorem visited_iff_along {ok : σ → α → Prop} {Inv P : σ → Prop} {p : α → Prop}
    (hstep : ∀ s a s', Inv s → p a → ok s a → step s a = some s' → Inv s')
    (hP : ∀ s, Inv s → P s)
    (hbad : ∀ s a s', Inv s → p a → ¬ ok s a → step s a = some s' → ¬ P s')
    {s : σ} {as : List α} (hs : Inv s) (hp : ∀ a ∈ as, p a) :
    (∀ u, Visited step s as u → P u) ↔ Along step ok s as := by
  have hg : ∀ u, Visited step s as u → True := fun _ _ => trivial
  exact visited_iff_along_within (fun s a s' hs ha _ => hstep s a s' hs ha) hP
    (fun s a s' hs ha _ => hbad s a s' hs ha) hs hp hg

/-- A step that does not meet `ok` leaves something for good. -/
theorem along_or_left {ok : σ → α → Prop} {Inv Left : σ → Prop}
    (hstep : ∀ s a s', Inv s → step s a = some s' → Inv s')
    (hleft : ∀ s a s', Inv s → ¬ ok s a → step s a = some s' → Left s')
    (hkeep : ∀ s a s', Inv s → Left s → step s a = some s' → Left s')
    {s u : σ} {as : List α} (hs : Inv s) (hrun : run step s as = some u) :
    Along step ok s as ∨ Left u := by
  have hlater : ∀ {s : σ} {as : List α}, Inv s → Left s → run step s as = some u → Left u := by
    intro s as hs hl hrun
    refine (@run_invariant' _ _ _ (fun s => Inv s ∧ Left s) ?_ s u as ⟨hs, hl⟩ hrun).2
    exact fun s a s' h hs' => ⟨hstep s a s' h.1 hs', hkeep s a s' h.1 h.2 hs'⟩
  induction as generalizing s with
  | nil => exact Or.inl trivial
  | cons a as ih =>
    obtain ⟨s', hs', hu⟩ := run_cons_some.mp hrun
    have hInv : Inv s' := hstep s a s' hs hs'
    by_cases hok : ok s a
    · rcases ih hInv hu with hrest | hl
      · refine Or.inl fun s'' hs'' => ?_
        rw [hs'] at hs''
        cases hs''
        exact ⟨hok, hrest⟩
      · exact Or.inr hl
    · exact Or.inr (hlater hInv (hleft s a s' hs hok hs') hu)

/-- A switch that the steps meeting `Sets` put on, and none puts off: it is on at the end of a run if
it was on at the start, or one of the steps put it on. -/
theorem run_latch {Inv On : σ → Prop} {Sets : σ → α → Prop}
    (hstep : ∀ s a s', Inv s → step s a = some s' → Inv s')
    (hlatch : ∀ s a s', Inv s → step s a = some s' → (On s' ↔ On s ∨ Sets s a))
    {s u : σ} {as : List α} (hs : Inv s) (hrun : run step s as = some u) :
    On u ↔ On s ∨ ∃ pre a post s', as = pre ++ a :: post ∧ run step s pre = some s' ∧ Sets s' a := by
  induction as generalizing s with
  | nil =>
    cases hrun
    refine (or_iff_left ?_).symm
    rintro ⟨pre, a, post, -, has, -⟩
    exact List.cons_ne_nil _ _ (List.append_eq_nil_iff.mp has.symm).2
  | cons a as ih =>
    obtain ⟨s', hs', hrest⟩ := run_cons_some.mp hrun
    rw [ih (hstep s a s' hs hs') hrest, hlatch s a s' hs hs', or_assoc]
    refine or_congr_right ?_
    constructor
    · rintro (hset | ⟨pre, b, post, v, rfl, hv, hb⟩)
      · exact ⟨[], a, as, s, rfl, rfl, hset⟩
      · exact ⟨a :: pre, b, post, v, rfl, run_cons_some.mpr ⟨s', hs', hv⟩, hb⟩
    · rintro ⟨pre, b, post, v, has, hv, hb⟩
      cases pre with
      | nil =>
        cases has
        cases hv
        exact Or.inl hb
      | cons c pre =>
        obtain ⟨rfl, rfl⟩ := List.cons.inj has
        obtain ⟨w, hw, hv⟩ := run_cons_some.mp hv
        rw [hs'] at hw
        cases hw
        exact Or.inr ⟨pre, b, post, v, rfl, hv, hb⟩

/-! ## History -/

/-- The system next to a record of what it has done: `note` sees the state before the step, the
action and the state after it. -/
def withHistory {η : Type*} (step : σ → α → Option σ) (note : η → σ → α → σ → η) (s : η × σ)
    (a : α) : Option (η × σ) :=
  (step s.2 a).map fun s' => (note s.1 s.2 a s', s')

theorem withHistory_some {η : Type*} {note : η → σ → α → σ → η} {s s' : η × σ} {a : α} :
    withHistory step note s a = some s' ↔
      step s.2 a = some s'.2 ∧ s'.1 = note s.1 s.2 a s'.2 := by
  rw [withHistory, Option.map_eq_some_iff]
  constructor
  · rintro ⟨u, hu, rfl⟩
    exact ⟨hu, rfl⟩
  · rintro ⟨hstep, hnote⟩
    exact ⟨s'.2, hstep, by rw [← hnote]⟩

/-- Every run can be recorded. -/
theorem exists_run_withHistory {η : Type*} (note : η → σ → α → σ → η) (h : η) {s s' : σ}
    {as : List α} (hrun : run step s as = some s') :
    ∃ h', run (withHistory step note) (h, s) as = some (h', s') := by
  induction as generalizing s h with
  | nil =>
    cases hrun
    exact ⟨h, rfl⟩
  | cons a as ih =>
    obtain ⟨u, hu, hrest⟩ := run_cons_some.mp hrun
    obtain ⟨h', hh'⟩ := ih (note h s a u) hrest
    exact ⟨h', run_cons_some.mpr ⟨(note h s a u, u), withHistory_some.mpr ⟨hu, rfl⟩, hh'⟩⟩

end NostrSearch.Lib
