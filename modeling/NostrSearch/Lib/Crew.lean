import NostrSearch.Lib.Run

/-!
# Workers at a shared counter

A list of tasks is worked off by a crew. A worker draws the next index from a counter that all of
them share, works on the task of that index and adds what comes out to a list of its own; an index
past the end sends it home. Working on a task may change what the crew shares, but what comes out
depends on the task only.

However the workers take turns, the crew can go home, and once it has, the lists hold the answers
to all the tasks, each once.
-/

namespace NostrSearch.Lib

variable {τ γ β : Type*}

/-- Where a worker is in its loop. -/
inductive Duty (τ : Type*)
  | ready
  | holds (t : τ)
  | home

/-- The task a worker has drawn and not yet done. -/
def Duty.task : Duty τ → Option τ
  | .holds t => some t
  | _ => none

/-- Whether the worker has left its loop. -/
def Duty.isHome : Duty τ → Bool
  | .home => true
  | _ => false

/-- The steps from here to home, with no task drawn on the way. -/
def Duty.left : Duty τ → ℕ
  | .holds _ => 2
  | .ready => 1
  | .home => 0

structure Worker (τ β : Type*) where
  duty : Duty τ
  out : List β

/-- What a worker has in its list, and what the task it holds is going to add to it. -/
def Worker.due (answer : τ → List β) (w : Worker τ β) : List β :=
  w.out ++ w.duty.task.toList.flatMap answer

structure Crew (τ γ β : Type*) where
  next : ℕ
  shared : γ
  workers : List (Worker τ β)

namespace Crew

/-- `n` workers before their first draw. -/
def start (n : ℕ) (shared : γ) : Crew τ γ β :=
  { next := 0, shared := shared, workers := List.replicate n { duty := .ready, out := [] } }

variable (tasks : List τ) (work : γ → τ → γ × List β)

/-- Worker `w` takes its turn: it draws, or it does the task it has drawn. -/
def step (c : Crew τ γ β) (w : ℕ) : Option (Crew τ γ β) :=
  match c.workers[w]? with
  | none => none
  | some me =>
    match me.duty with
    | .ready =>
      let duty := (tasks[c.next]?).elim .home .holds
      some { c with next := c.next + 1, workers := c.workers.set w { me with duty := duty } }
    | .holds t =>
      let done := work c.shared t
      some
        { c with
          shared := done.1
          workers := c.workers.set w { duty := .ready, out := me.out ++ done.2 } }
    | .home => none

/-- Every worker has left its loop. -/
def isHome (c : Crew τ γ β) : Bool := c.workers.all fun w => w.duty.isHome

/-- The workers' lists, one after the other. -/
def out (c : Crew τ γ β) : List β := c.workers.flatMap Worker.out

variable {tasks work}

/-- What a step can do. -/
theorem step_cases {c c' : Crew τ γ β} {w : ℕ} (h : step tasks work c w = some c') :
    ∃ me, c.workers[w]? = some me ∧
      ((me.duty = .ready ∧ c'.next = c.next + 1 ∧ c'.workers = c.workers.set w
          { me with duty := (tasks[c.next]?).elim .home .holds }) ∨
        ∃ t, me.duty = .holds t ∧ c'.next = c.next ∧ c'.workers = c.workers.set w
          { duty := .ready, out := me.out ++ (work c.shared t).2 }) := by
  cases hme : c.workers[w]? with
  | none =>
    rw [step, hme] at h
    cases h
  | some me =>
    refine ⟨me, rfl, ?_⟩
    rw [step, hme] at h
    dsimp only at h
    cases hduty : me.duty with
    | ready =>
      rw [hduty] at h
      cases h
      exact Or.inl ⟨rfl, rfl, rfl⟩
    | holds t =>
      rw [hduty] at h
      cases h
      exact Or.inr ⟨t, rfl, rfl, rfl⟩
    | home =>
      rw [hduty] at h
      cases h

/-- A list around one of its places. -/
theorem exists_around {α : Type*} {l : List α} {w : ℕ} {x : α} (h : l[w]? = some x) :
    ∃ front back, l = front ++ x :: back ∧ ∀ y, l.set w y = front ++ y :: back := by
  obtain ⟨hw, rfl⟩ := List.getElem?_eq_some_iff.mp h
  refine ⟨l.take w, l.drop (w + 1), ?_, fun y => List.set_eq_take_append_cons_drop.trans (if_pos hw)⟩
  rw [List.cons_getElem_drop_succ, List.take_append_drop]

/-! ## What comes out -/

section
variable {answer : τ → List β}

/-- The tasks drawn so far are those in the lists and those in work, and who has gone home has seen
the end of the list. -/
structure Accounts (tasks : List τ) (answer : τ → List β) (c : Crew τ γ β) : Prop where
  drawn : (c.workers.flatMap (Worker.due answer)).Perm ((tasks.take c.next).flatMap answer)
  seen : ∀ w ∈ c.workers, w.duty = .home → tasks.length ≤ c.next

theorem accounts_start (n : ℕ) (shared : γ) :
    Accounts tasks answer (start n shared : Crew τ γ β) := by
  refine ⟨?_, ?_⟩
  · show ((List.replicate n _).flatMap (Worker.due answer)).Perm _
    have hnil : (List.replicate n ({ duty := .ready, out := [] } : Worker τ β)).flatMap
        (Worker.due answer) = [] := by
      rw [List.flatMap_eq_nil_iff]
      intro w hw
      rw [List.eq_of_mem_replicate hw]
      rfl
    rw [hnil]
    exact List.Perm.refl _
  · intro w hw hhome
    rw [List.eq_of_mem_replicate hw] at hhome
    cases hhome

/-- A task drawn is a task in work. -/
theorem Accounts.draw {c c' : Crew τ γ β} {w : ℕ} {me : Worker τ β} (h : Accounts tasks answer c)
    (hme : c.workers[w]? = some me) (hduty : me.duty = .ready) (hnext : c'.next = c.next + 1)
    (hset : c'.workers = c.workers.set w
      { me with duty := (tasks[c.next]?).elim .home .holds }) :
    Accounts tasks answer c' := by
  obtain ⟨front, back, hl, hset'⟩ := exists_around hme
  have hdue : me.due answer = me.out := by simp [Worker.due, hduty, Duty.task]
  have hdrawn := h.drawn
  rw [hl] at hdrawn
  simp only [List.flatMap_append, List.flatMap_cons, hdue] at hdrawn
  cases htask : tasks[c.next]? with
  | none =>
    have hlen : tasks.length ≤ c.next := List.getElem?_eq_none_iff.mp htask
    have hdue' : Worker.due answer { me with duty := .home } = me.out := by
      simp [Worker.due, Duty.task]
    refine ⟨?_, fun _ _ _ => by omega⟩
    rw [hset, hset', htask, hnext, List.take_of_length_le (by omega)]
    rw [List.take_of_length_le hlen] at hdrawn
    simpa only [List.flatMap_append, List.flatMap_cons, Option.elim_none, hdue'] using hdrawn
  | some t =>
    have hdue' : Worker.due answer { me with duty := .holds t } = me.out ++ answer t := by
      simp [Worker.due, Duty.task]
    refine ⟨?_, ?_⟩
    · rw [hset, hset', htask, hnext, List.take_add_one, htask]
      simp only [List.flatMap_append, List.flatMap_cons, Option.elim_some, hdue',
        Option.toList_some, List.flatMap_nil, List.append_nil]
      -- the new answer moves to the end
      have hmove : (front.flatMap (Worker.due answer) ++
          (me.out ++ answer t ++ back.flatMap (Worker.due answer))).Perm
          (front.flatMap (Worker.due answer) ++
            (me.out ++ back.flatMap (Worker.due answer)) ++ answer t) := by
        simp only [List.append_assoc]
        exact ((List.perm_append_comm.append_left _).append_left _)
      exact hmove.trans (hdrawn.append_right _)
    · intro v hv hhome
      have hlt : c.next < tasks.length := (List.getElem?_eq_some_iff.mp htask).1
      rw [hset, hset', htask, Option.elim_some, List.mem_append, List.mem_cons] at hv
      have hold : v ∈ c.workers := by
        rw [hl, List.mem_append, List.mem_cons]
        rcases hv with hv | rfl | hv
        · exact Or.inl hv
        · cases hhome
        · exact Or.inr (Or.inr hv)
      have hseen := h.seen v hold hhome
      omega

/-- A task done is in the list. -/
theorem Accounts.done {c c' : Crew τ γ β} {w : ℕ} {me : Worker τ β} {t : τ}
    (h : Accounts tasks answer c) (hme : c.workers[w]? = some me) (hduty : me.duty = .holds t)
    (hnext : c'.next = c.next)
    (hset : c'.workers = c.workers.set w { duty := .ready, out := me.out ++ answer t }) :
    Accounts tasks answer c' := by
  obtain ⟨front, back, hl, hset'⟩ := exists_around hme
  have hdue : me.due answer = me.out ++ answer t := by simp [Worker.due, hduty, Duty.task]
  have hdue' : Worker.due answer { duty := .ready, out := me.out ++ answer t } =
      me.out ++ answer t := by simp [Worker.due, Duty.task]
  refine ⟨?_, ?_⟩
  · have hdrawn := h.drawn
    rw [hl] at hdrawn
    rw [hset, hset', hnext]
    simpa only [List.flatMap_append, List.flatMap_cons, hdue, hdue'] using hdrawn
  · intro v hv hhome
    rw [hset, hset', List.mem_append, List.mem_cons] at hv
    rw [hnext]
    apply h.seen v _ hhome
    rw [hl, List.mem_append, List.mem_cons]
    rcases hv with hv | rfl | hv
    · exact Or.inl hv
    · cases hhome
    · exact Or.inr (Or.inr hv)

theorem accounts_step (hwork : ∀ s t, (work s t).2 = answer t) {c c' : Crew τ γ β} {w : ℕ}
    (h : Accounts tasks answer c) (hstep : step tasks work c w = some c') :
    Accounts tasks answer c' := by
  obtain ⟨me, hme, ⟨hduty, hnext, hset⟩ | ⟨t, hduty, hnext, hset⟩⟩ := step_cases hstep
  · exact h.draw hme hduty hnext hset
  · rw [hwork] at hset
    exact h.done hme hduty hnext hset

theorem length_step {c c' : Crew τ γ β} {w : ℕ} (hstep : step tasks work c w = some c') :
    c'.workers.length = c.workers.length := by
  obtain ⟨me, -, ⟨-, -, hset⟩ | ⟨t, -, -, hset⟩⟩ := step_cases hstep
  · rw [hset, List.length_set]
  · rw [hset, List.length_set]

/-- **The answers to all the tasks.** Whoever did what, and when: once everyone is home, the lists
hold the answers to all the tasks. -/
theorem out_perm (hwork : ∀ s t, (work s t).2 = answer t) {n : ℕ} (hn : 0 < n) {shared : γ}
    {ws : List ℕ} {c : Crew τ γ β} (hrun : run (step tasks work) (start n shared) ws = some c)
    (hhome : c.isHome = true) : c.out.Perm (tasks.flatMap answer) := by
  have hacc : Accounts tasks answer c :=
    run_invariant' (fun _ _ _ h hs => accounts_step hwork h hs) (accounts_start n shared) hrun
  have hlen : c.workers.length = n :=
    run_invariant' (fun _ _ _ h hs => (length_step hs).trans h) List.length_replicate hrun
  have hduty : ∀ w ∈ c.workers, w.duty = .home := by
    intro w hw
    have h := List.all_eq_true.mp hhome w hw
    cases hw' : w.duty with
    | ready => rw [hw'] at h; cases h
    | holds t => rw [hw'] at h; cases h
    | home => rfl
  have hout : c.workers.flatMap (Worker.due answer) = c.out := by
    unfold out
    rw [List.flatMap_congr]
    intro w hw
    simp [Worker.due, hduty w hw, Duty.task]
  obtain ⟨w, hw⟩ := List.exists_mem_of_length_pos (hlen.symm ▸ hn)
  have hdrawn := hacc.drawn
  rwa [hout, List.take_of_length_le (hacc.seen w hw (hduty w hw))] at hdrawn

end

/-! ## The crew goes home -/

/-- How many steps are left at most: two for each task not drawn, and those the workers have before
them as they stand. -/
def left (tasks : List τ) (c : Crew τ γ β) : ℕ :=
  2 * (tasks.length - c.next) + (c.workers.map fun w => Duty.left w.duty).sum

theorem left_start (n : ℕ) (shared : γ) :
    left tasks (start n shared : Crew τ γ β) = 2 * tasks.length + n := by
  simp [left, start, Duty.left]

theorem left_step {c c' : Crew τ γ β} {w : ℕ} (hstep : step tasks work c w = some c') :
    left tasks c' < left tasks c := by
  obtain ⟨me, hme, hcases⟩ := step_cases hstep
  obtain ⟨front, back, hl, hset'⟩ := exists_around hme
  unfold left
  rcases hcases with ⟨hduty, hnext, hset⟩ | ⟨t, hduty, hnext, hset⟩
  · rw [hset, hset', hl, hnext]
    simp only [List.map_append, List.map_cons, List.sum_append, List.sum_cons, hduty]
    cases htask : tasks[c.next]? with
    | none =>
      show _ + (_ + (0 + _)) < _ + (_ + (1 + _))
      omega
    | some t =>
      have hlt : c.next < tasks.length := (List.getElem?_eq_some_iff.mp htask).1
      show _ + (_ + (2 + _)) < _ + (_ + (1 + _))
      omega
  · rw [hset, hset', hl, hnext]
    simp only [List.map_append, List.map_cons, List.sum_append, List.sum_cons, hduty]
    show _ + (_ + (1 + _)) < _ + (_ + (2 + _))
    omega

/-- As long as someone is not home, there is a turn to take. -/
theorem exists_step (tasks : List τ) (work : γ → τ → γ × List β) {c : Crew τ γ β}
    (h : c.isHome = false) :
    ∃ w c', step tasks work c w = some c' := by
  obtain ⟨me, hmem, hme⟩ := List.all_eq_false.mp h
  obtain ⟨w, hw, hget⟩ := List.getElem_of_mem hmem
  refine ⟨w, ?_⟩
  rw [step, List.getElem?_eq_getElem hw, hget]
  dsimp only
  cases hduty : me.duty with
  | ready => exact ⟨_, rfl⟩
  | holds t => exact ⟨_, rfl⟩
  | home =>
    rw [hduty] at hme
    exact absurd rfl hme

/-- **The crew goes home.** From wherever it is, its workers can take turns until all are home. -/
theorem exists_home (tasks : List τ) (work : γ → τ → γ × List β) (c : Crew τ γ β) :
    ∃ ws c', run (step tasks work) c ws = some c' ∧ c'.isHome = true := by
  induction hn : left tasks c using Nat.strong_induction_on generalizing c with
  | _ n ih =>
    cases hhome : c.isHome with
    | true => exact ⟨[], c, rfl, hhome⟩
    | false =>
      obtain ⟨w, c', hstep⟩ := exists_step tasks work hhome
      have hlt := left_step hstep
      obtain ⟨ws, c'', hrun, hhome'⟩ := ih (left tasks c') (by omega) c' rfl
      exact ⟨w :: ws, c'', run_cons_some.mpr ⟨c', hstep, hrun⟩, hhome'⟩

/-- And no turns they take go on for longer than `left`. -/
theorem length_le_left {c c' : Crew τ γ β} {ws : List ℕ}
    (hrun : run (step tasks work) c ws = some c') : ws.length ≤ left tasks c := by
  induction ws generalizing c with
  | nil => exact Nat.zero_le _
  | cons w ws ih =>
    obtain ⟨c₁, hstep, hrest⟩ := run_cons_some.mp hrun
    have hlt := left_step hstep
    have hle := ih hrest
    rw [List.length_cons]
    omega

end Crew

end NostrSearch.Lib
