import NostrSearch.Lib.Loop
import NostrSearch.Stats.Registry

/-!
# What a reset takes with it

`reset` takes the analysis with the name it is given and all that depend on it, at first or second
hand (`Reaches`), whether or not they also depend on each other. `reset_cascades` says so: these are
the entries it resets and the names it gives back, in order and each of them once.

The names are collected from a queue. A turn of `doomTurn` takes one name off it and dooms the
analyses that depend on that name, which go into the queue as they are doomed; so in the end the
doomed names are closed under dependence (`Dooming`), and no name was queued twice.
-/

namespace NostrSearch.Stats.Registry

open NostrSearch.Core NostrSearch.Stats NostrSearch.Lib Relation

variable {σ ε : Type} {r : Registry σ ε} {name cur : String}

/-- An analysis of the first name depends on the second. -/
def Needs (r : Registry σ ε) (a b : String) : Prop :=
  ∃ e ∈ r.entries, e.name = a ∧ b ∈ e.analysis.deps

/-- The analyses that a reset of `name` is about: itself, and who comes to it over one dependency
or more. -/
def Reaches (r : Registry σ ε) (a name : String) : Prop := a = name ∨ TransGen r.Needs a name

theorem Reaches.of_needs {a b : String} (hab : r.Needs a b) (hb : r.Reaches b name) :
    r.Reaches a name := by
  rcases hb with rfl | hb
  · exact Or.inr (TransGen.single hab)
  · exact Or.inr (TransGen.head hab hb)

/-! ## One turn -/

/-- What going through some entries for `cur` does to the doomed names and the queue. -/
structure Spread (cur : String) (es : List (Entry σ ε)) (s s' : List String × List String) :
    Prop where
  nodup : s.1.Nodup → s'.1.Nodup
  doomed : ∀ n ∈ s.1, n ∈ s'.1
  queued : ∀ n ∈ s.2, n ∈ s'.2
  from_entry : ∀ n ∈ s'.1, n ∈ s.1 ∨ ∃ e ∈ es, e.name = n ∧ (n = cur ∨ cur ∈ e.analysis.deps)
  waits : ∀ n ∈ s'.2, n ∈ s.2 ∨ ∃ e ∈ es, e.name = n ∧ cur ∈ e.analysis.deps
  fresh : ∀ n ∈ s'.1, n ∈ s.1 ∨ n = cur ∨ n ∈ s'.2
  reached : ∀ e ∈ es, e.name = cur ∨ cur ∈ e.analysis.deps → e.name ∈ s'.1
  length : s'.2.length + s.1.length ≤ s.2.length + s'.1.length

namespace Spread

variable {es es' : List (Entry σ ε)} {s s' s'' : List String × List String}

theorem refl (cur : String) (s : List String × List String) :
    Spread cur ([] : List (Entry σ ε)) s s :=
  { nodup := id
    doomed := fun _ h => h
    queued := fun _ h => h
    from_entry := fun _ h => Or.inl h
    waits := fun _ h => Or.inl h
    fresh := fun _ h => Or.inl h
    reached := nofun
    length := by omega }

theorem trans (h : Spread cur es s s') (h' : Spread cur es' s' s'') :
    Spread cur (es ++ es') s s'' := by
  refine ⟨fun hs => h'.nodup (h.nodup hs), fun n hn => h'.doomed n (h.doomed n hn),
    fun n hn => h'.queued n (h.queued n hn), ?_, ?_, ?_, ?_, ?_⟩
  · intro n hn
    rcases h'.from_entry n hn with hs' | ⟨e, he, hname⟩
    · rcases h.from_entry n hs' with hs | ⟨e, he, hname⟩
      · exact Or.inl hs
      · exact Or.inr ⟨e, List.mem_append_left _ he, hname⟩
    · exact Or.inr ⟨e, List.mem_append_right _ he, hname⟩
  · intro n hn
    rcases h'.waits n hn with hs' | ⟨e, he, hname⟩
    · rcases h.waits n hs' with hs | ⟨e, he, hname⟩
      · exact Or.inl hs
      · exact Or.inr ⟨e, List.mem_append_left _ he, hname⟩
    · exact Or.inr ⟨e, List.mem_append_right _ he, hname⟩
  · intro n hn
    rcases h'.fresh n hn with hs' | hrest
    · rcases h.fresh n hs' with hs | hcur | hq
      · exact Or.inl hs
      · exact Or.inr (Or.inl hcur)
      · exact Or.inr (Or.inr (h'.queued n hq))
    · exact Or.inr hrest
  · intro e he hneeds
    rcases List.mem_append.mp he with hes | hes'
    · exact h'.doomed _ (h.reached e hes hneeds)
    · exact h'.reached e hes' hneeds
  · have hle := h.length
    have hle' := h'.length
    omega

end Spread

/-- What an entry does. It is doomed for its own name or for a dependency, and queued in the second
case only. -/
theorem doomEntry_cases (cur : String) (s : List String × List String) (e : Entry σ ε) :
    (doomEntry cur s e = s ∧ (e.name = cur ∨ cur ∈ e.analysis.deps → e.name ∈ s.1)) ∨
      e.name ∉ s.1 ∧
        (e.name = cur ∧ doomEntry cur s e = (s.1 ++ [e.name], s.2) ∨
          cur ∈ e.analysis.deps ∧ doomEntry cur s e = (s.1 ++ [e.name], e.name :: s.2)) := by
  by_cases hdoomed : e.name ∈ s.1
  · exact Or.inl ⟨by simp [doomEntry, hdoomed], fun _ => hdoomed⟩
  · by_cases hname : e.name = cur
    · -- `cur` itself is not queued again
      refine Or.inr ⟨hdoomed, Or.inl ⟨hname, ?_⟩⟩
      subst hname
      simp [doomEntry, hdoomed]
    · by_cases hneeds : cur ∈ e.analysis.deps
      · exact Or.inr ⟨hdoomed, Or.inr ⟨hneeds, by simp [doomEntry, hname, hneeds, hdoomed]⟩⟩
      · refine Or.inl ⟨by simp [doomEntry, hname, hneeds], ?_⟩
        rintro (hself | hdep)
        · exact absurd hself hname
        · exact absurd hdep hneeds

theorem spread_doomEntry (cur : String) (s : List String × List String) (e : Entry σ ε) :
    Spread cur [e] s (doomEntry cur s e) := by
  rcases doomEntry_cases cur s e with ⟨hsame, hdoomed⟩ | ⟨hnot, hcases⟩
  · rw [hsame]
    refine ⟨id, fun _ h => h, fun _ h => h, fun _ h => Or.inl h, fun _ h => Or.inl h,
      fun _ h => Or.inl h, fun e' he' hor => ?_, by omega⟩
    rw [List.mem_singleton.mp he'] at hor ⊢
    exact hdoomed hor
  · obtain ⟨queue, hentry, hqueue⟩ : ∃ queue, doomEntry cur s e = (s.1 ++ [e.name], queue) ∧
        (e.name = cur ∧ queue = s.2 ∨ cur ∈ e.analysis.deps ∧ queue = e.name :: s.2) := by
      rcases hcases with ⟨hname, hentry⟩ | ⟨hneeds, hentry⟩
      · exact ⟨_, hentry, Or.inl ⟨hname, rfl⟩⟩
      · exact ⟨_, hentry, Or.inr ⟨hneeds, rfl⟩⟩
    have hmem : ∀ n, n ∈ s.1 ++ [e.name] → n ∈ s.1 ∨ n = e.name := by
      intro n hn
      rwa [List.mem_append, List.mem_singleton] at hn
    rw [hentry]
    refine ⟨fun hnodup => ?_, fun n hn => List.mem_append_left _ hn, ?_, ?_, ?_, ?_, ?_, ?_⟩
    · -- it was not there
      refine List.nodup_append.mpr ⟨hnodup, List.nodup_singleton _, ?_⟩
      rintro a ha b hb rfl
      exact hnot (List.mem_singleton.mp hb ▸ ha)
    · intro n hn
      rcases hqueue with ⟨-, rfl⟩ | ⟨-, rfl⟩
      · exact hn
      · exact List.mem_cons_of_mem _ hn
    · intro n hn
      rcases hmem n hn with hold | rfl
      · exact Or.inl hold
      · refine Or.inr ⟨e, List.mem_singleton_self e, rfl, ?_⟩
        rcases hqueue with ⟨hname, -⟩ | ⟨hneeds, -⟩
        · exact Or.inl hname
        · exact Or.inr hneeds
    · intro n hn
      rcases hqueue with ⟨-, rfl⟩ | ⟨hneeds, rfl⟩
      · exact Or.inl hn
      · rcases List.mem_cons.mp hn with rfl | hold
        · exact Or.inr ⟨e, List.mem_singleton_self e, rfl, hneeds⟩
        · exact Or.inl hold
    · intro n hn
      rcases hmem n hn with hold | rfl
      · exact Or.inl hold
      · rcases hqueue with ⟨hname, -⟩ | ⟨-, rfl⟩
        · exact Or.inr (Or.inl hname)
        · exact Or.inr (Or.inr List.mem_cons_self)
    · intro e' he' _
      rw [List.mem_singleton.mp he']
      exact List.mem_append_right _ (List.mem_singleton_self _)
    · -- a name that is queued is one that is doomed
      rw [List.length_append, List.length_singleton]
      rcases hqueue with ⟨-, rfl⟩ | ⟨-, rfl⟩
      · dsimp only
        omega
      · rw [List.length_cons]
        omega

theorem spread_foldl (cur : String) (es : List (Entry σ ε)) (s : List String × List String) :
    Spread cur es s (es.foldl (doomEntry cur) s) := by
  induction es generalizing s with
  | nil => exact Spread.refl cur s
  | cons e es ih => exact (spread_doomEntry cur s e).trans (ih _)

/-- One turn of the loop of `reset`, on the names doomed so far and the queue. -/
def doomTurn (r : Registry σ ε) : List String × List String →
    Turn (List String × List String) (List String)
  | (doomed, []) => .leave doomed
  | (doomed, cur :: queue) => .again (r.entries.foldl (doomEntry cur) (doomed, queue))

/-- `doomLoop` goes on for as long as the loop does. -/
theorem doomLoop_of_loop {turns fuel : ℕ} {s : List String × List String} {doomed : List String}
    (h : loop r.doomTurn turns s = some doomed) (hfuel : turns ≤ fuel + 1) :
    r.doomLoop fuel s.2 s.1 = doomed := by
  induction turns generalizing fuel s with
  | zero => cases h
  | succ turns ih =>
    obtain ⟨doomed', queue⟩ := s
    cases queue with
    | nil =>
      rw [loop_leave (show r.doomTurn (doomed', []) = .leave doomed' from rfl)] at h
      cases h
      cases fuel <;> rfl
    | cons cur queue =>
      have hturn : r.doomTurn (doomed', cur :: queue) =
          .again (r.entries.foldl (doomEntry cur) (doomed', queue)) := rfl
      rw [loop_again hturn] at h
      cases fuel with
      -- no turn is left, and the loop has not ended
      | zero =>
        obtain rfl : turns = 0 := by omega
        cases h
      | succ fuel =>
        rw [doomLoop]
        exact ih h (by omega)

/-! ## All the turns -/

/-- What is true of the doomed names and the queue. A name that has left the queue has doomed its
own analysis and all that depend on it. -/
structure Dooming (r : Registry σ ε) (name : String) (s : List String × List String) : Prop where
  nodup : s.1.Nodup
  named : ∀ n ∈ s.1, n ∈ r.names
  reaches : ∀ n ∈ s.1, r.Reaches n name
  waits : ∀ n ∈ s.2, r.Reaches n name
  closed : ∀ n, n ∈ s.1 ∨ n = name → n ∉ s.2 → ∀ e ∈ r.entries,
    e.name = n ∨ n ∈ e.analysis.deps → e.name ∈ s.1

namespace Dooming

theorem start (r : Registry σ ε) (name : String) : Dooming r name ([], [name]) where
  nodup := List.nodup_nil
  named := nofun
  reaches := nofun
  waits := fun _ hn => Or.inl (List.mem_singleton.mp hn)
  closed := by
    rintro n (hn | rfl) hnot
    · exact absurd hn List.not_mem_nil
    · exact absurd (List.mem_singleton_self n) hnot

theorem turn {s s' : List String × List String} (h : Dooming r name s)
    (hturn : r.doomTurn s = .again s') :
    Dooming r name s' ∧
      s'.2.length + (r.names.length - s'.1.length) <
        s.2.length + (r.names.length - s.1.length) := by
  obtain ⟨doomed, queue⟩ := s
  cases queue with
  | nil => cases hturn
  | cons cur queue =>
    obtain rfl : r.entries.foldl (doomEntry cur) (doomed, queue) = s' := Turn.again.inj hturn
    have hspread := spread_foldl cur r.entries (doomed, queue)
    generalize r.entries.foldl (doomEntry cur) (doomed, queue) = s' at hspread ⊢
    have hcur : r.Reaches cur name := h.waits cur List.mem_cons_self
    have hnext : Dooming r name s' := by
      refine ⟨hspread.nodup h.nodup, ?_, ?_, ?_, ?_⟩
      · intro n hn
        rcases hspread.from_entry n hn with hold | ⟨e, he, rfl, -⟩
        · exact h.named n hold
        · exact List.mem_map_of_mem he
      · intro n hn
        rcases hspread.from_entry n hn with hold | ⟨e, he, rfl, hor⟩
        · exact h.reaches n hold
        · rcases hor with hself | hneeds
          · exact hself ▸ hcur
          · exact Reaches.of_needs ⟨e, he, rfl, hneeds⟩ hcur
      · intro n hn
        rcases hspread.waits n hn with hold | ⟨e, he, rfl, hneeds⟩
        · exact h.waits n (List.mem_cons_of_mem _ hold)
        · exact Reaches.of_needs ⟨e, he, rfl, hneeds⟩ hcur
      · intro n hn hnot e he hor
        by_cases hncur : n = cur
        · exact hspread.reached e he (hncur ▸ hor)
        · -- it left the queue in an earlier turn
          have hold : n ∈ doomed ∨ n = name := by
            rcases hn with hn | hn
            · rcases hspread.fresh n hn with hold | hcur' | hq
              · exact Or.inl hold
              · exact absurd hcur' hncur
              · exact absurd hq hnot
            · exact Or.inr hn
          have hgone : n ∉ cur :: queue := by
            intro hmem
            rcases List.mem_cons.mp hmem with hcur' | hq
            · exact hncur hcur'
            · exact hnot (hspread.queued n hq)
          exact hspread.doomed _ (h.closed n hold hgone e he hor)
    refine ⟨hnext, ?_⟩
    -- each turn takes a name off, and those it puts on are doomed for good
    have hle : s'.1.length ≤ r.names.length := (hnext.nodup.subperm hnext.named).length_le
    have hlength := hspread.length
    simp only [List.length_cons] at hlength ⊢
    omega

/-- Where the queue is empty, the doomed names are all that reach `name`. -/
theorem mem_iff {doomed : List String} (h : Dooming r name (doomed, [])) (hname : name ∈ r.names)
    {n : String} : n ∈ doomed ↔ r.Reaches n name := by
  -- the name itself has left the queue
  have hself : name ∈ doomed := by
    obtain ⟨e, he, hname'⟩ := List.mem_map.mp hname
    exact hname' ▸ h.closed name (Or.inr rfl) List.not_mem_nil e he (Or.inl hname')
  have hstep : ∀ a b, r.Needs a b → b ∈ doomed → a ∈ doomed := by
    rintro a b ⟨e, he, rfl, hdep⟩ hb
    exact h.closed b (Or.inl hb) List.not_mem_nil e he (Or.inr hdep)
  refine ⟨h.reaches n, ?_⟩
  rintro (rfl | hn)
  · exact hself
  · induction hn using TransGen.head_induction_on with
    | single hab => exact hstep _ _ hab hself
    | head hab _ ih => exact hstep _ _ hab ih

end Dooming

/-- The loop comes to its end, and within the turns that `doomed` gives it. -/
theorem loop_doomed (r : Registry σ ε) (name : String) {turns : ℕ}
    (hturns : r.entries.length + 1 < turns) :
    loop r.doomTurn turns ([], [name]) = some (r.doomed name) := by
  obtain ⟨doomed, hdoomed⟩ : ∃ doomed,
      loop r.doomTurn (r.entries.length + 2) ([], [name]) = some doomed := by
    refine loop_ends_within (fun s => s.2.length + (r.names.length - s.1.length))
      (fun s s' hs hbody => hs.turn hbody) (Dooming.start r name) ?_
    simp only [names, List.length_map, List.length_cons, List.length_nil]
    omega
  have heq : r.doomed name = doomed := doomLoop_of_loop hdoomed (by omega)
  rw [heq]
  exact loop_more hdoomed (by omega)

theorem dooming_doomed (r : Registry σ ε) (name : String) : Dooming r name (r.doomed name, []) := by
  have hagain (s s' : List String × List String) (hs : Dooming r name s)
      (hbody : r.doomTurn s = .again s') : Dooming r name s' := (hs.turn hbody).1
  have hleave (s : List String × List String) (doomed : List String) (hs : Dooming r name s)
      (hbody : r.doomTurn s = .leave doomed) : Dooming r name (doomed, []) := by
    obtain ⟨doomed, queue⟩ := s
    cases queue with
    | nil =>
      cases hbody
      exact hs
    | cons cur queue => cases hbody
  exact loop_rule hagain hleave (Dooming.start r name) (loop_doomed r name (Nat.lt_succ_self _))

/-- **What a reset does.** With a name that no analysis has, nothing. Otherwise the loop comes to an
end; the names given back are those of the analyses that reach the name, in order and each of them
once; these analyses are as new, and the others as they were. -/
theorem reset_cascades (r : Registry σ ε) (name : String) :
    (name ∉ r.names → r.reset name = none) ∧
      (name ∈ r.names → ∃ r' gone, r.reset name = some (r', gone) ∧
        (∀ turns, r.entries.length + 1 < turns →
          loop r.doomTurn turns ([], [name]) = some (r.doomed name)) ∧
        (∀ n, n ∈ gone ↔ r.Reaches n name) ∧
        gone.Pairwise (· < ·) ∧
        r'.entries.length = r.entries.length ∧
        ∀ (i : ℕ) (e : Entry σ ε), r.entries[i]? = some e →
          (r.Reaches e.name name → r'.entries[i]? = some (Entry.new e.analysis)) ∧
          (¬ r.Reaches e.name name → r'.entries[i]? = some e)) := by
  refine ⟨fun hname => if_neg hname, fun hname => ?_⟩
  have hdooming := dooming_doomed r name
  refine ⟨_, _, if_pos hname, fun turns hturns => loop_doomed r name hturns, ?_, ?_, ?_, ?_⟩
  · intro n
    rw [List.mem_mergeSort, hdooming.mem_iff hname]
  · have hsorted := List.pairwise_mergeSort' (· ≤ ·) (r.doomed name)
    have hnodup : ((r.doomed name).mergeSort (· ≤ ·)).Nodup :=
      (List.mergeSort_perm _ _).nodup_iff.mpr hdooming.nodup
    exact (hsorted.and hnodup).imp fun h => Std.lt_of_le_of_ne h.1 h.2
  · rw [resetWhere, List.length_map]
  · intro i e he
    have hget : (r.resetWhere fun e => decide (e.name ∈ r.doomed name)).entries[i]? =
        some (if e.name ∈ r.doomed name then e.reset else e) := by
      rw [resetWhere, List.getElem?_map, he, Option.map_some]
      simp only [decide_eq_true_eq]
    rw [hget, ← hdooming.mem_iff hname]
    exact ⟨fun h => by rw [if_pos h, Entry.reset], fun h => by rw [if_neg h]⟩

end NostrSearch.Stats.Registry
