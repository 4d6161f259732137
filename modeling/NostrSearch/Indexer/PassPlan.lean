import NostrSearch.Indexer.Pipeline
import NostrSearch.Stats.Stages

/-!
# The plan of a replay

`planReplay` puts an analysis that is still to be derived in the pass behind the last of its
dependencies that is still to be derived itself; the others can go anywhere, as they are not
derived. `planned_passOf` says so of the plan it makes. It computes the passes in the order
of the dependency stages, in which an analysis comes after all of its dependencies, so that
what it reads of the passes is final (`passOf_eq`).
-/

namespace NostrSearch.Indexer.Pipeline

open NostrSearch.Core NostrSearch.Stats NostrSearch.Indexer

variable {σ ε : Type} {r : Registry σ ε}

/-- `passOf` says which pass an entry is in. Of the entries still to be derived, each is in the
plan in its pass and in no other, and its pass is the first behind those of its dependencies
that are still to be derived. -/
structure Planned (r : Registry σ ε) (plan : List (List ℕ)) (passOf : ℕ → ℕ) : Prop where
  lt_length : ∀ i, r.pending i = true → passOf i < plan.length
  mem_iff : ∀ i, r.pending i = true → ∀ k, k < plan.length → (i ∈ plan.getD k [] ↔ passOf i = k)
  covers : ∀ i, i < r.entries.length → ∃ k, k < plan.length ∧ i ∈ plan.getD k []
  nodup : ∀ k, (plan.getD k []).Nodup
  dep_lt : ∀ i e, r.entries[i]? = some e → ∀ d e', r.entries[d]? = some e' →
    e'.name ∈ e.analysis.deps → r.pending d = true → passOf d < passOf i
  behind : ∀ i, 0 < passOf i → ∃ e d e', r.entries[i]? = some e ∧ r.entries[d]? = some e' ∧
    e'.name ∈ e.analysis.deps ∧ r.pending d = true ∧ passOf d + 1 = passOf i

theorem indexOf_some {name : String} {d : ℕ} (h : r.indexOf name = some d) :
    ∃ e, r.entries[d]? = some e ∧ e.name = name := by
  rw [Registry.indexOf, List.findIdx?_eq_some_iff_getElem] at h
  obtain ⟨hd, hname, -⟩ := h
  exact ⟨r.entries[d], List.getElem?_eq_getElem hd, of_decide_eq_true hname⟩

theorem indexOf_of_name (hnames : r.names.Nodup) {d : ℕ} {e : Entry σ ε}
    (he : r.entries[d]? = some e) : r.indexOf e.name = some d := by
  cases h : r.indexOf e.name with
  | none =>
    rw [Registry.indexOf, List.findIdx?_eq_none_iff] at h
    have hself := h e (List.mem_of_getElem? he)
    simp at hself
  | some d' =>
    obtain ⟨e', he', hname⟩ := indexOf_some h
    rw [Registry.eq_of_name hnames he' he hname]

section computed

variable {f : List ℕ → ℕ → ℕ}

theorem length_foldl_set (l acc : List ℕ) :
    (l.foldl (fun acc i => acc.set i (f acc i)) acc).length = acc.length := by
  induction l generalizing acc with
  | nil => rfl
  | cons i l ih => rw [List.foldl_cons, ih, List.length_set]

/-- Indices computed in an order in which each reads only earlier ones satisfy the equations they
were computed by. -/
theorem foldl_set_eq {reads : ℕ → ℕ → Prop}
    (hf : ∀ acc acc' i, (∀ d, reads i d → acc.getD d 0 = acc'.getD d 0) → f acc i = f acc' i)
    {l : List ℕ} {acc : List ℕ} (hnodup : l.Nodup) (hlt : ∀ i ∈ l, i < acc.length)
    (hreads : ∀ l₁ i l₂, l = l₁ ++ i :: l₂ → ∀ d, reads i d → d ∈ l₁) :
    ∀ i ∈ l, (l.foldl (fun acc i => acc.set i (f acc i)) acc).getD i 0 =
      f (l.foldl (fun acc i => acc.set i (f acc i)) acc) i := by
  induction l using List.reverseRecOn with
  | nil => exact fun i hi => absurd hi List.not_mem_nil
  | append_singleton l j ih =>
    obtain ⟨hnodup', -, hdisj⟩ := List.nodup_append.mp hnodup
    -- `j` comes last, and is set this once
    have hj : j ∉ l := fun h => hdisj j h j List.mem_cons_self rfl
    have heq := ih hnodup' (fun i hi => hlt i (List.mem_append_left _ hi)) <| by
      intro l₁ i l₂ hl d hd
      exact hreads l₁ i (l₂ ++ [j]) (by rw [hl]; simp) d hd
    have hjlt : j < (l.foldl (fun acc i => acc.set i (f acc i)) acc).length := by
      rw [length_foldl_set]
      exact hlt j (List.mem_append_right _ List.mem_cons_self)
    rw [List.foldl_append, List.foldl_cons, List.foldl_nil]
    generalize l.foldl (fun acc i => acc.set i (f acc i)) acc = res at *
    -- nothing that is read is changed by the last turn
    have hkeep : ∀ i ∈ l ++ [j], ∀ d, reads i d → (res.set j (f res j)).getD d 0 = res.getD d 0 := by
      intro i hi d hd
      have hdl : d ∈ l := by
        rcases List.mem_append.mp hi with hil | hij
        · obtain ⟨l₁, l₂, rfl⟩ := List.append_of_mem hil
          have hmem := hreads l₁ i (l₂ ++ [j]) (by simp) d hd
          exact List.mem_append_left _ hmem
        · rw [List.mem_singleton.mp hij] at hd
          exact hreads l j [] rfl d hd
      have hne : j ≠ d := by
        rintro rfl
        exact hj hdl
      rw [List.getD_eq_getElem?_getD, List.getElem?_set_ne hne, List.getD_eq_getElem?_getD]
    intro i hi
    rw [hf _ res i (hkeep i hi)]
    rcases List.mem_append.mp hi with hil | hij
    · have hne : j ≠ i := by
        rintro rfl
        exact hj hil
      rw [List.getD_eq_getElem?_getD, List.getElem?_set_ne hne, ← List.getD_eq_getElem?_getD]
      exact heq i hil
    · rw [List.mem_singleton.mp hij, List.getD_eq_getElem?_getD, List.getElem?_set_self hjlt,
        Option.getD_some]

end computed

section Staged

variable {stages : List (List ℕ)} {stageOf : ℕ → ℕ}

theorem length_passOf (r : Registry σ ε) (stages : List (List ℕ)) :
    (passOf r stages).length = r.entries.length := by
  rw [passOf, length_foldl_set, List.length_replicate]

/-- The passes satisfy the equations they were computed by. -/
theorem passOf_eq (hnames : r.names.Nodup) (h : Registry.Staged r stages stageOf) {i : ℕ}
    (hi : i < r.entries.length) :
    (passOf r stages).getD i 0 = passAfterDeps r (passOf r stages) i := by
  have hpairwise := h.pairwise_flatten
  let reads : ℕ → ℕ → Prop := fun i d =>
    ∃ e, r.entries[i]? = some e ∧ ∃ dep ∈ e.analysis.deps, r.indexOf dep = some d
  have hf : ∀ acc acc' i, (∀ d, reads i d → acc.getD d 0 = acc'.getD d 0) →
      passAfterDeps r acc i = passAfterDeps r acc' i := by
    intro acc acc' i hreads
    unfold passAfterDeps
    cases he : r.entries[i]? with
    | none => rfl
    | some e =>
      have hmap : ∀ d ∈ (e.analysis.deps.filterMap r.indexOf).filter r.pending,
          acc.getD d 0 + 1 = acc'.getD d 0 + 1 := by
        intro d hd
        obtain ⟨dep, hdep, hidx⟩ := List.mem_filterMap.mp (List.mem_filter.mp hd).1
        rw [hreads d ⟨e, he, dep, hdep, hidx⟩]
      simp only [List.map_congr_left hmap]
  refine foldl_set_eq hf h.nodup_flatten ?_ ?_ i (h.mem_flatten.mpr hi)
  · intro j hj
    rw [List.length_replicate]
    exact h.mem_flatten.mp hj
  · -- a dependency stands earlier than what depends on it
    rintro l₁ j l₂ hl d ⟨e, he, dep, hdep, hidx⟩
    obtain ⟨d', e', he', hname, hlt⟩ := h.deps j e he dep hdep
    obtain ⟨e'', he'', hname'⟩ := indexOf_some hidx
    have hd : d' = d := Registry.eq_of_name hnames he' he'' (hname.trans hname'.symm)
    subst hd
    have hmem : d' ∈ stages.flatten :=
      h.mem_flatten.mpr (List.getElem?_eq_some_iff.mp he').1
    rw [hl] at hmem hpairwise
    rcases List.mem_append.mp hmem with hl₁ | hrest
    · exact hl₁
    · exfalso
      rcases List.mem_cons.mp hrest with rfl | hl₂
      · omega
      · have hle := (List.rel_of_pairwise_cons (List.pairwise_append.mp hpairwise).2.1 hl₂).1
        omega

end Staged

theorem lt_of_pending {i : ℕ} (hi : r.pending i = true) : i < r.entries.length := by
  by_contra hge
  rw [Registry.pending, List.getElem?_eq_none (Nat.le_of_not_lt hge)] at hi
  cases hi

/-- What `passCount` counts. -/
theorem lt_passCount (passOf : List ℕ) {i : ℕ} (hi : r.pending i = true) :
    passOf.getD i 0 < passCount r passOf := by
  have hlt : i < r.entries.length := lt_of_pending hi
  have hmem : passOf.getD i 0 + 1 ∈
      (r.all.filter r.pending).map fun i => passOf.getD i 0 + 1 :=
    List.mem_map.mpr ⟨i, List.mem_filter.mpr ⟨List.mem_range.mpr hlt, hi⟩, rfl⟩
  unfold passCount
  split
  case h_1 hnil =>
    rw [hnil] at hmem
    exact absurd hmem List.not_mem_nil
  case h_2 n ns hcons =>
    rw [hcons] at hmem
    rcases List.mem_cons.mp hmem with hn | hns
    · exact le_foldl_max (Or.inl (le_of_eq hn))
    · exact le_foldl_max (Or.inr hns)

theorem passCount_pos (r : Registry σ ε) (passOf : List ℕ) : 0 < passCount r passOf := by
  unfold passCount
  split
  · exact Nat.one_pos
  case h_2 n ns hcons =>
    have hmem : n ∈ (r.all.filter r.pending).map fun i => passOf.getD i 0 + 1 := by
      rw [hcons]
      exact List.mem_cons_self
    obtain ⟨i, -, rfl⟩ := List.mem_map.mp hmem
    exact lt_of_lt_of_le (Nat.succ_pos _) (le_foldl_max (Or.inl (le_refl _)))

/-! ## The plan -/

section plan

variable {p : Pipeline σ ε} {stages : List (List ℕ)}

theorem planReplay_stages (hstages : p.registry.stages = .ok stages) :
    (p.planReplay.1).stages =
      (List.range (passCount p.registry (passOf p.registry stages))).map fun k =>
        p.registry.all.filter fun i => min ((passOf p.registry stages).getD i 0)
          (passCount p.registry (passOf p.registry stages) - 1) = k := by
  rw [Pipeline.planReplay, hstages]

theorem length_plan (hstages : p.registry.stages = .ok stages) :
    (p.planReplay.1).stages.length = passCount p.registry (passOf p.registry stages) := by
  rw [planReplay_stages hstages, List.length_map, List.length_range]

theorem getD_plan (hstages : p.registry.stages = .ok stages) {k : ℕ}
    (hk : k < (p.planReplay.1).stages.length) : (p.planReplay.1).stages.getD k [] =
      p.registry.all.filter fun i => min ((passOf p.registry stages).getD i 0)
        (passCount p.registry (passOf p.registry stages) - 1) = k := by
  rw [length_plan hstages] at hk
  rw [planReplay_stages hstages, List.getD_eq_getElem?_getD, List.getElem?_map,
    List.getElem?_range hk, Option.map_some, Option.getD_some]

/-- An entry is in its pass, or in the last one. -/
theorem mem_plan (hstages : p.registry.stages = .ok stages) {i k : ℕ} :
    i ∈ (p.planReplay.1).stages.getD k [] ↔ i < p.registry.entries.length ∧
      min ((passOf p.registry stages).getD i 0)
        (passCount p.registry (passOf p.registry stages) - 1) = k := by
  by_cases hk : k < (p.planReplay.1).stages.length
  · rw [getD_plan hstages hk, List.mem_filter, Registry.all, List.mem_range, decide_eq_true_eq]
  · have hpos := passCount_pos p.registry (passOf p.registry stages)
    rw [List.getD_eq_getElem?_getD, List.getElem?_eq_none (Nat.le_of_not_lt hk), Option.getD_none]
    rw [length_plan hstages] at hk
    refine iff_of_false List.not_mem_nil ?_
    rintro ⟨-, hmin⟩
    omega

theorem mem_plan_pending (hstages : p.registry.stages = .ok stages) {i k : ℕ}
    (hi : p.registry.pending i = true) :
    i ∈ (p.planReplay.1).stages.getD k [] ↔ (passOf p.registry stages).getD i 0 = k := by
  have hlt := lt_of_pending hi
  have hpass := lt_passCount (passOf p.registry stages) hi
  rw [mem_plan hstages]
  omega

theorem nodup_plan (hstages : p.registry.stages = .ok stages) (k : ℕ) :
    ((p.planReplay.1).stages.getD k []).Nodup := by
  by_cases hk : k < (p.planReplay.1).stages.length
  · rw [getD_plan hstages hk]
    exact List.nodup_range.filter _
  · rw [List.getD_eq_getElem?_getD, List.getElem?_eq_none (Nat.le_of_not_lt hk), Option.getD_none]
    exact List.nodup_nil

/-- **The plan of a replay** of a registry whose dependencies are in order. -/
theorem planned_passOf (hstages : p.registry.stages = .ok stages)
    (hnames : p.registry.names.Nodup) :
    Planned p.registry (p.planReplay.1).stages
      fun i => (passOf p.registry stages).getD i 0 := by
  obtain ⟨stageOf, hstaged⟩ := Registry.stages_staged hstages
  have heq : ∀ i, i < p.registry.entries.length → (passOf p.registry stages).getD i 0 =
      passAfterDeps p.registry (passOf p.registry stages) i :=
    fun i hi => passOf_eq hnames hstaged hi
  refine ⟨?_, ?_, ?_, nodup_plan hstages, ?_, ?_⟩
  · intro i hi
    rw [length_plan hstages]
    exact lt_passCount _ hi
  · exact fun i hi k _ => mem_plan_pending hstages hi
  · intro i hi
    have hpos := passCount_pos p.registry (passOf p.registry stages)
    refine ⟨_, ?_, (mem_plan hstages).mpr ⟨hi, rfl⟩⟩
    rw [length_plan hstages]
    omega
  · intro i e he d e' he' hdep hd
    have hi : i < p.registry.entries.length := (List.getElem?_eq_some_iff.mp he).1
    -- the pass of an entry is one behind the greatest of its pending dependencies
    rw [heq i hi, passAfterDeps, he]
    apply le_foldl_max
    right
    refine List.mem_map.mpr ⟨d, List.mem_filter.mpr ⟨?_, hd⟩, rfl⟩
    exact List.mem_filterMap.mpr ⟨e'.name, hdep, indexOf_of_name hnames he'⟩
  · intro i hi
    have hlt : i < p.registry.entries.length := by
      by_contra hge
      rw [List.getD_eq_getElem?_getD, List.getElem?_eq_none, Option.getD_none] at hi
      · exact absurd hi (lt_irrefl 0)
      · rw [length_passOf]
        exact Nat.le_of_not_lt hge
    have he : p.registry.entries[i]? = some p.registry.entries[i] := List.getElem?_eq_getElem hlt
    have hi' := heq i hlt
    rw [passAfterDeps, he] at hi'
    dsimp only at hi'
    -- a maximum above 0 is reached, at some dependency
    rcases foldl_max_mem ((((p.registry.entries[i]).analysis.deps.filterMap
      p.registry.indexOf).filter p.registry.pending).map
        fun d => (passOf p.registry stages).getD d 0 + 1) 0 with hz | hmem
    · omega
    · rw [← hi'] at hmem
      obtain ⟨d, hd, hpass⟩ := List.mem_map.mp hmem
      obtain ⟨hdeps, hpending⟩ := List.mem_filter.mp hd
      obtain ⟨dep, hdep, hidx⟩ := List.mem_filterMap.mp hdeps
      obtain ⟨e', he', hname⟩ := indexOf_some hidx
      exact ⟨_, d, e', he, he', hname ▸ hdep, hpending, hpass⟩

end plan

end NostrSearch.Indexer.Pipeline
