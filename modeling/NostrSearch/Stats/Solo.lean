import NostrSearch.Lib.Run
import NostrSearch.Stats.Restoring

/-!
# One analysis on its own

A registry of one analysis, and the node that runs it through its life: events are observed, the
registry is persisted, the process dies and comes back with the last checkpoint and the external
store as it was. A checkpoint may be lost, become unreadable, or be from another epoch.

`Runs a n s` says that the node runs the analysis `a` in state `s`; there is one lemma for what
each step makes of `s` and of the store.
-/

namespace NostrSearch.Stats

open NostrSearch.Core NostrSearch.Lib

variable {σ ε : Type}

/-- Call `observe` of entry `i`. -/
def Registry.handAt {σ ε : Type} (r : Registry σ ε) (i : ℕ) (ev : NostrEvent)
    (ctx : AnalysisCtx) : Registry σ ε :=
  match r.entries[i]? with
  | none => r
  | some e =>
    let h := e.hand r.ext ev ctx
    { r with entries := r.entries.set i h.1, ext := h.2 }

/-! ## Registries with one entry -/

section Single

variable {r : Registry σ ε} {e : Entry σ ε} {a : DynAnalysis σ ε}

theorem Registry.handAt_single (he : r.entries = [e]) (ev : NostrEvent) (ctx : AnalysisCtx) :
    r.handAt 0 ev ctx =
      { r with entries := [(e.hand r.ext ev ctx).1], ext := (e.hand r.ext ev ctx).2 } := by
  simp [Registry.handAt, he]

theorem Registry.persist_single (he : r.entries = [e]) (store : StatStore σ) :
    r.persist store e.name = some e.saved := by
  rw [Registry.persist, he, List.foldl_cons, List.foldl_nil, Function.update_self]

theorem Registry.reset_single (he : r.entries = [e]) (hdeps : e.analysis.deps = []) :
    ∃ names, r.reset e.name =
      some ({ r with entries := [e.reset], ext := e.analysis.onReset e.state r.ext }, names) := by
  have hdoomed : r.doomed e.name = [e.name] := by
    unfold Registry.doomed
    simp [Registry.doomLoop, Registry.doomEntry, he, hdeps]
  refine ⟨[e.name].mergeSort (· ≤ ·), ?_⟩
  unfold Registry.reset
  rw [if_pos (by simp [Registry.names, he])]
  simp only [Registry.resetWhere, he, hdoomed, List.map_cons, List.map_nil, List.foldl_cons,
    List.foldl_nil, List.mem_singleton, decide_true, if_true]

/-- The state `load` takes from a checkpoint, if it can use it. -/
def usable (a : DynAnalysis σ ε) (sv : Option (Saved σ)) : Option σ :=
  sv.bind fun s => if s.progress.epoch = a.epoch then s.state else none

/-- A new entry after `load`. -/
theorem Entry.load_new (a : DynAnalysis σ ε) (now : ℕ) (sv : Option (Saved σ)) :
    ((Entry.new a).load now sv).state = (usable a sv).getD a.default ∧
      ((Entry.new a).load now sv).progress.epoch = a.epoch := by
  cases sv with
  | none => exact ⟨rfl, rfl⟩
  | some s =>
    unfold Entry.load usable
    rw [Option.bind_some]
    dsimp only
    by_cases hepoch : s.progress.epoch = a.epoch
    · have hepoch' : s.progress.epoch = (Entry.new a).analysis.epoch := hepoch
      rw [if_pos hepoch', if_pos hepoch]
      cases s.state with
      | none => exact ⟨rfl, rfl⟩
      | some st =>
        refine ⟨rfl, ?_⟩
        show (s.progress.clampWatermark _).epoch = _
        unfold Progress.clampWatermark
        split <;> exact hepoch
    · have hepoch' : ¬ s.progress.epoch = (Entry.new a).analysis.epoch := hepoch
      rw [if_neg hepoch', if_neg hepoch]
      exact ⟨rfl, rfl⟩

end Single

/-! ## Its life -/

/-- A process that runs one analysis, with its checkpoints. `atPersist` is a history variable:
the external store as it was when the checkpoint was last written. -/
structure Solo (σ ε : Type) where
  reg : Registry σ ε
  store : StatStore σ
  atPersist : ε

inductive SoloAction
  | observe (ev : NostrEvent) (ctx : AnalysisCtx)
  | persist
  /-- the process dies, and comes back from its checkpoint at this wall clock -/
  | restart (now : ℕ)
  /-- the checkpoint is lost -/
  | lose
  /-- the saved state does not deserialize any more -/
  | unreadable
  /-- the checkpoint belongs to this epoch -/
  | otherEpoch (epoch : ℕ)
  | attach
  | reset

namespace Solo

/-- Before anything was stored. -/
def fresh (a : DynAnalysis σ ε) (ext : ε) : Solo σ ε :=
  { reg := Registry.ofAnalyses [a] ext, store := fun _ => none, atPersist := ext }

def step (a : DynAnalysis σ ε) (n : Solo σ ε) : SoloAction → Option (Solo σ ε)
  | .observe ev ctx => some { n with reg := n.reg.handAt 0 ev ctx }
  | .persist => some { n with store := n.reg.persist n.store, atPersist := n.reg.ext }
  | .restart now => some { n with reg := (Registry.ofAnalyses [a] n.reg.ext).load now n.store }
  | .lose => some { n with store := fun _ => none }
  | .unreadable =>
    some { n with store := fun name => (n.store name).map fun sv => { sv with state := none } }
  | .otherEpoch epoch =>
    some { n with
      store := fun name => (n.store name).map fun sv =>
        { sv with progress := { sv.progress with epoch := epoch } } }
  | .attach => some { n with reg := n.reg.attachAll }
  | .reset => (n.reg.reset a.name).map fun r => { n with reg := r.1 }

/-- The node runs `a` in state `s`. -/
def Runs (a : DynAnalysis σ ε) (n : Solo σ ε) (s : σ) : Prop :=
  ∃ e, n.reg.entries = [e] ∧ e.analysis = a ∧ e.progress.epoch = a.epoch ∧ e.state = s

variable {a : DynAnalysis σ ε} {n n' : Solo σ ε} {s : σ}

theorem Runs.eq_of_mem (h : Runs a n s) {e : Entry σ ε} (he : e ∈ n.reg.entries) : e.state = s := by
  obtain ⟨e', he', -, -, hs⟩ := h
  rw [he', List.mem_singleton] at he
  rw [he, hs]

theorem runs_fresh (a : DynAnalysis σ ε) (ext : ε) : Runs a (fresh a ext) a.default :=
  ⟨Entry.new a, rfl, rfl, rfl, rfl⟩

theorem Runs.observe (h : Runs a n s) {ev : NostrEvent} {ctx : AnalysisCtx}
    (hstep : n.step a (.observe ev ctx) = some n') :
    Runs a n' (a.observe ev ctx n.reg.ext s).1 ∧ n'.reg.ext = (a.observe ev ctx n.reg.ext s).2.1 ∧
      n'.store = n.store ∧ n'.atPersist = n.atPersist := by
  obtain ⟨e, he, rfl, hepoch, rfl⟩ := h
  cases hstep
  rw [Registry.handAt_single he]
  exact ⟨⟨_, rfl, rfl, hepoch, rfl⟩, rfl, rfl, rfl⟩

theorem Runs.persist (h : Runs a n s) (hstep : n.step a .persist = some n') :
    Runs a n' s ∧ n'.reg.ext = n.reg.ext ∧ n'.atPersist = n.reg.ext ∧
      ∃ sv, n'.store a.name = some sv ∧ sv.state = some (a.restored s) := by
  obtain ⟨e, he, rfl, hepoch, rfl⟩ := h
  cases hstep
  exact ⟨⟨e, he, rfl, hepoch, rfl⟩, rfl, rfl, e.saved, Registry.persist_single he n.store, rfl⟩

theorem runs_restart {now : ℕ} (hstep : n.step a (.restart now) = some n') :
    Runs a n' (a.attach n.reg.ext ((usable a (n.store a.name)).getD a.default)) ∧
      n'.reg.ext = n.reg.ext ∧ n'.store = n.store ∧ n'.atPersist = n.atPersist := by
  cases hstep
  obtain ⟨hstate, hepoch⟩ := Entry.load_new a now (n.store a.name)
  have hanalysis := Entry.analysis_load (Entry.new a) now (n.store a.name)
  refine ⟨⟨_, rfl, hanalysis, hepoch, ?_⟩, rfl, rfl, rfl⟩
  show ((Entry.new a).load now (n.store a.name)).analysis.attach n.reg.ext
    ((Entry.new a).load now (n.store a.name)).state = _
  rw [hanalysis, hstate]
  rfl

theorem Runs.attach (h : Runs a n s) (hstep : n.step a .attach = some n') :
    Runs a n' (a.attach n.reg.ext s) ∧ n'.reg.ext = n.reg.ext ∧ n'.store = n.store ∧
      n'.atPersist = n.atPersist := by
  obtain ⟨e, he, rfl, hepoch, rfl⟩ := h
  cases hstep
  refine ⟨⟨{ e with state := e.analysis.attach n.reg.ext e.state }, ?_, rfl, hepoch, rfl⟩, rfl,
    rfl, rfl⟩
  rw [Registry.attachAll, he]
  rfl

theorem Runs.reset (h : Runs a n s) (hdeps : a.deps = []) (hstep : n.step a .reset = some n') :
    Runs a n' a.default ∧ n'.reg.ext = a.onReset s n.reg.ext ∧ n'.store = n.store ∧
      n'.atPersist = n.atPersist := by
  obtain ⟨e, he, rfl, hepoch, rfl⟩ := h
  obtain ⟨names, hreset⟩ := Registry.reset_single he hdeps
  have hname : e.analysis.name = e.name := rfl
  rw [step, hname, hreset, Option.map_some, Option.some.injEq] at hstep
  subst hstep
  exact ⟨⟨e.reset, rfl, rfl, rfl, rfl⟩, rfl, rfl, rfl⟩

end Solo

end NostrSearch.Stats
