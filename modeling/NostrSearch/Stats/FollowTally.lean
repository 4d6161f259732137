import NostrSearch.Stats.FollowGraph
import NostrSearch.Stats.Solo

/-!
# The tally and the adjacency

The counts of `follow_graph` are checkpointed with the analysis; the contact lists they count
are written through to the graph store. This file runs the two side by side through the life of
a node: lists are observed, the registry is persisted, the process dies and comes back with the
last checkpoint and the store as it was, checkpoints are lost, the analysis is attached and reset.

`tally_iff` says when the counts of an attached analysis are the tally of the store in every
state of such a run. A restart is the only step that can break it: `attach` recounts only when
the restored counts are empty, so a checkpoint that has fallen behind the store is taken as it
is. What is needed is that the store, when a restart takes a checkpoint with counts in it, has
each pubkey as often as it had when that checkpoint was written.
-/

namespace NostrSearch.Stats

open NostrSearch.Core NostrSearch.Lib

/-- A process that runs `follow_graph`, with its checkpoints. `atPersist` is a history variable:
the graph as it was when the checkpoint was last written. -/
structure GraphNode where
  reg : Registry FollowGraph GraphStore
  store : StatStore FollowGraph
  atPersist : GraphStore

inductive NodeAction
  | observe (ev : NostrEvent) (ctx : AnalysisCtx)
  | persist
  /-- the process dies, and comes back from its checkpoint at this wall clock -/
  | restart (now : ℕ)
  /-- the checkpoint is lost -/
  | lose
  | attach
  | reset

namespace GraphNode

/-- Before anything was stored. -/
def fresh : GraphNode :=
  { reg := Registry.ofAnalyses [FollowGraph.analysis] GraphStore.empty
    store := fun _ => none
    atPersist := GraphStore.empty }

def step (n : GraphNode) : NodeAction → Option GraphNode
  | .observe ev ctx => some { n with reg := n.reg.handAt 0 ev ctx }
  | .persist => some { n with store := n.reg.persist n.store, atPersist := n.reg.ext }
  | .restart now =>
    some { n with
      reg := (Registry.ofAnalyses [FollowGraph.analysis] n.reg.ext).load now n.store }
  | .lose => some { n with store := fun _ => none }
  | .attach => some { n with reg := n.reg.attachAll }
  | .reset => (n.reg.reset "follow_graph").map fun r => { n with reg := r.1 }

/-- The counts of an attached analysis are the tally of the store. -/
def Tallied (n : GraphNode) : Prop :=
  ∀ e ∈ n.reg.entries, e.state.attached = true → ∀ p, e.state.count p = n.reg.ext.occurrences p

/-- A restart meets a checkpoint without counts, or a store with the tally it had at the last
`persist`. -/
def UpToDate (n : GraphNode) : NodeAction → Prop
  | .restart _ => ∀ sv, n.store "follow_graph" = some sv → ∀ st, sv.state = some st →
      st.counts = ∅ ∨ ∀ p, n.atPersist.occurrences p = n.reg.ext.occurrences p
  | _ => True

/-- No count overflows its 32 bits. -/
def Fits (n : GraphNode) : Prop := ∀ p, n.reg.ext.occurrences p < 2 ^ 32

/-- Counts that belong to a store: the tally of it when attached, none before. -/
structure Sound (s : FollowGraph) (g : GraphStore) : Prop where
  tally : s.attached = true → ∀ p, s.count p = g.occurrences p
  detached : s.attached = false → s.counts = ∅

/-- What a checkpoint of this analysis can look like. -/
structure SavedSound (sv : Saved FollowGraph) (g : GraphStore) : Prop where
  epoch : sv.progress.epoch = 0
  state : ∀ st, sv.state = some st → st.counts = ∅ ∨ ∀ p, st.count p = g.occurrences p

structure Inv (n : GraphNode) : Prop where
  entry : ∃ e, n.reg.entries = [e] ∧ e.analysis = FollowGraph.analysis ∧
    e.progress.epoch = 0 ∧ Sound e.state n.reg.ext
  saved : ∀ sv, n.store "follow_graph" = some sv → SavedSound sv n.atPersist
  fits : n.Fits

theorem Inv.tallied {n : GraphNode} (h : n.Inv) : n.Tallied := by
  obtain ⟨e, he, -, -, hsound⟩ := h.entry
  intro e' he'
  rw [he, List.mem_singleton] at he'
  rw [he']
  exact hsound.tally

/-! ## The steps, one entry at a time -/

section Steps

variable {g : GraphStore}

/-- Observing keeps counts that belong to the store, while they fit. -/
theorem sound_observe {s : FollowGraph} (ev : NostrEvent) (hs : Sound s g)
    (hfits : ∀ p, g.occurrences p < 2 ^ 32)
    (hfits' : ∀ p, (FollowGraph.observe ev g s).2.1.occurrences p < 2 ^ 32) :
    Sound (FollowGraph.observe ev g s).1 (FollowGraph.observe ev g s).2.1 := by
  rcases FollowGraph.observe_cases ev g s with ⟨author, ⟨-, hatt, -⟩, hobs⟩ | ⟨-, hobs⟩
  · rw [hobs] at hfits' ⊢
    constructor
    · intro _ p
      have hcount := hs.tally hatt p
      have hmod := FollowGraph.count_observe author ev.createdAt (FollowGraph.newFollows ev)
        hcount (hfits p)
      rw [hmod]
      exact Nat.mod_eq_of_lt (hfits' p)
    · intro hdet
      simp [hatt] at hdet
  · rw [hobs]
    exact hs

/-- Attaching counts that are the tally, or none, gives the tally. -/
theorem sound_attach {s : FollowGraph} (hfits : ∀ p, g.occurrences p < 2 ^ 32)
    (hs : s.counts = ∅ ∨ ∀ p, s.count p = g.occurrences p) : Sound (s.attach g) g := by
  constructor
  · intro _ p
    by_cases hempty : s.counts = ∅
    · exact FollowGraph.count_attach_of_empty hempty (hfits p)
    · rw [FollowGraph.attach_of_ne hempty]
      exact hs.resolve_left hempty p
  · intro h
    rw [FollowGraph.attached_attach] at h
    cases h

theorem Sound.empty_or_tally {s : FollowGraph} (hs : Sound s g) :
    s.counts = ∅ ∨ ∀ p, s.count p = g.occurrences p := by
  cases hatt : s.attached with
  | true => exact Or.inr (hs.tally hatt)
  | false => exact Or.inl (hs.detached hatt)

theorem sound_default (g : GraphStore) : Sound FollowGraph.default g := by
  constructor
  · intro h
    cases h
  · intro _
    rfl

end Steps

/-! ## The steps of the node -/

theorem inv_observe {n : GraphNode} (hn : n.Inv) (ev : NostrEvent) (ctx : AnalysisCtx)
    (hfits : ({ n with reg := n.reg.handAt 0 ev ctx } : GraphNode).Fits) :
    ({ n with reg := n.reg.handAt 0 ev ctx } : GraphNode).Inv := by
  obtain ⟨e, he, ha, hepoch, hsound⟩ := hn.entry
  have hhand : (e.hand n.reg.ext ev ctx).1.state = (FollowGraph.observe ev n.reg.ext e.state).1 ∧
      (e.hand n.reg.ext ev ctx).2 = (FollowGraph.observe ev n.reg.ext e.state).2.1 := by
    rw [Entry.hand, ha]
    exact ⟨rfl, rfl⟩
  rw [Registry.handAt_single he] at hfits ⊢
  refine ⟨⟨(e.hand n.reg.ext ev ctx).1, rfl, ha, hepoch, ?_⟩, hn.saved, hfits⟩
  unfold Fits at hfits
  simp only [hhand.2] at hfits ⊢
  rw [hhand.1]
  exact sound_observe ev hsound hn.fits hfits

theorem inv_persist {n : GraphNode} (hn : n.Inv) :
    ({ n with store := n.reg.persist n.store, atPersist := n.reg.ext } : GraphNode).Inv := by
  obtain ⟨e, he, ha, hepoch, hsound⟩ := hn.entry
  refine ⟨⟨e, he, ha, hepoch, hsound⟩, ?_, hn.fits⟩
  intro sv hsv
  have hname : e.name = "follow_graph" := by
    rw [Entry.name, ha]
    rfl
  have hsaved : n.reg.persist n.store "follow_graph" = some e.saved := by
    rw [← hname]
    exact Registry.persist_single he n.store
  have hsv' : some e.saved = some sv := hsaved ▸ hsv
  rw [Option.some.injEq] at hsv'
  subst hsv'
  refine ⟨hepoch, ?_⟩
  intro st hst
  have hst' : some (e.analysis.restored e.state) = some st := hst
  rw [ha, Option.some.injEq] at hst'
  subst hst'
  exact hsound.empty_or_tally

/-- The entry a restart comes back with. -/
theorem restart_entry {n : GraphNode} (hn : n.Inv) (now : ℕ) :
    ∃ e, ((Registry.ofAnalyses [FollowGraph.analysis] n.reg.ext).load now n.store).entries = [e] ∧
      e.analysis = FollowGraph.analysis ∧ e.progress.epoch = 0 ∧
      e.state = FollowGraph.attach n.reg.ext
        (((n.store "follow_graph").bind Saved.state).getD FollowGraph.default) := by
  obtain ⟨hstate, hepoch⟩ := Entry.load_new FollowGraph.analysis now (n.store "follow_graph")
  have hanalysis := Entry.analysis_load (Entry.new FollowGraph.analysis) now (n.store "follow_graph")
  have husable : usable FollowGraph.analysis (n.store "follow_graph") =
      (n.store "follow_graph").bind Saved.state := by
    cases hsv : n.store "follow_graph" with
    | none => rfl
    | some sv => exact if_pos (hn.saved sv hsv).epoch
  refine ⟨_, rfl, hanalysis, hepoch, ?_⟩
  show ((Entry.new FollowGraph.analysis).load now (n.store "follow_graph")).analysis.attach n.reg.ext
    ((Entry.new FollowGraph.analysis).load now (n.store "follow_graph")).state = _
  rw [hanalysis, hstate, husable]
  rfl

theorem inv_restart {n : GraphNode} (hn : n.Inv) (now : ℕ) (hok : n.UpToDate (.restart now)) :
    ({ n with reg :=
        (Registry.ofAnalyses [FollowGraph.analysis] n.reg.ext).load now n.store } :
      GraphNode).Inv := by
  obtain ⟨e, he, ha, hepoch, hstate⟩ := restart_entry hn now
  refine ⟨⟨e, he, ha, hepoch, ?_⟩, hn.saved, hn.fits⟩
  rw [hstate]
  apply sound_attach hn.fits
  -- what was restored is empty, or still the tally
  cases hsv : n.store "follow_graph" with
  | none => exact Or.inl rfl
  | some sv =>
    rw [Option.bind_some]
    cases hst : sv.state with
    | none => exact Or.inl rfl
    | some st =>
      rw [Option.getD_some]
      rcases (hn.saved sv hsv).state st hst with hempty | htally
      · exact Or.inl hempty
      · rcases hok sv hsv st hst with hempty | hsame
        · exact Or.inl hempty
        · exact Or.inr fun p => by rw [htally, hsame]

theorem inv_attach {n : GraphNode} (hn : n.Inv) :
    ({ n with reg := n.reg.attachAll } : GraphNode).Inv := by
  obtain ⟨e, he, ha, hepoch, hsound⟩ := hn.entry
  refine ⟨⟨{ e with state := e.analysis.attach n.reg.ext e.state }, ?_, ha, hepoch, ?_⟩,
    hn.saved, hn.fits⟩
  · rw [Registry.attachAll, he]
    rfl
  · rw [ha]
    exact sound_attach hn.fits hsound.empty_or_tally

theorem inv_reset {n n' : GraphNode} (hn : n.Inv) (hfits : n'.Fits)
    (h : n.step .reset = some n') : n'.Inv := by
  obtain ⟨e, he, ha, hepoch, hsound⟩ := hn.entry
  have hname : e.name = "follow_graph" := by
    rw [Entry.name, ha]
    rfl
  obtain ⟨names, hreset⟩ := Registry.reset_single he (by rw [ha]; rfl)
  rw [step, ← hname, hreset, Option.map_some, Option.some.injEq] at h
  subst h
  refine ⟨⟨e.reset, rfl, ha, ?_, ?_⟩, hn.saved, hfits⟩
  · rw [Entry.reset, ha]
    rfl
  · rw [Entry.reset, ha]
    exact sound_default _

theorem inv_step {n n' : GraphNode} {a : NodeAction} (hn : n.Inv) (hfits : n'.Fits)
    (hok : n.UpToDate a) (h : n.step a = some n') : n'.Inv := by
  cases a with
  | observe ev ctx =>
    cases h
    exact inv_observe hn ev ctx hfits
  | persist =>
    cases h
    exact inv_persist hn
  | restart now =>
    cases h
    exact inv_restart hn now hok
  | lose =>
    cases h
    refine ⟨hn.entry, ?_, hn.fits⟩
    intro sv hsv
    cases hsv
  | attach =>
    cases h
    exact inv_attach hn
  | reset => exact inv_reset hn hfits h

/-- A restart from a checkpoint that has fallen behind leaves counts that are not the tally. -/
theorem not_tallied_of_behind {n n' : GraphNode} {a : NodeAction} (hn : n.Inv)
    (hbad : ¬ n.UpToDate a) (h : n.step a = some n') : ¬ n'.Tallied := by
  cases a with
  | observe | persist | lose | attach | reset => exact absurd trivial hbad
  | restart now =>
    cases h
    unfold UpToDate at hbad
    push Not at hbad
    obtain ⟨sv, hsv, st, hst, hne, p, hp⟩ := hbad
    obtain ⟨e, he, -, -, hstate⟩ := restart_entry hn now
    rw [hsv, Option.bind_some, hst, Option.getD_some, FollowGraph.attach_of_ne hne] at hstate
    have htally := ((hn.saved sv hsv).state st hst).resolve_left hne p
    intro hT
    apply hp
    have hcount := hT e (by rw [he]; exact List.mem_singleton_self e) (by rw [hstate]) p
    rw [hstate] at hcount
    rw [← htally]
    exact hcount

theorem inv_fresh : fresh.Inv := by
  refine ⟨⟨Entry.new FollowGraph.analysis, rfl, rfl, rfl, sound_default _⟩, ?_, ?_⟩
  · intro sv hsv
    cases hsv
  · intro p
    show GraphStore.empty.occurrences p < 2 ^ 32
    rw [GraphStore.occurrences_empty]
    omega

/-- Along any life of a node in which no count overflows, an attached `follow_graph` has the
tally of the stored contact lists in every state, if and only if no restart takes up a
checkpoint with counts in it that the store has moved on from. -/
theorem tally_iff (as : List NodeAction)
    (hfits : ∀ n, Visited step fresh as n → n.Fits) :
    (∀ n, Visited step fresh as n → n.Tallied) ↔ Along step UpToDate fresh as := by
  have hkinds : ∀ a ∈ as, True := fun _ _ => trivial
  have hstep : ∀ n a n', Inv n → True → Fits n' → UpToDate n a → step n a = some n' → Inv n' :=
    fun n a n' hn _ hfits hok h => inv_step hn hfits hok h
  have hbad : ∀ n a n', Inv n → True → Fits n' → ¬ UpToDate n a → step n a = some n' →
      ¬ Tallied n' := fun n a n' hn _ _ hbad h => not_tallied_of_behind hn hbad h
  exact visited_iff_along_within hstep (fun n hn => hn.tallied) hbad inv_fresh hkinds hfits

/-! ## Two lives of a node -/

/-- A contact list of one author. -/
private def listing (createdAt : ℕ) (tags : List (List String)) : NostrEvent :=
  { id := "a1", pubkey := "1111111111111111111111111111111111111111111111111111111111111111"
    createdAt := createdAt, kind := 3, tags := tags, content := "", sig := "" }

private def oneFollow : List (List String) :=
  [["p", "2222222222222222222222222222222222222222222222222222222222222222"]]

private def anyCtx : AnalysisCtx :=
  { now := 1700000000, author := Vector.replicate 32 0, eventId := Vector.replicate 32 0
    world := World.empty }

/-- A list is counted and checkpointed; the process restarts and sees the list given up. -/
private def keptUp : List NodeAction :=
  [.attach, .observe (listing 1 oneFollow) anyCtx, .persist, .restart 1700000100,
    .observe (listing 2 []) anyCtx]

/-- The list is given up between the checkpoint and the crash. -/
private def fellBehind : List NodeAction :=
  [.attach, .observe (listing 1 oneFollow) anyCtx, .persist, .observe (listing 2 []) anyCtx,
    .restart 1700000100]

private def fitsB (n : GraphNode) : Bool :=
  decide (total n.reg.ext.db (fun raw => (decode raw).follows.length) < 2 ^ 32)

private theorem fits_of_fitsB {n : GraphNode} (h : fitsB n = true) : n.Fits := by
  intro p
  exact lt_of_le_of_lt (n.reg.ext.occurrences_le p) (of_decide_eq_true h)

private theorem keptUp_fits : ∀ n, Visited step fresh keptUp n → n.Fits := by
  intro n hn
  apply fits_of_fitsB
  refine forall_visited_of_inits ?_ n hn
  decide +kernel

private theorem fellBehind_fits : ∀ n, Visited step fresh fellBehind n → n.Fits := by
  intro n hn
  apply fits_of_fitsB
  refine forall_visited_of_inits ?_ n hn
  decide +kernel

private def upToDateB (n : GraphNode) : NodeAction → Bool
  | .restart _ => decide (n.atPersist.db = n.reg.ext.db)
  | _ => true

private theorem upToDate_of_upToDateB (n : GraphNode) (a : NodeAction)
    (h : upToDateB n a = true) : n.UpToDate a := by
  cases a with
  | observe | persist | lose | attach | reset => trivial
  | restart now =>
    intro _ _ _ _
    right
    intro p
    rw [GraphStore.occurrences, GraphStore.occurrences, of_decide_eq_true h]

/-- A restart from a checkpoint the store agrees with keeps the tally. -/
theorem kept_up_tallied :
    Along step UpToDate fresh keptUp ∧ ∀ n, Visited step fresh keptUp n → n.Tallied := by
  have halong : Along step UpToDate fresh keptUp :=
    along_of_alongB upToDate_of_upToDateB (by decide +kernel)
  exact ⟨halong, (tally_iff keptUp keptUp_fits).mpr halong⟩

/-- The counts a restart takes from a checkpoint stay behind the store for good. -/
theorem falls_behind :
    (∀ n, Visited step fresh fellBehind n → n.Fits) ∧
      ¬ ∀ n, Visited step fresh fellBehind n → n.Tallied := by
  refine ⟨fellBehind_fits, ?_⟩
  intro h
  have hafter : ((run step fresh fellBehind).any fun n => n.reg.entries.any fun e =>
      e.state.attached && decide (e.state.count (Vector.replicate 32 0x22) = 1 ∧
        n.reg.ext.occurrences (Vector.replicate 32 0x22) = 0)) = true := by decide +kernel
  obtain ⟨n, hn⟩ : ∃ n, run step fresh fellBehind = some n :=
    Option.isSome_iff_exists.mp (by decide +kernel)
  rw [hn, Option.any_some] at hafter
  obtain ⟨e, hmem, he⟩ := List.any_eq_true.mp hafter
  rw [Bool.and_eq_true] at he
  obtain ⟨hcount, hocc⟩ := of_decide_eq_true he.2
  have htally := h n ⟨fellBehind, List.prefix_rfl, hn⟩ e hmem he.1 (Vector.replicate 32 0x22)
  omega

end GraphNode

end NostrSearch.Stats
