import NostrSearch.Lib.Json

/-!
# Views and patches

A `View` shows a value for some of its keys, and a `Patch` has for some of them a new value or
the word that it is gone. What a patch does to a view depends on the values: a merge patch goes
into objects, so a value patched over an older one may keep fields of it. `Layout` has how values
are spelled, what `onto` makes of two of them, and when one `Covers` another, so that nothing of
that other is left.

`Tracks dirty shown v` is the invariant of incremental reporting: outside the keys in `dirty`, what
is `shown` is what `v` has, and in them it is covered. `patched_changes` says that the patch of the
dirty keys brings `shown` up to `v`.
-/

namespace NostrSearch.Lib

/-- What is shown for each key. -/
abbrev View (κ β : Type*) := κ → Option β

/-- For each key nothing, a removal, or a new value. -/
abbrev Patch (κ β : Type*) := κ → Option (Option β)

/-- How values are spelled, and what becomes of one that is patched over another. -/
structure Layout (β : Type*) where
  json : β → Json
  /-- the first, patched over the second -/
  onto : β → β → β
  /-- nothing of the second is left under the first -/
  Covers : β → β → Prop
  json_ne_null : ∀ b, json b ≠ Json.null
  mergePatch_json : ∀ b b₀, Json.mergePatch (json b) (json b₀) = json (onto b b₀)
  onto_of_covers : ∀ b b₀, Covers b b₀ → onto b b₀ = b
  covers_refl : ∀ b, Covers b b
  covers_trans : ∀ b₂ b₁ b₀, Covers b₂ b₁ → Covers b₁ b₀ → Covers b₂ b₀
  covers_onto : ∀ c b b₀, Covers c b → Covers c b₀ → Covers c (onto b b₀)

namespace Layout

variable {κ β : Type*}

/-- Values that replace each other. -/
def replacing (json : β → Json) (hnull : ∀ b, json b ≠ Json.null)
    (hpatch : ∀ b b₀, Json.mergePatch (json b) (json b₀) = json b) : Layout β where
  json := json
  onto b _ := b
  Covers _ _ := True
  json_ne_null := hnull
  mergePatch_json := hpatch
  onto_of_covers _ _ _ := rfl
  covers_refl _ := trivial
  covers_trans _ _ _ _ _ := trivial
  covers_onto _ _ _ _ _ := trivial

/-- Numbers. -/
def num : Layout ℕ :=
  replacing Json.num (fun _ h => by cases h) fun b b₀ => Json.mergePatch_num b (Json.num b₀)

variable (L : Layout β)

/-- The patch `p` applied to `v`. -/
def patched (p : Patch κ β) (v : View κ β) : View κ β := fun k =>
  match p k with
  | none => v k
  | some none => none
  | some (some b) => some ((v k).elim b (L.onto b))

/-- Nothing of `b₀` is left under what is shown, nor under what may come where nothing is. -/
def Under (b₀ : β) (shown : Option β) : Prop :=
  ∀ b, shown = none ∨ shown = some b → L.Covers b b₀

/-- What is shown is what `v` has, but for the keys in `dirty`, and it is covered everywhere. -/
structure Tracks (dirty : Finset κ) (shown v : View κ β) : Prop where
  outside : ∀ k, k ∉ dirty → shown k = v k
  under : ∀ k b₀, shown k = some b₀ → L.Under b₀ (v k)

/-- A step of what is tracked marks what it changes. -/
structure Moves (dirty : Finset κ) (v : View κ β) (dirty' : Finset κ) (v' : View κ β) : Prop where
  subset : dirty ⊆ dirty'
  tracks : L.Tracks dirty' v v'

/-- The patch with what `v` has for the keys in `dirty`. -/
def changes [DecidableEq κ] (dirty : Finset κ) (v : View κ β) : Patch κ β := fun k =>
  if k ∈ dirty then some (v k) else none

variable {L}

theorem under_some {b b₀ : β} (h : L.Covers b b₀) : L.Under b₀ (some b) := by
  intro c hc
  rcases hc with hnone | hsome
  · cases hnone
  · rw [Option.some.injEq] at hsome
    rw [← hsome]
    exact h

theorem under_self (b : β) : L.Under b (some b) := under_some (L.covers_refl b)

/-- What is under one view is under the next. -/
theorem Under.trans {b₀ : β} {x y : Option β} (h : L.Under b₀ x)
    (hxy : ∀ b, x = some b → L.Under b y) : L.Under b₀ y := by
  intro c hc
  cases x with
  | none => exact h c (Or.inl rfl)
  | some b =>
    have hb : L.Covers b b₀ := h b (Or.inr rfl)
    have hcb : L.Covers c b := hxy b rfl c hc
    exact L.covers_trans c b b₀ hcb hb

theorem Tracks.refl (dirty : Finset κ) (v : View κ β) : L.Tracks dirty v v := by
  refine ⟨fun _ _ => rfl, ?_⟩
  intro k b₀ h₀
  rw [h₀]
  exact under_self b₀

theorem Moves.refl (dirty : Finset κ) (v : View κ β) : L.Moves dirty v dirty v :=
  ⟨Finset.Subset.refl dirty, Tracks.refl dirty v⟩

/-- What tracks a view tracks the next. -/
theorem Tracks.moves {dirty dirty' : Finset κ} {shown v v' : View κ β}
    (h : L.Tracks dirty shown v) (hv : L.Moves dirty v dirty' v') : L.Tracks dirty' shown v' := by
  constructor
  · intro k hk
    have hk₀ : k ∉ dirty := fun hmem => hk (hv.subset hmem)
    rw [h.outside k hk₀, hv.tracks.outside k hk]
  · intro k b₀ h₀
    exact (h.under k b₀ h₀).trans (hv.tracks.under k)

theorem Moves.trans {dirty dirty' dirty'' : Finset κ} {v v' v'' : View κ β}
    (h : L.Moves dirty v dirty' v') (h' : L.Moves dirty' v' dirty'' v'') :
    L.Moves dirty v dirty'' v'' :=
  ⟨h.subset.trans h'.subset, h.tracks.moves h'⟩

/-- A new value for one key, that covers the one it had. -/
theorem moves_update [DecidableEq κ] {dirty : Finset κ} {v : View κ β} {k : κ} {x : Option β}
    (hx : ∀ b₀, v k = some b₀ → L.Under b₀ x) :
    L.Moves dirty v (insert k dirty) (Function.update v k x) := by
  refine ⟨Finset.subset_insert k dirty, ?_, ?_⟩
  · intro j hj
    have hjk : j ≠ k := fun h => hj (h ▸ Finset.mem_insert_self k dirty)
    rw [Function.update_of_ne hjk]
  · intro j b₀ hb₀
    by_cases hjk : j = k
    · subst hjk
      rw [Function.update_self]
      exact hx b₀ hb₀
    · rw [Function.update_of_ne hjk, hb₀]
      exact under_self b₀

/-- A step that takes no key out, and only covers the values it replaces. -/
theorem moves_of_covers {dirty dirty' : Finset κ} {v v' : View κ β} (hsubset : dirty ⊆ dirty')
    (hout : ∀ k, k ∉ dirty' → v k = v' k)
    (hcovers : ∀ k b₀, v k = some b₀ → ∃ b, v' k = some b ∧ L.Covers b b₀) :
    L.Moves dirty v dirty' v' := by
  refine ⟨hsubset, hout, ?_⟩
  intro k b₀ hb₀
  obtain ⟨b, hb, hcov⟩ := hcovers k b₀ hb₀
  rw [hb]
  exact under_some hcov

/-- The patch of the dirty keys brings what tracks a view up to it. -/
theorem patched_changes [DecidableEq κ] {dirty : Finset κ} {shown v : View κ β}
    (h : L.Tracks dirty shown v) : L.patched (changes dirty v) shown = v := by
  funext k
  unfold patched changes
  by_cases hk : k ∈ dirty
  · rw [if_pos hk]
    cases hv : v k with
    | none => rfl
    | some b =>
      cases hs : shown k with
      | none => rfl
      | some b₀ =>
        have hcovers : L.Covers b b₀ := h.under k b₀ hs b (Or.inr hv)
        show some (L.onto b b₀) = some b
        rw [L.onto_of_covers b b₀ hcovers]
  · rw [if_neg hk]
    exact h.outside k hk

/-! ## Patches on their way

Patches may reach what is shown late, and be applied to something newer than they are. `Queued`
is what makes this harmless: outside the dirty keys the last of them to write a key has the value
it has now, and what any of them writes is covered by it.
-/

section Queues

/-- Several patches, one after another. -/
def patchedAll (L : Layout β) (ps : List (Patch κ β)) (v : View κ β) : View κ β :=
  ps.foldl (fun v p => L.patched p v) v

/-- The last of several patches that writes `k`. -/
def lastWrite (ps : List (Patch κ β)) (k : κ) : Option (Option β) :=
  ps.foldl (fun x p => p k <|> x) none

structure Queued (L : Layout β) (dirty : Finset κ) (ps : List (Patch κ β)) (v : View κ β) :
    Prop where
  settled : ∀ k, k ∉ dirty → ∀ x, lastWrite ps k = some x → x = v k
  under : ∀ p ∈ ps, ∀ k b, p k = some (some b) → L.Under b (v k)

variable {dirty dirty' : Finset κ} {ps qs : List (Patch κ β)} {p : Patch κ β}
  {shown v v' : View κ β}

theorem lastWrite_concat (ps : List (Patch κ β)) (p : Patch κ β) (k : κ) :
    lastWrite (ps ++ [p]) k = (p k <|> lastWrite ps k) := by
  rw [lastWrite, List.foldl_append]
  rfl

theorem patchedAll_append (ps qs : List (Patch κ β)) (v : View κ β) :
    L.patchedAll (ps ++ qs) v = L.patchedAll qs (L.patchedAll ps v) := List.foldl_append

theorem lastWrite_append_of_some {k : κ} {x : Option β} (h : lastWrite qs k = some x) :
    lastWrite (ps ++ qs) k = some x := by
  induction qs using List.reverseRecOn with
  | nil => cases h
  | append_singleton qs q ih =>
    rw [lastWrite_concat] at h
    rw [← List.append_assoc, lastWrite_concat]
    cases hq : q k with
    | some y =>
      rw [hq] at h
      exact h
    | none =>
      rw [hq] at h
      exact ih h

theorem queued_nil : L.Queued dirty [] v := by
  constructor
  · intro k _ x hx
    cases hx
  · intro p hp
    exact absurd hp List.not_mem_nil

theorem Queued.moves (h : L.Queued dirty ps v) (hv : L.Moves dirty v dirty' v') :
    L.Queued dirty' ps v' := by
  constructor
  · intro k hk x hx
    have hk₀ : k ∉ dirty := fun hmem => hk (hv.subset hmem)
    rw [h.settled k hk₀ x hx, hv.tracks.outside k hk]
  · intro p hp k b hb
    exact (h.under p hp k b hb).trans (hv.tracks.under k)

/-- The first of them may be dropped. -/
theorem Queued.suffix (h : L.Queued dirty (ps ++ qs) v) : L.Queued dirty qs v := by
  constructor
  · intro k hk x hx
    exact h.settled k hk x (lastWrite_append_of_some hx)
  · intro p hp
    exact h.under p (List.mem_append_right ps hp)

/-- A drain puts the changes behind them. -/
theorem Queued.drain [DecidableEq κ] (h : L.Queued dirty ps v) :
    L.Queued ∅ (ps ++ [changes dirty v]) v := by
  constructor
  · intro k _ x hx
    rw [lastWrite_concat, changes] at hx
    by_cases hk : k ∈ dirty
    · rw [if_pos hk] at hx
      exact (Option.some.inj hx).symm
    · rw [if_neg hk] at hx
      exact h.settled k hk x hx
  · intro p hp k b hb
    rcases List.mem_append.mp hp with hps | hlast
    · exact h.under p hps k b hb
    · rw [List.mem_singleton] at hlast
      subst hlast
      unfold changes at hb
      split at hb
      · rw [Option.some.inj hb]
        exact under_self b
      · cases hb

/-- What is covered stays covered under a patch that is. -/
theorem under_patched (hp : ∀ k b, p k = some (some b) → L.Under b (v k))
    (hshown : ∀ k b₀, shown k = some b₀ → L.Under b₀ (v k)) (k : κ) (b₀ : β)
    (h : L.patched p shown k = some b₀) : L.Under b₀ (v k) := by
  unfold patched at h
  cases hpk : p k with
  | none =>
    rw [hpk] at h
    exact hshown k b₀ h
  | some x =>
    cases x with
    | none =>
      rw [hpk] at h
      cases h
    | some b =>
      have hb : L.Under b (v k) := hp k b hpk
      rw [hpk] at h
      cases hs : shown k with
      | none =>
        rw [hs] at h
        rw [← Option.some.inj h]
        exact hb
      | some b₁ =>
        rw [hs] at h
        rw [← Option.some.inj h]
        intro c hc
        exact L.covers_onto c b b₁ (hb c hc) (hshown k b₁ hs c hc)

theorem under_patchedAll (hps : ∀ p ∈ ps, ∀ k b, p k = some (some b) → L.Under b (v k))
    (hshown : ∀ k b₀, shown k = some b₀ → L.Under b₀ (v k)) :
    ∀ k b₀, L.patchedAll ps shown k = some b₀ → L.Under b₀ (v k) := by
  induction ps using List.reverseRecOn with
  | nil => exact hshown
  | append_singleton ps p ih =>
    rw [patchedAll_append]
    apply under_patched
    · exact hps p (List.mem_append_right ps (List.mem_singleton_self p))
    · exact ih fun q hq => hps q (List.mem_append_left [p] hq)

/-- Patches on their way may be applied to whatever tracks the view. -/
theorem Tracks.patchedAll (h : L.Tracks dirty shown v) (hps : L.Queued dirty ps v) :
    L.Tracks dirty (L.patchedAll ps shown) v := by
  refine ⟨?_, under_patchedAll hps.under h.under⟩
  intro k hk
  -- by the last patch that writes `k`
  have hlast := hps.settled k hk
  have hall := hps.under
  clear hps
  induction ps using List.reverseRecOn with
  | nil => exact h.outside k hk
  | append_singleton ps p ih =>
    have hall' : ∀ q ∈ ps, ∀ k b, q k = some (some b) → L.Under b (v k) :=
      fun q hq => hall q (List.mem_append_left [p] hq)
    rw [patchedAll_append]
    show L.patched p (L.patchedAll ps shown) k = v k
    rw [lastWrite_concat] at hlast
    unfold patched
    cases hpk : p k with
    | none =>
      rw [hpk] at hlast
      exact ih hlast hall'
    | some x =>
      rw [hpk] at hlast
      have hx : x = v k := hlast x rfl
      cases x with
      | none => exact hx
      | some b =>
        show some ((L.patchedAll ps shown k).elim b (L.onto b)) = v k
        cases hs : L.patchedAll ps shown k with
        | none => exact hx
        | some b₀ =>
          have hcovers : L.Covers b b₀ :=
            under_patchedAll hall' h.under k b₀ hs b (Or.inr hx.symm)
          rw [Option.elim_some, L.onto_of_covers b b₀ hcovers, hx]

end Queues

end Layout

/-! ## Their spelling -/

/-- How a report spells what it shows. -/
structure Format (κ β : Type*) extends Layout β where
  view : View κ β → Json
  view_eq_empty : ∀ v, view v = view (fun _ => none) → ∀ k, v k = none

/-- A JSON value that does, as a merge patch, what `p` does. -/
def Format.Spells {κ β : Type*} (F : Format κ β) (j : Json) (p : Patch κ β) : Prop :=
  ∀ v, Json.mergePatch j (F.view v) = F.view (F.patched p v)

namespace Keys

variable {κ β : Type*} (c : Keys κ) (L : Layout β)

/-- A view as an object. -/
def view (v : View κ β) : Json := c.obj fun k => (v k).map L.json

/-- A patch as an object, with `null` for what is gone. -/
def patch (p : Patch κ β) : Json := c.obj fun k => (p k).map fun x => x.elim Json.null L.json

theorem view_eq_empty {v : View κ β} (h : c.view L v = c.view L fun _ => none) (k : κ) :
    v k = none := by
  have hget := congrArg (fun j => j.get (c.name k)) h
  rw [view, view, c.get_obj, c.get_obj] at hget
  exact Option.map_eq_none_iff.mp hget

/-- A report that is one map. -/
def format : Format κ β where
  toLayout := L
  view := c.view L
  view_eq_empty _ h k := c.view_eq_empty L h k

theorem spells_patch (p : Patch κ β) : (c.format L).Spells (c.patch L p) p := by
  intro v
  apply c.mergePatch_obj
  intro k
  unfold Layout.patched
  cases p k with
  | none => exact Json.mergeField_none _
  | some x =>
    cases x with
    | none => exact Json.mergeField_null _
    | some b =>
      have hb : L.json b ≠ Json.null := L.json_ne_null b
      cases v k with
      | none => exact Json.mergeField_some_none hb
      | some b₀ =>
        show Json.mergeField (some (L.json b)) (some (L.json b₀)) = some (L.json (L.onto b b₀))
        rw [Json.mergeField_some_some hb, L.mergePatch_json]

/-- Where every marked key is shown, leaving out those that are not makes no difference. -/
theorem obj_changed [DecidableEq κ] {dirty : Finset κ} {v : View κ β}
    (h : ∀ k ∈ dirty, (v k).isSome = true) :
    (c.obj fun k => if k ∈ dirty then (v k).map L.json else none) =
      c.patch L (Layout.changes dirty v) := by
  unfold patch
  congr 1
  funext k
  unfold Layout.changes
  by_cases hk : k ∈ dirty
  · obtain ⟨b, hb⟩ := Option.isSome_iff_exists.mp (h k hk)
    rw [if_pos hk, if_pos hk, hb]
    rfl
  · rw [if_neg hk, if_neg hk]
    rfl

/-- A map patched over another keeps the keys of both. -/
theorem mergePatch_view (v v₀ : View κ β) :
    Json.mergePatch (c.view L v) (c.view L v₀) =
      c.view L (L.patched (fun k => (v k).map some) v₀) := by
  have hv : c.view L v = c.patch L fun k => (v k).map some := by
    unfold view patch
    congr 1
    funext k
    show (v k).map L.json = ((v k).map some).map fun x => x.elim Json.null L.json
    rw [Option.map_map]
    rfl
  rw [hv]
  exact c.spells_patch L _ v₀

/-! A report of several maps under names of their own. -/

section Sections

variable {τ : Type*} {secs : List (τ × String)}

/-- What each section shows, read off the record. -/
theorem lookup_sections (hnames : (secs.map Prod.snd).Nodup) {f : τ → Json} {s : τ × String}
    (hs : s ∈ secs) : (secs.map fun s => (s.2, f s.1)).lookup s.2 = some (f s.1) := by
  induction secs with
  | nil => exact absurd hs List.not_mem_nil
  | cons t secs ih =>
    rw [List.map_cons, List.nodup_cons] at hnames
    rw [List.map_cons, List.lookup_cons]
    rcases List.mem_cons.mp hs with rfl | hmem
    · rw [beq_self_eq_true]
    · have hne : s.2 ≠ t.2 := fun h => hnames.1 (h ▸ List.mem_map_of_mem hmem)
      rw [beq_false_of_ne hne]
      exact ih hnames.2 hmem

variable (secs)

/-- The keys marked in one of the sections. -/
def gather [Fintype τ] [DecidableEq τ] [DecidableEq κ] (dirty : τ → Finset κ) : Finset (τ × κ) :=
  Finset.univ.biUnion fun i => (dirty i).image fun k => (i, k)

theorem mem_gather [Fintype τ] [DecidableEq τ] [DecidableEq κ] {dirty : τ → Finset κ} {i : τ}
    {k : κ} : (i, k) ∈ gather dirty ↔ k ∈ dirty i := by
  unfold gather
  rw [Finset.mem_biUnion]
  constructor
  · rintro ⟨j, -, hj⟩
    obtain ⟨k', hk', h⟩ := Finset.mem_image.mp hj
    cases h
    exact hk'
  · intro hk
    exact ⟨i, Finset.mem_univ i, Finset.mem_image_of_mem _ hk⟩

theorem gather_eq_empty [Fintype τ] [DecidableEq τ] [DecidableEq κ] {dirty : τ → Finset κ} :
    gather dirty = ∅ ↔ ∀ i, dirty i = ∅ := by
  constructor
  · intro h i
    apply Finset.eq_empty_of_forall_notMem
    intro k hk
    have hmem : (i, k) ∈ gather dirty := mem_gather.mpr hk
    rw [h] at hmem
    exact Finset.notMem_empty _ hmem
  · intro h
    apply Finset.eq_empty_of_forall_notMem
    rintro ⟨i, k⟩ hk
    rw [mem_gather, h i] at hk
    exact Finset.notMem_empty k hk

/-- The changes of one section. -/
theorem changes_gather [Fintype τ] [DecidableEq τ] [DecidableEq κ] {dirty : τ → Finset κ}
    {v : View (τ × κ) β} (i : τ) :
    (fun k => Layout.changes (gather dirty) v (i, k)) =
      Layout.changes (dirty i) fun k => v (i, k) := by
  funext k
  unfold Layout.changes
  simp only [mem_gather]

/-- A step of each section is a step of them all. -/
theorem moves_gather [Fintype τ] [DecidableEq τ] [DecidableEq κ] {L : Layout β}
    {dirty dirty' : τ → Finset κ} {v v' : View (τ × κ) β}
    (h : ∀ i, L.Moves (dirty i) (fun k => v (i, k)) (dirty' i) fun k => v' (i, k)) :
    L.Moves (gather dirty) v (gather dirty') v' := by
  refine ⟨?_, ?_, ?_⟩
  · rintro ⟨i, k⟩ hk
    rw [mem_gather] at hk ⊢
    exact (h i).subset hk
  · rintro ⟨i, k⟩ hk
    rw [mem_gather] at hk
    exact (h i).tracks.outside k hk
  · rintro ⟨i, k⟩ b₀ hb₀
    exact (h i).tracks.under k b₀ hb₀

/-- Sections that cover all of `τ`, under different names. -/
def sections (hnames : (secs.map Prod.snd).Nodup) (hall : ∀ i, ∃ s ∈ secs, s.1 = i) :
    Format (τ × κ) β where
  toLayout := L
  view v := Json.record (secs.map fun s => (s.2, c.view L fun k => v (s.1, k)))
  view_eq_empty v h x := by
    obtain ⟨s, hs, hi⟩ := hall x.1
    have hget := congrArg (fun j => j.get s.2) h
    have hleft := lookup_sections hnames (f := fun i => c.view L fun k => v (i, k)) hs
    have hright := lookup_sections hnames (f := fun _ => c.view L fun _ => none) hs
    have heq : some (c.view L fun k => v (s.1, k)) = some (c.view L fun _ => none) :=
      hleft.symm.trans (Eq.trans hget hright)
    have hempty := c.view_eq_empty L (Option.some.inj heq) x.2
    rw [hi] at hempty
    exact hempty

/-- The patch of the sections that `keep` leaves in. -/
def sectionsPatch (keep : τ → Bool) (p : Patch (τ × κ) β) : Json :=
  Json.record ((secs.filter fun s => keep s.1).map fun s => (s.2, c.patch L fun k => p (s.1, k)))

/-- Sections without changes may be left out. -/
theorem spells_sectionsPatch (hnames : (secs.map Prod.snd).Nodup)
    (hall : ∀ i, ∃ s ∈ secs, s.1 = i) (keep : τ → Bool) {p : Patch (τ × κ) β}
    (hkeep : ∀ i, keep i = false → ∀ k, p (i, k) = none) :
    (c.sections L secs hnames hall).Spells (c.sectionsPatch L secs keep p) p := by
  intro v
  apply Json.mergePatch_record
  show Json.RecordPatch _ (secs.map fun s => (s.2, c.view L fun k => v (s.1, k)))
    (secs.map fun s => (s.2, c.view L fun k => L.patched p v (s.1, k)))
  clear hall
  induction secs with
  | nil => exact Json.RecordPatch.nil
  | cons s secs ih =>
    rw [List.map_cons, List.nodup_cons] at hnames
    obtain ⟨hs, hnames⟩ := hnames
    have hrest := ih hnames
    rw [List.filter_cons]
    cases hks : keep s.1 with
    | true =>
      apply Json.RecordPatch.cons
      · exact c.obj_ne_null _
      · exact c.spells_patch L (fun k => p (s.1, k)) fun k => v (s.1, k)
      · exact hrest
    | false =>
      have hsame : (fun k => L.patched p v (s.1, k)) = fun k => v (s.1, k) := by
        funext k
        unfold Layout.patched
        rw [hkeep s.1 hks k]
      have hlookup : ((secs.filter fun s => keep s.1).map fun s =>
          (s.2, c.patch L fun k => p (s.1, k))).lookup s.2 = none := by
        rw [List.lookup_eq_none_iff]
        intro x hx
        obtain ⟨t, ht, rfl⟩ := List.mem_map.mp hx
        have hne : s.2 ≠ t.2 := fun h => hs (h ▸ List.mem_map_of_mem (List.mem_filter.mp ht).1)
        simpa using hne
      rw [List.map_cons, List.map_cons, hsame]
      exact Json.RecordPatch.skip hlookup hrest

end Sections

end Keys

end NostrSearch.Lib
