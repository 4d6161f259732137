import NostrSearch.Lib.Json
import NostrSearch.Lib.JsonDoc

/-!
# `merge_patch`

The patch of `delta.rs` as it goes through the fields of a patch. Over a target that is no object
the patch is cloned, with the `null`s it has in it; RFC 7386 has them out. `mergePatch_iff` says
when the two are the same: where every `null` of a patch object meets an object (`clean`).

`toJson_mergePatch` is that this is the patch of the reports, in which the fields have no order.
-/

namespace NostrSearch.Stats

open NostrSearch.Lib

variable {α : Type*}

mutual

/-- Apply a JSON merge patch to `target`. -/
def mergePatch (target patch : Doc α) : Doc α :=
  match target, patch with
  | .obj t, .obj p => .obj (mergeEntries p t)
  | _, p => p
termination_by structural patch

/-- The loop over the fields of the patch. -/
def mergeEntries (patch target : List (String × Doc α)) : List (String × Doc α) :=
  match patch with
  | [] => target
  | (k, v) :: p =>
    mergeEntries p <|
      if v.isNull then removeKey k target
      else setKey k (mergePatch ((target.lookup k).getD .null) v) target
termination_by structural patch

end

mutual

/-- Every `null` of the patch meets an object. -/
def clean : Doc α → Doc α → Bool
  | .obj p, target => cleanFields p target
  | _, _ => true

def cleanFields : List (String × Doc α) → Doc α → Bool
  | [], _ => true
  | (k, v) :: p, target =>
    (if v.isNull then target.isObj else clean v (target.get k)) && cleanFields p target

end

/-! ## The loop -/

theorem mergePatch_obj (t p : List (String × Doc α)) :
    mergePatch (.obj t) (.obj p) = .obj (mergeEntries p t) := by
  rw [mergePatch]

/-- Over anything but an object the patch is cloned. -/
theorem mergePatch_of_not_obj {target : Doc α} (h : target.isObj = false) (patch : Doc α) :
    mergePatch target patch = patch := by
  cases target with
  | obj t => cases h
  | null | scalar | arr =>
    rw [mergePatch]
    intro t p ht
    cases ht

/-- A patch that is no object takes the place of what there is. -/
theorem mergePatch_of_patch {patch : Doc α} (h : patch.isObj = false) (target : Doc α) :
    mergePatch target patch = patch := by
  cases patch with
  | obj p => cases h
  | null | scalar | arr =>
    rw [mergePatch]
    intro t p _ hp
    cases hp

/-- **What the loop does** to each key, once through a patch that has no key twice. -/
theorem lookup_mergeEntries {patch : List (String × Doc α)} (hp : (patch.map Prod.fst).Nodup)
    (target : List (String × Doc α)) (key : String) :
    (mergeEntries patch target).lookup key =
      match patch.lookup key with
      | none => target.lookup key
      | some v => if v.isNull then none
        else some (mergePatch ((target.lookup key).getD .null) v) := by
  induction patch generalizing target with
  | nil => rw [mergeEntries, List.lookup_nil]
  | cons f p ih =>
    obtain ⟨k, v⟩ := f
    obtain ⟨hnotin, hnodup⟩ := List.nodup_cons.mp hp
    rw [mergeEntries, ih hnodup, List.lookup_cons]
    by_cases hkey : key = k
    · -- no later turn touches the key
      subst hkey
      rw [lookup_eq_none hnotin, BEq.rfl]
      dsimp only
      split
      · exact lookup_removeKey_self key target
      · exact lookup_setKey_self key _ target
    · have hsame : (if v.isNull = true then removeKey k target
          else setKey k (mergePatch ((target.lookup k).getD .null) v) target).lookup key =
          target.lookup key := by
        split
        · exact lookup_removeKey_of_ne hkey target
        · exact lookup_setKey_of_ne hkey _ target
      rw [hsame, beq_eq_false_iff_ne.mpr hkey]

/-- Fields that the target does not have go behind those it has. -/
theorem mergeEntries_fresh {p t : List (String × Doc α)} (hp : (p.map Prod.fst).Nodup)
    (hnulls : ∀ f ∈ p, f.2.isNull = false) (hnew : ∀ f ∈ p, t.lookup f.1 = none) :
    mergeEntries p t = t ++ p := by
  induction p generalizing t with
  | nil => rw [mergeEntries, List.append_nil]
  | cons f p ih =>
    obtain ⟨k, v⟩ := f
    obtain ⟨hnotin, hnodup⟩ := List.nodup_cons.mp hp
    have hv : v.isNull = false := hnulls (k, v) List.mem_cons_self
    have hk : t.lookup k = none := hnew (k, v) List.mem_cons_self
    have hvalue : mergePatch ((t.lookup k).getD .null) v = v := by
      rw [hk]
      -- the new slot is `null`, over which the value is cloned
      exact mergePatch_of_not_obj rfl v
    rw [mergeEntries, hv, if_neg Bool.false_ne_true, hvalue, setKey_of_lookup hk]
    have hrest : mergeEntries p (t ++ [(k, v)]) = t ++ [(k, v)] ++ p := by
      apply ih hnodup fun f hf => hnulls f (List.mem_cons_of_mem _ hf)
      intro f hf
      have hne : f.1 ≠ k := by
        intro heq
        exact hnotin (List.mem_map.mpr ⟨f, hf, heq⟩)
      rw [List.lookup_append, hnew f (List.mem_cons_of_mem _ hf), Option.none_or, List.lookup_cons,
        beq_eq_false_iff_ne.mpr hne, List.lookup_nil]
    rw [hrest, List.append_assoc, List.singleton_append]

/-! ## RFC 7386 -/

theorem cleanFields_iff {patch : List (String × Doc α)} (hp : (patch.map Prod.fst).Nodup)
    (target : Doc α) : cleanFields patch target = true ↔
      ∀ k v, patch.lookup k = some v →
        (if v.isNull then target.isObj else clean v (target.get k)) = true := by
  simp only [lookup_eq_some_iff hp]
  clear hp
  induction patch with
  | nil => exact iff_of_true rfl nofun
  | cons f p ih =>
    obtain ⟨k, v⟩ := f
    rw [cleanFields, Bool.and_eq_true, ih]
    constructor
    · rintro ⟨hv, hrest⟩ k' v' hmem
      rcases List.mem_cons.mp hmem with heq | hmem
      · rw [Prod.mk.injEq] at heq
        rw [heq.1, heq.2]
        exact hv
      · exact hrest k' v' hmem
    · intro h
      exact ⟨h k v List.mem_cons_self, fun k' v' hmem => h k' v' (List.mem_cons_of_mem _ hmem)⟩

/-- `merge_patch` is RFC 7386, where every `null` of the patch meets an object and nowhere else. -/
theorem mergePatch_iff {patch : Doc α} (hp : patch.Wf) (target : Doc α) :
    (mergePatch target patch).meaning = Meaning.mergePatch patch.meaning target.meaning ↔
      clean patch target = true := by
  induction patch using Doc.induction generalizing target with
  | null | scalar | arr =>
    refine iff_of_true ?_ (by rw [clean]; rintro fs ⟨⟩)
    rw [mergePatch_of_patch rfl, Doc.meaning, Meaning.mergePatch]
    rintro fs ⟨⟩
  | obj p ih =>
    rw [Doc.Wf] at hp
    rw [clean, cleanFields_iff hp.1, Doc.meaning_obj p, Meaning.mergePatch_obj]
    have hfield : ∀ k v, p.lookup k = some v → ∀ d : Doc α,
        (mergePatch d v).meaning = Meaning.mergePatch v.meaning d.meaning ↔ clean v d = true := by
      intro k v hv d
      have hmem := (lookup_eq_some_iff hp.1).mp hv
      exact ih k v hmem (Doc.wf_of_mem hp.2 hmem) d
    cases hobj : target.isObj with
    | true =>
      cases target with
      | null | scalar | arr => cases hobj
      | obj t =>
        rw [mergePatch_obj, Doc.meaning_obj, Meaning.obj_inj]
        apply forall_congr'
        intro k
        rw [lookup_mergeEntries hp.1, Meaning.mergeField_meaning]
        cases hk : p.lookup k with
        | none => exact iff_of_true rfl (by rintro v ⟨⟩)
        | some v =>
          simp only [Option.some.injEq, forall_eq']
          split
          · exact iff_of_true rfl rfl
          · rw [Option.map_some, Option.some.injEq]
            exact hfield k v hk _
    | false =>
      -- the patch is cloned, as it would be over `null` further down
      have hget : ∀ k, target.get k = Doc.null := by
        intro k
        cases target with
        | obj t => cases hobj
        | null | scalar | arr => rfl
      rw [mergePatch_of_not_obj hobj, Doc.meaning_obj, Meaning.obj_inj]
      apply forall_congr'
      intro k
      rw [Meaning.mergeField_meaning]
      cases hk : p.lookup k with
      | none =>
        refine iff_of_true ?_ (by rintro v ⟨⟩)
        cases target with
        | obj t => cases hobj
        | null | scalar | arr => rfl
      | some v =>
        simp only [Option.some.injEq, forall_eq']
        rw [Option.map_some, hget]
        -- a `null` is cloned as well, and RFC 7386 has no field there
        split
        · exact iff_of_false (by rintro ⟨⟩) Bool.false_ne_true
        · rw [Option.some.injEq, ← hfield k v hk .null, mergePatch_of_not_obj rfl]

/-! ## The patch of the reports -/

section reports

variable {s : α → Json}

mutual

/-- A document whose scalars are values of a report. -/
def toJson (s : α → Json) : Doc α → Json
  | .null => .null
  | .scalar a => s a
  | .arr items => .arr (toJsonItems s items)
  | .obj fs => .obj (toJsonFields s fs)

def toJsonItems (s : α → Json) : List (Doc α) → List Json
  | [] => []
  | d :: items => toJson s d :: toJsonItems s items

def toJsonFields (s : α → Json) : List (String × Doc α) → String → Option Json
  | [] => fun _ => none
  | (k, d) :: fs => fun key => if key = k then some (toJson s d) else toJsonFields s fs key

end

theorem toJson_obj (s : α → Json) (fs : List (String × Doc α)) :
    toJson s (.obj fs) = .obj fun key => (fs.lookup key).map (toJson s) := by
  rw [toJson]
  congr 1
  funext key
  induction fs with
  | nil => rw [toJsonFields, List.lookup_nil, Option.map_none]
  | cons f fs ih =>
    obtain ⟨k, d⟩ := f
    rw [toJsonFields, List.lookup_cons]
    dsimp only
    by_cases h : key = k
    · rw [if_pos h, h, BEq.rfl]
      rfl
    · rw [if_neg h, beq_eq_false_iff_ne.mpr h, ih]

/-- No scalar is `null` or an object. -/
def Plain (s : α → Json) : Prop := ∀ a, s a ≠ .null ∧ ∀ f, s a ≠ .obj f

theorem toJson_ne_null (hs : Plain s) {d : Doc α} (h : d.isNull = false) : toJson s d ≠ .null := by
  cases d with
  | null => cases h
  | scalar a =>
    rw [toJson]
    exact (hs a).1
  | arr | obj =>
    rw [toJson]
    exact nofun

theorem toJson_ne_obj (hs : Plain s) {d : Doc α} (h : d.isObj = false) (f : String → Option Json) :
    toJson s d ≠ .obj f := by
  cases d with
  | obj fs => cases h
  | scalar a =>
    rw [toJson]
    exact (hs a).2 f
  | null | arr =>
    rw [toJson]
    exact nofun

/-- The loop does what `Json.mergePatch` says of each field. -/
theorem toJson_mergePatch (hs : Plain s) {patch : Doc α} (hp : patch.Wf) (target : Doc α) :
    toJson s (mergePatch target patch) = Json.mergePatch (toJson s patch) (toJson s target) := by
  induction patch using Doc.induction generalizing target with
  | null | scalar | arr =>
    rw [mergePatch_of_patch rfl, Json.mergePatch]
    intro f hf
    exact absurd hf (toJson_ne_obj hs rfl f)
  | obj p ih =>
    rw [Doc.Wf] at hp
    cases hobj : target.isObj with
    | false =>
      rw [mergePatch_of_not_obj hobj, toJson_obj, Json.mergePatch]
      intro f hf
      exact absurd hf (toJson_ne_obj hs hobj f)
    | true =>
      cases target with
      | null | scalar | arr => cases hobj
      | obj t =>
        rw [mergePatch_obj, toJson_obj, toJson_obj, toJson_obj, Json.mergePatch_obj]
        congr 1
        funext key
        rw [lookup_mergeEntries hp.1]
        cases hk : p.lookup key with
        | none => exact (Json.mergeField_none _).symm
        | some v =>
          dsimp only
          have hmem := (lookup_eq_some_iff hp.1).mp hk
          cases hnull : v.isNull with
          | true =>
            -- the field is taken out
            have hv : toJson s v = .null := by
              cases v with
              | null => rw [toJson]
              | scalar | arr | obj => cases hnull
            rw [Option.map_some, hv, Json.mergeField_null]
            rfl
          | false =>
            rw [Option.map_some, Json.mergeField_some (toJson_ne_null hs hnull)]
            have hih := ih key v hmem (Doc.wf_of_mem hp.2 hmem) ((t.lookup key).getD .null)
            rw [if_neg Bool.false_ne_true, Option.map_some, hih]
            cases t.lookup key with
            | none =>
              rw [Option.getD_none, Option.map_none, Option.getD_none, toJson]
            | some d => rfl

end reports

end NostrSearch.Stats
