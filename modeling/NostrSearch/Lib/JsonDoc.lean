import Mathlib.Tactic

/-!
# JSON documents

A `Doc` is a document as a parser reads it: the fields of an object come in an order, and each key
once (`Wf`). What scalars there are besides `null` is left open. What a document says is its
`Meaning`, in which the fields have no order: two documents are the same JSON when they have the
same meaning.

`Meaning.mergePatch` is the function `MergePatch` of RFC 7386.
-/

namespace NostrSearch.Lib

inductive Doc (α : Type*)
  | null
  | scalar (a : α)
  | arr (items : List (Doc α))
  | obj (fields : List (String × Doc α))

inductive Meaning (α : Type*)
  | null
  | scalar (a : α)
  | arr (items : List (Meaning α))
  | obj (fields : String → Option (Meaning α))

variable {α β : Type*}

/-! ## Fields in an order -/

/-- The fields without the one of `key`. -/
def removeKey (key : String) (fields : List (String × β)) : List (String × β) :=
  fields.filter fun f => f.1 != key

/-- The fields with the value of `key` replaced, or with a new field at the end. -/
def setKey (key : String) (v : β) : List (String × β) → List (String × β)
  | [] => [(key, v)]
  | f :: fields => if f.1 = key then (key, v) :: fields else f :: setKey key v fields

theorem lookup_removeKey_self (key : String) (fields : List (String × β)) :
    (removeKey key fields).lookup key = none := by
  rw [List.lookup_eq_none_iff]
  intro f hf
  have hne := (List.mem_filter.mp hf).2
  rw [bne_iff_ne] at hne
  exact bne_iff_ne.mpr hne.symm

theorem lookup_removeKey_of_ne {key k : String} (h : k ≠ key) (fields : List (String × β)) :
    (removeKey key fields).lookup k = fields.lookup k := by
  induction fields with
  | nil => rfl
  | cons f fields ih =>
    unfold removeKey at ih ⊢
    rw [List.filter_cons]
    split
    · rw [List.lookup_cons, List.lookup_cons, ih]
    case isFalse heq =>
      rw [bne_iff_ne, ne_eq, not_not] at heq
      rw [ih, List.lookup_cons, heq, beq_eq_false_iff_ne.mpr h]

theorem lookup_setKey_self (key : String) (v : β) (fields : List (String × β)) :
    (setKey key v fields).lookup key = some v := by
  induction fields with
  | nil => rw [setKey, List.lookup_cons, BEq.rfl]
  | cons f fields ih =>
    rw [setKey]
    split
    · rw [List.lookup_cons, BEq.rfl]
    case isFalse hne => rw [List.lookup_cons, beq_eq_false_iff_ne.mpr (Ne.symm hne), ih]

theorem lookup_setKey_of_ne {key k : String} (h : k ≠ key) (v : β) (fields : List (String × β)) :
    (setKey key v fields).lookup k = fields.lookup k := by
  induction fields with
  | nil => rw [setKey, List.lookup_cons, beq_eq_false_iff_ne.mpr h]
  | cons f fields ih =>
    rw [setKey]
    split
    case isTrue heq =>
      rw [List.lookup_cons, List.lookup_cons, heq, beq_eq_false_iff_ne.mpr h]
    · rw [List.lookup_cons, List.lookup_cons, ih]

/-- A field that was not there is put at the end. -/
theorem setKey_of_lookup {key : String} {fields : List (String × β)}
    (h : fields.lookup key = none) (v : β) : setKey key v fields = fields ++ [(key, v)] := by
  induction fields with
  | nil => rfl
  | cons f fields ih =>
    rw [List.lookup_cons] at h
    cases hkey : key == f.1 with
    | true =>
      rw [hkey] at h
      cases h
    | false =>
      rw [hkey] at h
      rw [setKey, if_neg (Ne.symm (beq_eq_false_iff_ne.mp hkey)), ih h, List.cons_append]

/-- Where each key is there once, a field is found under its key. -/
theorem lookup_eq_some_iff {fields : List (String × β)} (h : (fields.map Prod.fst).Nodup)
    {key : String} {v : β} : fields.lookup key = some v ↔ (key, v) ∈ fields := by
  induction fields with
  | nil => exact iff_of_false (by rw [List.lookup_nil]; exact nofun) List.not_mem_nil
  | cons f fields ih =>
    obtain ⟨k, u⟩ := f
    obtain ⟨hnotin, hnodup⟩ := List.nodup_cons.mp h
    rw [List.lookup_cons, List.mem_cons, Prod.mk.injEq]
    cases hk : key == k with
    | true =>
      rw [beq_iff_eq] at hk
      subst hk
      dsimp only
      constructor
      · intro hu
        exact Or.inl ⟨rfl, (Option.some.inj hu).symm⟩
      · rintro (⟨-, rfl⟩ | hmem)
        · rfl
        · exact absurd (List.mem_map_of_mem hmem) hnotin
    | false =>
      rw [beq_eq_false_iff_ne] at hk
      dsimp only
      rw [ih hnodup]
      constructor
      · exact Or.inr
      · rintro (⟨hkey, -⟩ | hmem)
        · exact absurd hkey hk
        · exact hmem

theorem lookup_eq_none {fields : List (String × β)} {key : String}
    (h : key ∉ fields.map Prod.fst) : fields.lookup key = none := by
  rw [List.lookup_eq_none_iff]
  intro f hf
  rw [bne_iff_ne]
  rintro rfl
  exact h (List.mem_map_of_mem hf)

/-! ## Documents -/

namespace Doc

def isNull : Doc α → Bool
  | null => true
  | _ => false

def isObj : Doc α → Bool
  | obj _ => true
  | _ => false

/-- The fields of an object. -/
def fields : Doc α → List (String × Doc α)
  | obj fs => fs
  | _ => []

/-- The value under a key, `null` where there is none. -/
def get (d : Doc α) (key : String) : Doc α := (d.fields.lookup key).getD null

/-- **Induction over a document.** -/
theorem induction {motive : Doc α → Prop} (null : motive null) (scalar : ∀ a, motive (scalar a))
    (arr : ∀ items, motive (arr items))
    (obj : ∀ fs, (∀ k v, (k, v) ∈ fs → motive v) → motive (obj fs)) (d : Doc α) : motive d :=
  match d with
  | .null => null
  | .scalar a => scalar a
  | .arr items => arr items
  | .obj fs => obj fs fun _ v _ => induction null scalar arr obj v
termination_by sizeOf d
decreasing_by
  have hfs := List.sizeOf_lt_of_mem ‹_›
  simp only [Prod.mk.sizeOf_spec, Doc.obj.sizeOf_spec] at hfs ⊢
  omega

mutual

/-- No object has a key twice. -/
def Wf : Doc α → Prop
  | null => True
  | scalar _ => True
  | arr items => WfItems items
  | obj fs => (fs.map Prod.fst).Nodup ∧ WfFields fs

def WfItems : List (Doc α) → Prop
  | [] => True
  | d :: items => d.Wf ∧ WfItems items

def WfFields : List (String × Doc α) → Prop
  | [] => True
  | (_, d) :: fs => d.Wf ∧ WfFields fs

end

theorem wf_of_mem {fs : List (String × Doc α)} (h : WfFields fs) {k : String} {v : Doc α}
    (hmem : (k, v) ∈ fs) : v.Wf := by
  induction fs with
  | nil => exact absurd hmem List.not_mem_nil
  | cons f fs ih =>
    obtain ⟨key, d⟩ := f
    rw [WfFields] at h
    rcases List.mem_cons.mp hmem with heq | hmem
    · rw [Prod.mk.injEq] at heq
      rw [heq.2]
      exact h.1
    · exact ih h.2 hmem

mutual

/-- What the document says. -/
def meaning : Doc α → Meaning α
  | null => .null
  | scalar a => .scalar a
  | arr items => .arr (meaningItems items)
  | obj fs => .obj (meaningFields fs)

def meaningItems : List (Doc α) → List (Meaning α)
  | [] => []
  | d :: items => d.meaning :: meaningItems items

def meaningFields : List (String × Doc α) → String → Option (Meaning α)
  | [] => fun _ => none
  | (k, d) :: fs => fun key => if key = k then some d.meaning else meaningFields fs key

end

theorem meaningFields_eq (fs : List (String × Doc α)) (key : String) :
    meaningFields fs key = (fs.lookup key).map meaning := by
  induction fs with
  | nil => rw [meaningFields, List.lookup_nil, Option.map_none]
  | cons f fs ih =>
    obtain ⟨k, d⟩ := f
    rw [meaningFields, List.lookup_cons]
    dsimp only
    by_cases h : key = k
    · rw [if_pos h, h, BEq.rfl]
      rfl
    · rw [if_neg h, beq_eq_false_iff_ne.mpr h, ih]

theorem meaning_obj (fs : List (String × Doc α)) :
    (obj fs).meaning = .obj fun key => (fs.lookup key).map meaning := by
  rw [meaning]
  congr 1
  funext key
  exact meaningFields_eq fs key

theorem meaning_eq_null {d : Doc α} : d.meaning = .null ↔ d.isNull = true := by
  cases d with
  | null => exact iff_of_true (by rw [meaning]) rfl
  | scalar | arr | obj => exact iff_of_false (by rw [meaning]; exact nofun) Bool.false_ne_true

end Doc

/-- A JSON object. -/
structure JsonObject (α : Type*) where
  fields : List (String × Doc α)
  wf : (Doc.obj fields).Wf

/-! ## Merge patches -/

namespace Meaning

/-- The fields of an object; anything else has none. -/
def fields : Meaning α → String → Option (Meaning α)
  | obj f => f
  | _ => fun _ => none

mutual

/-- `MergePatch(Target, Patch)`. -/
def mergePatch (patch target : Meaning α) : Meaning α :=
  match patch with
  | obj p => obj fun key => mergeField (p key) (target.fields key)
  | v => v
termination_by structural patch

/-- The same for one name of the patch. -/
def mergeField (patch target : Option (Meaning α)) : Option (Meaning α) :=
  match patch with
  | none => target
  | some null => none
  | some v => some (mergePatch v (target.getD null))
termination_by structural patch

end

theorem mergePatch_obj (p : String → Option (Meaning α)) (target : Meaning α) :
    mergePatch (obj p) target = obj fun key => mergeField (p key) (target.fields key) := by
  rw [mergePatch]

@[simp] theorem mergeField_none (target : Option (Meaning α)) :
    mergeField none target = target := by
  rw [mergeField]

@[simp] theorem mergeField_null (target : Option (Meaning α)) :
    mergeField (some null) target = none := by
  rw [mergeField]

theorem mergeField_some {v : Meaning α} (hv : v ≠ null) (target : Option (Meaning α)) :
    mergeField (some v) target = some (mergePatch v (target.getD null)) := by
  rw [mergeField]
  exact hv

theorem obj_inj {f g : String → Option (Meaning α)} :
    (obj f : Meaning α) = obj g ↔ ∀ key, f key = g key := by
  rw [obj.injEq, funext_iff]

end Meaning

/-- The fields a document has, as they are meant. -/
theorem Doc.fields_meaning (d : Doc α) (key : String) :
    d.meaning.fields key = (d.fields.lookup key).map Doc.meaning := by
  cases d with
  | obj fs =>
    rw [Doc.meaning_obj]
    rfl
  | null | scalar | arr =>
    rw [Doc.meaning]
    rfl

/-- A field of a patch, over a document. -/
theorem Meaning.mergeField_meaning (v : Option (Doc α)) (target : Doc α) (key : String) :
    Meaning.mergeField (v.map Doc.meaning) (target.meaning.fields key) =
      match v with
      | none => (target.fields.lookup key).map Doc.meaning
      | some v => if v.isNull then none
        else some (Meaning.mergePatch v.meaning (target.get key).meaning) := by
  rw [Doc.fields_meaning]
  cases v with
  | none => exact Meaning.mergeField_none _
  | some v =>
    dsimp only
    rw [Option.map_some]
    split
    case isTrue hnull => rw [Doc.meaning_eq_null.mpr hnull, Meaning.mergeField_null]
    case isFalse hne =>
      rw [Meaning.mergeField_some fun h => hne (Doc.meaning_eq_null.mp h), Doc.get]
      cases target.fields.lookup key with
      | none =>
        rw [Option.map_none, Option.getD_none, Option.getD_none]
        rw [Doc.meaning]
      | some t => rfl

end NostrSearch.Lib
