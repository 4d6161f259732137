import Mathlib.Tactic

/-!
# JSON values and merge patches

An object is a family of fields: it has no order and no key twice, so that two objects are the
same value when they have the same fields. Numbers are the unsigned integers.

`mergePatch` is the patch of the reports: objects are merged field by field, a `null` takes the
field out, and anything else replaces what is there. The objects of a map are `Keys.obj`, where
`Keys` is how keys are spelled, and the objects of a structure are `record`.
-/

namespace NostrSearch.Lib

inductive Json
  | null
  | bool (b : Bool)
  | num (n : ℕ)
  | str (s : String)
  | arr (items : List Json)
  | obj (fields : String → Option Json)

namespace Json

mutual

/-- Apply the merge patch `patch` to `target`. -/
def mergePatch (patch target : Json) : Json :=
  match patch with
  | obj p =>
    match target with
    | obj t => obj fun k => mergeField (p k) (t k)
    | _ => obj p
  | v => v
termination_by structural patch

/-- The same for one field of an object, which either of them may be without. -/
def mergeField (patch target : Option Json) : Option Json :=
  match patch with
  | none => target
  | some null => none
  | some v => some (mergePatch v (target.getD null))
termination_by structural patch

end

/-- The value under a key of an object. -/
def get (j : Json) (key : String) : Option Json :=
  match j with
  | obj fields => fields key
  | _ => none

/-- The item of an array. -/
def item (j : Json) (i : ℕ) : Option Json :=
  match j with
  | arr items => items[i]?
  | _ => none

def asArr (j : Json) : Option (List Json) :=
  match j with
  | arr items => some items
  | _ => none

def asStr (j : Json) : Option String :=
  match j with
  | str s => some s
  | _ => none

variable {v t : Json}

theorem mergePatch_obj (p t : String → Option Json) :
    mergePatch (obj p) (obj t) = obj fun k => mergeField (p k) (t k) := by
  rw [mergePatch]

@[simp] theorem mergePatch_num (n : ℕ) (t : Json) : mergePatch (num n) t = num n := by
  rw [mergePatch]
  intro p h
  cases h

@[simp] theorem mergeField_none (t : Option Json) : mergeField none t = t := by
  rw [mergeField]

@[simp] theorem mergeField_null (t : Option Json) : mergeField (some null) t = none := by
  rw [mergeField]

theorem mergeField_some (hv : v ≠ null) (t : Option Json) :
    mergeField (some v) t = some (mergePatch v (t.getD null)) := by
  rw [mergeField]
  exact hv

/-- A field that was not there is there as the patch has it. -/
@[simp] theorem mergePatch_null_target (v : Json) : mergePatch v null = v := by
  cases v with
  | obj p =>
    rw [mergePatch]
    intro t h
    cases h
  | null | bool | num | str | arr =>
    rw [mergePatch]
    intro p h
    cases h

/-- A field that is patched with an object's value. -/
theorem mergeField_some_some (hv : v ≠ null) (t : Json) :
    mergeField (some v) (some t) = some (mergePatch v t) := by
  rw [mergeField_some hv, Option.getD_some]

/-- A field that was not there. -/
theorem mergeField_some_none (hv : v ≠ null) : mergeField (some v) none = some v := by
  rw [mergeField_some hv, Option.getD_none, mergePatch_null_target]

/-! ## Records -/

/-- The object with these fields. -/
def record (fields : List (String × Json)) : Json := obj fun k => fields.lookup k

@[simp] theorem record_ne_null (fields : List (String × Json)) : record fields ≠ null := by
  intro h
  cases h

/-- `RecordPatch p t r`: field by field, `p` patched over `t` is `r`. -/
inductive RecordPatch :
    List (String × Json) → List (String × Json) → List (String × Json) → Prop
  | nil : RecordPatch [] [] []
  | cons {key : String} {v u w : Json} {p t r : List (String × Json)} (hv : v ≠ null)
      (h : mergePatch v u = w) (rest : RecordPatch p t r) :
      RecordPatch ((key, v) :: p) ((key, u) :: t) ((key, w) :: r)
  /-- a field the patch leaves out -/
  | skip {key : String} {u : Json} {p t r : List (String × Json)} (hkey : p.lookup key = none)
      (rest : RecordPatch p t r) : RecordPatch p ((key, u) :: t) ((key, u) :: r)

/-- Patching a record, field by field. -/
theorem mergePatch_record {p t r : List (String × Json)} (h : RecordPatch p t r) :
    mergePatch (record p) (record t) = record r := by
  rw [record, record, mergePatch_obj, record]
  congr 1
  funext k
  induction h with
  | nil => exact mergeField_none none
  | @cons key v u w p t r hv hpatch _ ih =>
    rw [List.lookup_cons, List.lookup_cons, List.lookup_cons]
    cases k == key with
    | false => exact ih
    | true =>
      show mergeField (some v) (some u) = some w
      rw [mergeField_some_some hv, hpatch]
  | @skip key u p t r hkey _ ih =>
    rw [List.lookup_cons, List.lookup_cons]
    cases hk : k == key with
    | false => exact ih
    | true =>
      rw [beq_iff_eq] at hk
      rw [hk, hkey, mergeField_none]

end Json

/-! ## Maps -/

/-- How the keys of a map are spelled in an object. -/
structure Keys (κ : Type*) where
  name : κ → String
  parse : String → Option κ
  parse_name : ∀ k, parse (name k) = some k

namespace Keys

/-- Numbers in decimal. -/
def nat : Keys ℕ where
  name := Nat.repr
  parse s :=
    let n := Nat.ofDigitChars 10 s.toList 0
    if n.repr = s then some n else none
  parse_name n := by
    have hn : Nat.ofDigitChars 10 n.repr.toList 0 = n := by
      rw [Nat.toList_repr]
      exact Nat.ofDigitChars_toDigits (by omega) (by omega)
    show (if (Nat.ofDigitChars 10 n.repr.toList 0).repr = n.repr then _ else none) = some n
    rw [if_pos (by rw [hn]), hn]

/-- Strings as they are. -/
def string : Keys String where
  name s := s
  parse s := some s
  parse_name _ := rfl

variable {κ : Type*} (c : Keys κ)

/-- The object that has the field of `k` with the value `f k`. -/
def obj (f : κ → Option Json) : Json := Json.obj fun s => (c.parse s).bind f

theorem get_obj (f : κ → Option Json) (k : κ) : (c.obj f).get (c.name k) = f k := by
  show (c.parse (c.name k)).bind f = f k
  rw [c.parse_name, Option.bind_some]

@[simp] theorem obj_ne_null (f : κ → Option Json) : c.obj f ≠ Json.null := by
  intro h
  cases h

/-- Patching a map, key by key. -/
theorem mergePatch_obj {p f g : κ → Option Json} (h : ∀ k, Json.mergeField (p k) (f k) = g k) :
    Json.mergePatch (c.obj p) (c.obj f) = c.obj g := by
  rw [obj, obj, Json.mergePatch_obj, obj]
  congr 1
  funext s
  cases c.parse s with
  | none => exact Json.mergeField_none none
  | some k => exact h k

end Keys

end NostrSearch.Lib
