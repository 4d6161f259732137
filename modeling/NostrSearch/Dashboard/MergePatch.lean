import NostrSearch.Lib.JsonDoc
import NostrSearch.Stats.MergePatch

/-!
# `mergePatch` of the dashboard

The same patch in the browser. A JavaScript object has properties of its own and a prototype: a name
it has no property for is looked up along the prototypes, and `__proto__` is not a name like any
other there. Reading it gives the prototype, and assigning to it replaces the prototype, unless the
object has a property of that name of its own, as `JSON.parse` makes them.

So a patch with a `__proto__` in it is not RFC 7386 where the target has none of its own
(`ownProto`), and everywhere else it is (`mergePatch_iff`). `merge_patch_iff` puts the two languages
together.
-/

namespace NostrSearch.Dashboard

open NostrSearch.Lib

/-- What JSON and `mergePatch` have to do with of the values of JavaScript. The prototype of an
object is `none` for `Object.prototype`. -/
inductive JsVal (α : Type*)
  | undefined
  | null
  /-- a boolean, a number or a string -/
  | scalar (a : α)
  /-- what `Object.prototype` and `Array.prototype` have under a name: a function, or a length -/
  | builtin
  | arr (items : List (JsVal α))
  | obj (own : List (String × JsVal α)) (proto : Option (JsVal α))

namespace JsVal

variable {α : Type*}

/-! ## To and from JSON -/

mutual

/-- `JSON.parse`: every field is a property of its own, `__proto__` like the others. -/
def parse : Doc α → JsVal α
  | .null => .null
  | .scalar a => .scalar a
  | .arr items => .arr (parseItems items)
  | .obj fs => .obj (parseFields fs) none

def parseItems : List (Doc α) → List (JsVal α)
  | [] => []
  | d :: items => parse d :: parseItems items

def parseFields : List (String × Doc α) → List (String × JsVal α)
  | [] => []
  | (k, d) :: fs => (k, parse d) :: parseFields fs

end

mutual

/-- `JSON.stringify`, `none` for what is no JSON. Prototypes are not written. -/
def json : JsVal α → Option (Meaning α)
  | undefined => none
  | builtin => none
  | null => some .null
  | scalar a => some (.scalar a)
  | arr items => some (.arr (jsonItems items))
  | obj own _ => some (.obj (jsonFields own))

def jsonItems : List (JsVal α) → List (Meaning α)
  | [] => []
  | v :: items => v.json.getD .null :: jsonItems items

def jsonFields : List (String × JsVal α) → String → Option (Meaning α)
  | [] => fun _ => none
  | (k, v) :: own => fun key => if key = k then v.json else jsonFields own key

end

/-! ## Properties -/

/-- Whether `typeof` says `"object"` of it and it is not `null`. -/
def isObject : JsVal α → Bool
  | arr _ => true
  | obj _ _ => true
  | _ => false

def objectPrototype : List String :=
  ["constructor", "hasOwnProperty", "isPrototypeOf", "propertyIsEnumerable", "toLocaleString",
    "toString", "valueOf", "__defineGetter__", "__defineSetter__", "__lookupGetter__",
    "__lookupSetter__"]

def arrayPrototype : List String :=
  ["length", "constructor", "at", "concat", "copyWithin", "entries", "every", "fill", "filter", "find",
    "findIndex", "findLast", "findLastIndex", "flat", "flatMap", "forEach", "includes", "indexOf",
    "join", "keys", "lastIndexOf", "map", "pop", "push", "reduce", "reduceRight", "reverse", "shift",
    "slice", "some", "sort", "splice", "toLocaleString", "toReversed", "toSorted", "toSpliced",
    "toString", "unshift", "values", "with"]

/-- The property of this name that an object takes over from its prototypes. -/
def inherited : Option (JsVal α) → String → Option (JsVal α)
  | some (obj own proto), key =>
    match own.lookup key with
    | some v => some v
    | none => inherited proto key
  | some (arr items), key =>
    match (items.zipIdx.find? fun i => toString i.2 = key) with
    | some i => some i.1
    | none => if key ∈ arrayPrototype ∨ key ∈ objectPrototype then some builtin else none
  | _, key => if key ∈ objectPrototype then some builtin else none

/-- `base[key]`. -/
def get (own : List (String × JsVal α)) (proto : Option (JsVal α)) (key : String) : JsVal α :=
  match own.lookup key with
  | some v => v
  | none =>
    match inherited proto key with
    | some v => v
    | none =>
      -- the getter; what `Object.prototype` has of its own is not enumerable
      if key = "__proto__" then proto.getD (obj [] none) else undefined

/-- `base[key] = v`. The order in which an object has its properties is left out. -/
def set (own : List (String × JsVal α)) (proto : Option (JsVal α)) (key : String) (v : JsVal α) :
    List (String × JsVal α) × Option (JsVal α) :=
  if (own.lookup key).isSome ∨ (inherited proto key).isSome ∨ key ≠ "__proto__" then
    (setKey key v own, proto)
  else
    -- the setter, which takes objects only
    (own, if v.isObject then some v else proto)

end JsVal

variable {α : Type*}

open JsVal (parse)

mutual

/-- JSON merge patch (RFC 7386), matching the node's `merge_patch`. -/
def mergePatch (target : JsVal α) (patch : Doc α) : JsVal α :=
  match patch with
  | .null => .undefined
  | .scalar a => .scalar a
  | .arr items => parse (.arr items)
  | .obj p =>
    match target with
    | .obj own _ => mergeEntries p own none
    | _ => mergeEntries p [] none
termination_by structural patch

/-- The loop over `Object.entries(patch)`. -/
def mergeEntries (patch : List (String × Doc α)) (own : List (String × JsVal α))
    (proto : Option (JsVal α)) : JsVal α :=
  match patch with
  | [] => .obj own proto
  | (k, v) :: p =>
    if v.isNull then mergeEntries p (removeKey k own) proto
    else
      let base := JsVal.set own proto k (mergePatch (JsVal.get own proto k) v)
      mergeEntries p base.1 base.2
termination_by structural patch

end

mutual

/-- A `__proto__` of the patch that is not `null` meets one that the target has of its own. -/
def ownProto : Doc α → Doc α → Bool
  | .obj p, target => ownProtoFields p target
  | _, _ => true

def ownProtoFields : List (String × Doc α) → Doc α → Bool
  | [], _ => true
  | (k, v) :: p, target =>
    (v.isNull ||
        (k != "__proto__" || (target.fields.lookup k).isSome) && ownProto v (target.get k)) &&
      ownProtoFields p target

end

/-! ## Properties of parsed objects -/

namespace JsVal

theorem lookup_parseFields (fs : List (String × Doc α)) (key : String) :
    (parseFields fs).lookup key = (fs.lookup key).map parse := by
  induction fs with
  | nil => rw [parseFields, List.lookup_nil, List.lookup_nil, Option.map_none]
  | cons f fs ih =>
    obtain ⟨k, d⟩ := f
    rw [parseFields, List.lookup_cons, List.lookup_cons]
    cases key == k with
    | true => rfl
    | false => exact ih

theorem jsonFields_eq (own : List (String × JsVal α)) (key : String) :
    jsonFields own key = (own.lookup key).bind json := by
  induction own with
  | nil => rw [jsonFields, List.lookup_nil, Option.bind_none]
  | cons f own ih =>
    obtain ⟨k, v⟩ := f
    rw [jsonFields, List.lookup_cons]
    dsimp only
    by_cases h : key = k
    · rw [if_pos h, h, BEq.rfl]
      rfl
    · rw [if_neg h, beq_eq_false_iff_ne.mpr h, ih]

theorem json_obj (own : List (String × JsVal α)) (proto : Option (JsVal α)) :
    (obj own proto).json = some (.obj fun key => (own.lookup key).bind json) := by
  rw [json]
  congr 2
  funext key
  exact jsonFields_eq own key

mutual

/-- What is parsed and written again is the same JSON. -/
theorem json_parse : ∀ d : Doc α, (parse d).json = some d.meaning
  | .null => by rw [parse, json, Doc.meaning]
  | .scalar a => by rw [parse, json, Doc.meaning]
  | .arr items => by rw [parse, json, Doc.meaning, jsonItems_parseItems items]
  | .obj fs => by
    rw [parse, json, Doc.meaning, jsonFields_parseFields fs]

theorem jsonItems_parseItems : ∀ items : List (Doc α),
    jsonItems (parseItems items) = Doc.meaningItems items
  | [] => by rw [parseItems, jsonItems, Doc.meaningItems]
  | d :: items => by
    rw [parseItems, jsonItems, Doc.meaningItems, json_parse d, jsonItems_parseItems items,
      Option.getD_some]

theorem jsonFields_parseFields : ∀ fs : List (String × Doc α),
    jsonFields (parseFields fs) = Doc.meaningFields fs
  | [] => by rw [parseFields, jsonFields, Doc.meaningFields]
  | (k, d) :: fs => by
    rw [parseFields, jsonFields, Doc.meaningFields, json_parse d, jsonFields_parseFields fs]

end

mutual

/-- Nothing is lost in parsing. -/
theorem parse_inj : ∀ {d e : Doc α}, parse d = parse e → d = e
  | .null, e, h => by
    cases e with
    | null => rfl
    | scalar | arr | obj => simp only [parse, reduceCtorEq] at h
  | .scalar a, e, h => by
    cases e with
    | scalar b =>
      rw [parse, parse, scalar.injEq] at h
      rw [h]
    | null | arr | obj => simp only [parse, reduceCtorEq] at h
  | .arr items, e, h => by
    cases e with
    | arr items' =>
      rw [parse, parse, arr.injEq] at h
      rw [parseItems_inj h]
    | null | scalar | obj => simp only [parse, reduceCtorEq] at h
  | .obj fs, e, h => by
    cases e with
    | obj fs' =>
      rw [parse, parse, obj.injEq] at h
      rw [parseFields_inj h.1]
    | null | scalar | arr => simp only [parse, reduceCtorEq] at h

theorem parseItems_inj : ∀ {ds es : List (Doc α)}, parseItems ds = parseItems es → ds = es
  | [], [], _ => rfl
  | [], _ :: _, h => by simp only [parseItems, reduceCtorEq] at h
  | _ :: _, [], h => by simp only [parseItems, reduceCtorEq] at h
  | d :: ds, e :: es, h => by
    rw [parseItems, parseItems, List.cons.injEq] at h
    rw [parse_inj h.1, parseItems_inj h.2]

theorem parseFields_inj : ∀ {fs gs : List (String × Doc α)},
    parseFields fs = parseFields gs → fs = gs
  | [], [], _ => rfl
  | [], (_, _) :: _, h => by simp only [parseFields, reduceCtorEq] at h
  | (_, _) :: _, [], h => by simp only [parseFields, reduceCtorEq] at h
  | (k, d) :: fs, (k', e) :: gs, h => by
    rw [parseFields, parseFields, List.cons.injEq, Prod.mk.injEq] at h
    rw [h.1.1, parse_inj h.1.2, parseFields_inj h.2]

end

/-- A property of its own is found first. -/
theorem get_own {own : List (String × JsVal α)} {key : String} {v : JsVal α}
    (h : own.lookup key = some v) (proto : Option (JsVal α)) : get own proto key = v := by
  rw [get, h]

theorem inherited_none (key : String) : inherited (none : Option (JsVal α)) key = none ∨
    inherited (none : Option (JsVal α)) key = some builtin := by
  simp only [inherited]
  split
  · exact Or.inr rfl
  · exact Or.inl rfl

/-- What a plain object takes over is no object, except under `__proto__`. -/
theorem get_inherited {own : List (String × JsVal α)} {key : String} (h : own.lookup key = none)
    (hkey : key ≠ "__proto__") : get own none key = undefined ∨ get own none key = builtin := by
  rw [get, h]
  dsimp only
  rcases inherited_none (α := α) key with hnone | hbuiltin
  · rw [hnone]
    exact Or.inl (if_neg hkey)
  · rw [hbuiltin]
    exact Or.inr rfl

/-- Assigning to an object that is plain so far. -/
theorem set_plain {own : List (String × JsVal α)} {key : String}
    (h : key = "__proto__" → (own.lookup key).isSome) (v : JsVal α) :
    set own none key v = (setKey key v own, none) := by
  rw [set, if_pos]
  by_cases hkey : key = "__proto__"
  · exact Or.inl (h hkey)
  · exact Or.inr (Or.inr hkey)

theorem lookup_set_of_ne {own : List (String × JsVal α)} {proto : Option (JsVal α)}
    {key k : String} (h : k ≠ key) (v : JsVal α) :
    (set own proto key v).1.lookup k = own.lookup k := by
  rw [set]
  split
  · exact lookup_setKey_of_ne h v own
  · rfl

/-- Assigning to `__proto__` makes no property of that name. -/
theorem lookup_set_proto {own : List (String × JsVal α)} (h : own.lookup "__proto__" = none)
    (v : JsVal α) : (set own none "__proto__" v).1.lookup "__proto__" = none := by
  rw [set, if_neg]
  · exact h
  · rw [h]
    simp [inherited, objectPrototype]

end JsVal

/-! ## The loop -/

/-- The loop of a plain object, for a target read from JSON. -/
theorem mergePatch_obj (target : Doc α) (p : List (String × Doc α)) :
    mergePatch (parse target) (.obj p) = mergeEntries p (JsVal.parseFields target.fields) none := by
  cases target with
  | obj t =>
    rw [parse, mergePatch]
    rfl
  | null | scalar | arr =>
    rw [parse, mergePatch]
    · rfl
    · exact nofun

/-- Over what is no object, the patch goes over `{}`. -/
theorem mergePatch_of_not_obj {target : JsVal α} (h : ∀ own proto, target ≠ .obj own proto)
    (patch : Doc α) : mergePatch target patch = mergePatch (parse .null) patch := by
  cases patch with
  | null | scalar | arr => rw [mergePatch, mergePatch]
  | obj p =>
    rw [mergePatch_obj]
    cases target with
    | obj own proto => exact absurd rfl (h own proto)
    | undefined | null | scalar | builtin | arr =>
      rw [mergePatch]
      · rfl
      · exact nofun

/-- Who has no turn keeps what it had. -/
theorem lookup_mergeEntries_of_notMem {p : List (String × Doc α)} {key : String}
    (h : key ∉ p.map Prod.fst) (own : List (String × JsVal α)) (proto : Option (JsVal α)) :
    ∃ own' proto', mergeEntries p own proto = .obj own' proto' ∧
      own'.lookup key = own.lookup key := by
  induction p generalizing own proto with
  | nil => exact ⟨own, proto, by rw [mergeEntries], rfl⟩
  | cons f p ih =>
    obtain ⟨k, v⟩ := f
    rw [List.map_cons, List.mem_cons, not_or] at h
    rw [mergeEntries]
    split
    · obtain ⟨own', proto', hloop, hlookup⟩ := ih h.2 (removeKey k own) proto
      exact ⟨own', proto', hloop, hlookup.trans (lookup_removeKey_of_ne h.1 own)⟩
    · obtain ⟨own', proto', hloop, hlookup⟩ := ih h.2 _ _
      exact ⟨own', proto', hloop, hlookup.trans (JsVal.lookup_set_of_ne h.1 _)⟩

/-- An object without a property `__proto__` does not get one. -/
theorem lookup_proto_mergeEntries {p : List (String × Doc α)} (hp : (p.map Prod.fst).Nodup)
    {own : List (String × JsVal α)} (h : own.lookup "__proto__" = none) :
    ∃ own' proto', mergeEntries p own none = .obj own' proto' ∧
      own'.lookup "__proto__" = none := by
  induction p generalizing own with
  | nil => exact ⟨own, none, by rw [mergeEntries], h⟩
  | cons f p ih =>
    obtain ⟨k, v⟩ := f
    obtain ⟨hnotin, hnodup⟩ := List.nodup_cons.mp hp
    by_cases hk : k = "__proto__"
    · -- its turn, and it has no other
      subst hk
      rw [mergeEntries]
      split
      · obtain ⟨own', proto', hloop, hlookup⟩ :=
          lookup_mergeEntries_of_notMem hnotin (removeKey "__proto__" own) none
        exact ⟨own', proto', hloop, hlookup.trans (lookup_removeKey_self _ own)⟩
      · obtain ⟨own', proto', hloop, hlookup⟩ := lookup_mergeEntries_of_notMem hnotin _ _
        exact ⟨own', proto', hloop, hlookup.trans (JsVal.lookup_set_proto h _)⟩
    · rw [mergeEntries]
      split
      · exact ih hnodup (by rw [lookup_removeKey_of_ne (Ne.symm hk), h])
      · rw [JsVal.set_plain fun hkey => absurd hkey hk]
        exact ih hnodup (by rw [lookup_setKey_of_ne (Ne.symm hk), h])

/-- **What the loop does** to each property, where `__proto__` is one like the others. -/
theorem lookup_mergeEntries {p : List (String × Doc α)} (hp : (p.map Prod.fst).Nodup)
    {own : List (String × JsVal α)}
    (hproto : ∀ v, p.lookup "__proto__" = some v → v.isNull = false →
      (own.lookup "__proto__").isSome) :
    ∃ own', mergeEntries p own none = .obj own' none ∧ ∀ key, own'.lookup key =
      match p.lookup key with
      | none => own.lookup key
      | some v => if v.isNull then none else some (mergePatch (JsVal.get own none key) v) := by
  induction p generalizing own with
  | nil =>
    refine ⟨own, by rw [mergeEntries], fun key => ?_⟩
    rw [List.lookup_nil]
  | cons f p ih =>
    obtain ⟨k, v⟩ := f
    obtain ⟨hnotin, hnodup⟩ := List.nodup_cons.mp hp
    have hnone : p.lookup k = none := lookup_eq_none hnotin
    have hcons : ∀ key, key ≠ k → ((k, v) :: p).lookup key = p.lookup key := by
      intro key hkey
      rw [List.lookup_cons, beq_eq_false_iff_ne.mpr hkey]
    have hself : ((k, v) :: p).lookup k = some v := by rw [List.lookup_cons, BEq.rfl]
    -- the turns that follow, from whatever this one leaves under `k`
    have hrest : ∀ own₁ : List (String × JsVal α),
        own₁.lookup k =
          (if v.isNull then none else some (mergePatch (JsVal.get own none k) v)) →
        (∀ key, key ≠ k → own₁.lookup key = own.lookup key) →
        ∃ own', mergeEntries p own₁ none = .obj own' none ∧ ∀ key, own'.lookup key =
          match ((k, v) :: p).lookup key with
          | none => own.lookup key
          | some v =>
            if v.isNull then none else some (mergePatch (JsVal.get own none key) v) := by
      intro own₁ hk₁ hsame
      obtain ⟨own', hloop, hlookup⟩ := @ih hnodup own₁ <| by
        intro u hu hnull
        by_cases hk : "__proto__" = k
        · rw [hk, hnone] at hu
          cases hu
        · rw [hsame _ hk]
          exact hproto u ((hcons _ hk).trans hu) hnull
      refine ⟨own', hloop, fun key => ?_⟩
      by_cases hkey : key = k
      · subst hkey
        rw [hlookup, hnone, hself]
        exact hk₁
      · have hget : JsVal.get own₁ none key = JsVal.get own none key := by
          rw [JsVal.get, JsVal.get, hsame key hkey]
        rw [hlookup, hcons key hkey, hget, hsame key hkey]
    rw [mergeEntries]
    cases hnull : v.isNull with
    | true =>
      rw [if_pos rfl]
      apply hrest
      · rw [lookup_removeKey_self, if_pos hnull]
      · exact fun key hkey => lookup_removeKey_of_ne hkey own
    | false =>
      have hown : k = "__proto__" → (own.lookup k).isSome := by
        rintro rfl
        exact hproto v hself hnull
      rw [if_neg Bool.false_ne_true, JsVal.set_plain hown]
      apply hrest
      · rw [lookup_setKey_self, hnull, if_neg Bool.false_ne_true]
      · exact fun key hkey => lookup_setKey_of_ne hkey _ own

/-! ## RFC 7386 -/

theorem ownProtoFields_iff {p : List (String × Doc α)} (hp : (p.map Prod.fst).Nodup)
    (target : Doc α) : ownProtoFields p target = true ↔
      ∀ k v, p.lookup k = some v → v.isNull = false →
        (k = "__proto__" → (target.fields.lookup k).isSome) ∧ ownProto v (target.get k) = true := by
  simp only [lookup_eq_some_iff hp]
  clear hp
  have hfield : ∀ k (v : Doc α), (v.isNull || (k != "__proto__" ||
      (target.fields.lookup k).isSome) && ownProto v (target.get k)) = true ↔
      (v.isNull = false → (k = "__proto__" → (target.fields.lookup k).isSome) ∧
        ownProto v (target.get k) = true) := by
    intro k v
    cases v.isNull with
    | true => simp
    | false =>
      by_cases hk : k = "__proto__"
      · simp [hk]
      · simp [hk]
  induction p with
  | nil => exact iff_of_true rfl nofun
  | cons f p ih =>
    obtain ⟨k, v⟩ := f
    rw [ownProtoFields, Bool.and_eq_true, hfield]
    refine (and_congr_right' ih).trans ⟨?_, ?_⟩
    · rintro ⟨hv, hrest⟩ k' v' hmem
      rcases List.mem_cons.mp hmem with heq | hmem
      · rw [Prod.mk.injEq] at heq
        rw [heq.1, heq.2]
        exact hv
      · exact hrest k' v' hmem
    · intro h
      exact ⟨h k v List.mem_cons_self, fun k' v' hmem => h k' v' (List.mem_cons_of_mem _ hmem)⟩

/-- What is found under a key of a parsed object, for `mergePatch`. -/
theorem mergePatch_get {fs : List (String × Doc α)} {key : String}
    (hfound : key = "__proto__" → (fs.lookup key).isSome) (v : Doc α) :
    mergePatch (JsVal.get (JsVal.parseFields fs) none key) v =
      mergePatch (parse ((fs.lookup key).getD .null)) v := by
  cases hd : fs.lookup key with
  | some d =>
    rw [JsVal.get_own (v := parse d) (by rw [JsVal.lookup_parseFields, hd]; rfl)]
    rfl
  | none =>
    have hkey : key ≠ "__proto__" := by
      intro hkey
      have hsome := hfound hkey
      rw [hd] at hsome
      cases hsome
    have hown : (JsVal.parseFields fs).lookup key = none := by
      rw [JsVal.lookup_parseFields, hd]
      rfl
    rw [Option.getD_none]
    apply mergePatch_of_not_obj
    intro own proto h
    rcases JsVal.get_inherited hown hkey with hget | hget
    · rw [hget] at h
      cases h
    · rw [hget] at h
      cases h

/-- A `__proto__` that meets none is missing from the result, and RFC 7386 has it there. -/
theorem json_ne_of_missing {p : List (String × Doc α)} (hp : (p.map Prod.fst).Nodup) {v : Doc α}
    (hv : p.lookup "__proto__" = some v) (hnull : v.isNull = false) {target : Doc α}
    (hmissing : target.fields.lookup "__proto__" = none) :
    (mergeEntries p (JsVal.parseFields target.fields) none).json ≠
      some (.obj fun key =>
        Meaning.mergeField ((p.lookup key).map Doc.meaning) (target.meaning.fields key)) := by
  obtain ⟨own', proto', hloop, hlookup⟩ := @lookup_proto_mergeEntries _ p hp
    (JsVal.parseFields target.fields) (by rw [JsVal.lookup_parseFields, hmissing]; rfl)
  rw [hloop, JsVal.json_obj, ne_eq, Option.some.injEq, Meaning.obj_inj]
  intro h
  have hfield := h "__proto__"
  rw [hlookup, Meaning.mergeField_meaning, hv] at hfield
  dsimp only at hfield
  rw [if_neg (by rw [hnull]; exact Bool.false_ne_true)] at hfield
  cases hfield

/-- The dashboard's patch is RFC 7386 where each `__proto__` meets one, and nowhere else. -/
theorem mergePatch_iff {patch : Doc α} (hp : patch.Wf) (hnull : patch.isNull = false)
    (target : Doc α) :
    (mergePatch (parse target) patch).json =
        some (Meaning.mergePatch patch.meaning target.meaning) ↔
      ownProto patch target = true := by
  induction patch using Doc.induction generalizing target with
  | null => cases hnull
  | scalar a =>
    refine iff_of_true ?_ (by rw [ownProto]; rintro fs ⟨⟩)
    rw [mergePatch, JsVal.json, Doc.meaning, Meaning.mergePatch]
    rintro fs ⟨⟩
  | arr items =>
    refine iff_of_true ?_ (by rw [ownProto]; rintro fs ⟨⟩)
    rw [mergePatch, JsVal.json_parse, Doc.meaning, Meaning.mergePatch]
    rintro fs ⟨⟩
  | obj p ih =>
    rw [Doc.Wf] at hp
    rw [ownProto, ownProtoFields_iff hp.1, Doc.meaning_obj p, Meaning.mergePatch_obj,
      mergePatch_obj]
    -- `__proto__` is a field like the others, or it is lost
    by_cases hproto : ∀ v, p.lookup "__proto__" = some v → v.isNull = false →
        (target.fields.lookup "__proto__").isSome
    · obtain ⟨own', hloop, hlookup⟩ := @lookup_mergeEntries _ p hp.1
        (JsVal.parseFields target.fields) <| by
          intro v hv hnull
          rw [JsVal.lookup_parseFields, Option.isSome_map]
          exact hproto v hv hnull
      rw [hloop, JsVal.json_obj, Option.some.injEq, Meaning.obj_inj]
      apply forall_congr'
      intro key
      rw [hlookup, Meaning.mergeField_meaning]
      cases hk : p.lookup key with
      | none =>
        refine iff_of_true ?_ (by rintro v ⟨⟩)
        dsimp only
        rw [JsVal.lookup_parseFields]
        cases target.fields.lookup key with
        | none => rfl
        | some d => exact JsVal.json_parse d
      | some v =>
        simp only [Option.some.injEq, forall_eq']
        cases hvnull : v.isNull with
        | true => simp
        | false =>
          have hmem := (lookup_eq_some_iff hp.1).mp hk
          have hfound : key = "__proto__" → (target.fields.lookup key).isSome := by
            rintro rfl
            exact hproto v hk hvnull
          -- what is inherited is no object, so it is replaced as if it were not there
          have hget : mergePatch (JsVal.get (JsVal.parseFields target.fields) none key) v =
              mergePatch (parse (target.get key)) v := mergePatch_get hfound v
          rw [if_neg Bool.false_ne_true, if_neg Bool.false_ne_true, Option.bind_some, hget]
          simp only [forall_const]
          rw [ih key v hmem (Doc.wf_of_mem hp.2 hmem) hvnull (target.get key)]
          exact (and_iff_right hfound).symm
    · push Not at hproto
      obtain ⟨v, hv, hvnull, hmissing⟩ := hproto
      rw [ne_eq, Option.not_isSome_iff_eq_none] at hmissing
      refine iff_of_false (json_ne_of_missing hp.1 hv hvnull hmissing) ?_
      intro h
      have hsome := (h "__proto__" v hv hvnull).1 rfl
      rw [hmissing] at hsome
      cases hsome

/-! ## The same objects -/

namespace JsVal

theorem parseFields_removeKey (key : String) (fs : List (String × Doc α)) :
    parseFields (removeKey key fs) = removeKey key (parseFields fs) := by
  induction fs with
  | nil => rfl
  | cons f fs ih =>
    obtain ⟨k, d⟩ := f
    rw [removeKey, removeKey] at ih
    rw [removeKey, List.filter_cons, parseFields, removeKey, List.filter_cons]
    dsimp only
    split
    · rw [parseFields, ih]
    · exact ih

theorem parseFields_setKey (key : String) (d : Doc α) (fs : List (String × Doc α)) :
    parseFields (setKey key d fs) = setKey key (parse d) (parseFields fs) := by
  induction fs with
  | nil => rw [setKey, parseFields, parseFields, parseFields, setKey]
  | cons f fs ih =>
    obtain ⟨k, d'⟩ := f
    rw [setKey, parseFields, setKey]
    dsimp only
    split
    · rw [parseFields]
    · rw [parseFields, ih]

end JsVal

/-- The two loops, where they do the same with each field. -/
theorem mergeEntries_parseFields {p : List (String × Doc α)} (hp : (p.map Prod.fst).Nodup)
    {t : List (String × Doc α)}
    (h : ∀ k v, (k, v) ∈ p → v.isNull = false → (k = "__proto__" → (t.lookup k).isSome) ∧
      mergePatch (parse ((t.lookup k).getD .null)) v =
        parse (Stats.mergePatch ((t.lookup k).getD .null) v)) :
    mergeEntries p (JsVal.parseFields t) none = parse (.obj (Stats.mergeEntries p t)) := by
  induction p generalizing t with
  | nil => rw [mergeEntries, Stats.mergeEntries, parse]
  | cons f p ih =>
    obtain ⟨k, v⟩ := f
    obtain ⟨hnotin, hnodup⟩ := List.nodup_cons.mp hp
    -- the other fields find what they found before
    have hrest : ∀ t' : List (String × Doc α), (∀ key, key ≠ k → t'.lookup key = t.lookup key) →
        mergeEntries p (JsVal.parseFields t') none = parse (.obj (Stats.mergeEntries p t')) := by
      intro t' hsame
      apply ih hnodup
      intro k' v' hmem hnull
      have hne : k' ≠ k := by
        rintro rfl
        exact hnotin (List.mem_map.mpr ⟨(k', v'), hmem, rfl⟩)
      rw [hsame k' hne]
      exact h k' v' (List.mem_cons_of_mem _ hmem) hnull
    rw [mergeEntries, Stats.mergeEntries]
    cases hnull : v.isNull with
    | true =>
      rw [if_pos rfl, if_pos rfl, ← JsVal.parseFields_removeKey]
      exact hrest _ fun key hkey => lookup_removeKey_of_ne hkey t
    | false =>
      obtain ⟨hfound, hmerge⟩ := h k v List.mem_cons_self hnull
      have hown : k = "__proto__" → ((JsVal.parseFields t).lookup k).isSome := by
        rw [JsVal.lookup_parseFields, Option.isSome_map]
        exact hfound
      rw [if_neg Bool.false_ne_true, if_neg Bool.false_ne_true, JsVal.set_plain hown,
        mergePatch_get hfound, hmerge, ← JsVal.parseFields_setKey]
      exact hrest _ fun key hkey => lookup_setKey_of_ne hkey _ t

/-- **The page has what the node has.** Where every `null` meets an object, and every `__proto__`
one that is there, the dashboard makes of a parsed target what is parsed of the node's. -/
theorem mergePatch_parse {patch : Doc α} (hp : patch.Wf) (hnull : patch.isNull = false)
    {target : Doc α} (hclean : Stats.clean patch target = true)
    (hown : ownProto patch target = true) :
    mergePatch (parse target) patch = parse (Stats.mergePatch target patch) := by
  induction patch using Doc.induction generalizing target with
  | null => cases hnull
  | scalar a => rw [mergePatch, Stats.mergePatch_of_patch rfl, parse]
  | arr items => rw [mergePatch, Stats.mergePatch_of_patch rfl]
  | obj p ih =>
    rw [Doc.Wf] at hp
    rw [Stats.clean, Stats.cleanFields_iff hp.1] at hclean
    rw [ownProto, ownProtoFields_iff hp.1] at hown
    have hentries : mergeEntries p (JsVal.parseFields target.fields) none =
        parse (.obj (Stats.mergeEntries p target.fields)) := by
      apply mergeEntries_parseFields hp.1
      intro k v hmem hv
      have hk := (lookup_eq_some_iff hp.1).mpr hmem
      have hfield := hclean k v hk
      rw [hv] at hfield
      exact ⟨(hown k v hk hv).1, ih k v hmem (Doc.wf_of_mem hp.2 hmem) hv hfield (hown k v hk hv).2⟩
    rw [mergePatch_obj, hentries]
    cases hobj : target.isObj with
    | true =>
      cases target with
      | null | scalar | arr => cases hobj
      | obj t => rw [Stats.mergePatch_obj]; rfl
    | false =>
      -- all of the patch is new
      have hfields : target.fields = [] := by
        cases target with
        | obj t => cases hobj
        | null | scalar | arr => rfl
      have hnulls : ∀ f ∈ p, f.2.isNull = false := by
        rintro ⟨k, v⟩ hmem
        have hfield := hclean k v ((lookup_eq_some_iff hp.1).mpr hmem)
        rw [hobj] at hfield
        by_contra hv
        rw [if_pos (Bool.not_eq_false _ ▸ hv)] at hfield
        cases hfield
      rw [Stats.mergePatch_of_not_obj hobj, hfields, Stats.mergeEntries_fresh hp.1 hnulls]
      · rfl
      · exact fun f _ => List.lookup_nil

/-- **Merge patches.** The node's patch of an object is that of RFC 7386, and the dashboard's gives
the same JSON, if and only if every `null` of the patch meets an object, and every `__proto__` that
is not `null` one that the target has. -/
theorem merge_patch_iff (target patch : JsonObject α) :
    ((Stats.mergePatch (.obj target.fields) (.obj patch.fields)).meaning =
        Meaning.mergePatch (Doc.obj patch.fields).meaning (Doc.obj target.fields).meaning ∧
      (mergePatch (parse (.obj target.fields)) (.obj patch.fields)).json =
        some (Meaning.mergePatch (Doc.obj patch.fields).meaning (Doc.obj target.fields).meaning)) ↔
      Stats.clean (.obj patch.fields) (.obj target.fields) = true ∧
        ownProto (.obj patch.fields) (.obj target.fields) = true := by
  rw [Stats.mergePatch_iff patch.wf, mergePatch_iff patch.wf rfl]

section differ

private def noReport : JsonObject ℕ := ⟨[], by simp [Doc.Wf, Doc.WfFields]⟩

/-- A day was taken out of a report that is not there. -/
private def dayRemoved : JsonObject ℕ :=
  ⟨[("daily", .obj [("1789948800", .null)])], by simp [Doc.Wf, Doc.WfFields]⟩

/-- The first event of a client of this name. -/
private def protoClient : JsonObject ℕ :=
  ⟨[("__proto__", .obj [("sum", .scalar 1)])], by simp [Doc.Wf, Doc.WfFields]⟩

/-- The node keeps the `null`, and the dashboard does not show the client. -/
theorem null_kept_client_lost :
    ¬ (∀ target patch : JsonObject ℕ,
        (Stats.mergePatch (.obj target.fields) (.obj patch.fields)).meaning =
          Meaning.mergePatch (Doc.obj patch.fields).meaning (Doc.obj target.fields).meaning) ∧
      ¬ ∀ target patch : JsonObject ℕ,
        (mergePatch (parse (.obj target.fields)) (.obj patch.fields)).json =
          some (Meaning.mergePatch (Doc.obj patch.fields).meaning
            (Doc.obj target.fields).meaning) := by
  constructor
  · intro h
    have hclean := (Stats.mergePatch_iff dayRemoved.wf _).mp (h noReport dayRemoved)
    revert hclean
    decide
  · intro h
    have hown := (mergePatch_iff protoClient.wf rfl _).mp (h noReport protoClient)
    revert hown
    decide

end differ

end NostrSearch.Dashboard
