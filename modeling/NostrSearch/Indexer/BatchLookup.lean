import NostrSearch.Core.Num
import NostrSearch.Indexer.GapFetch
import NostrSearch.Stats.Graph

/-!
# Looking up many ids at once

`IdStore::contains_batch`. The positions of the ids are sorted by key, cut into a part for each
thread and the parts into chunks for `multi_get`, and the answers are put back in the places of their
ids. The database is a parameter.
-/

namespace NostrSearch.Indexer

open NostrSearch.Core NostrSearch.Lib NostrSearch.Stats

def LOOKUP_CHUNK : ℕ := 256

def LOOKUP_THREADS : ℕ := 32

/-- `div_ceil`. -/
def divCeil (a b : ℕ) : ℕ := (a + b - 1) / b

/-- The two ways to read from the database. -/
structure IdDb (ε : Type) where
  getPinned : Hash32 → Except ε (Option (List UInt8))
  multiGet : List Hash32 → List (Except ε (Option (List UInt8)))

/-- How often the store was asked. -/
structure Lookups where
  single : ℕ
  batches : ℕ
  batchedIds : ℕ

structure IdStore (ε : Type) where
  db : IdDb ε
  lookups : Lookups

namespace IdStore

variable {ε : Type}

/-- `matches!(r, Ok(Some(_)))`. -/
def isHit : Except ε (Option (List UInt8)) → Bool
  | .ok (some _) => true
  | _ => false

def contains (s : IdStore ε) (id : Hash32) : Bool × IdStore ε :=
  let hit := match s.db.getPinned id with
    | .ok v => v.isSome
    | .error _ => false
  (hit, { s with lookups := { s.lookups with single := wrapAdd s.lookups.single 1 } })

/-- What `sort_unstable_by_key` may leave: the positions in the order of their keys, those of equal
keys in any order. -/
structure IsOrder (ids : List Hash32) (order : List (Fin ids.length)) : Prop where
  perm : order.Perm (List.finRange ids.length)
  sorted : order.Pairwise fun i j => keyLe (ids.get i) (ids.get j)

/-- `contains_batch`, with at most so many threads and chunks of so many ids. -/
def containsBatchWith (maxThreads chunkLen : ℕ) (s : IdStore ε) (ids : List Hash32)
    (order : List (Fin ids.length)) : List Bool × IdStore ε :=
  let threads := max (min maxThreads (divCeil order.length chunkLen)) 1
  let perThread := max (divCeil order.length threads) 1
  let answers := (chunks perThread order).map fun part =>
    (chunks chunkLen part).flatMap fun chunk =>
      (s.db.multiGet (chunk.map ids.get)).map isHit
  let found := (order.zip answers.flatten).foldl (fun found x => found.set x.1 x.2)
    (List.replicate ids.length false)
  (found,
    { s with
      lookups :=
        { s.lookups with
          batches := wrapAdd s.lookups.batches 1
          batchedIds := wrapAdd s.lookups.batchedIds ids.length } })

def containsBatch (s : IdStore ε) (ids : List Hash32) (order : List (Fin ids.length)) :
    List Bool × IdStore ε :=
  containsBatchWith LOOKUP_THREADS LOOKUP_CHUNK s ids order

/-! ## Pieces -/

/-- Pieces of pieces, one after the other, are the whole. -/
theorem flatten_pieces {α β : Type*} (perThread chunkLen : ℕ) (f : List α → List β) (g : α → β)
    (hf : ∀ l, f l = l.map g) (order : List α) :
    ((chunks perThread order).map fun part => (chunks chunkLen part).flatMap f).flatten =
      order.map g := by
  have hpart : ∀ part : List α, (chunks chunkLen part).flatMap f = part.map g := by
    intro part
    rw [List.flatMap_def, List.map_congr_left fun l _ => hf l, ← List.map_flatten, flatten_chunks]
  rw [List.map_congr_left fun part _ => hpart part, ← List.map_flatten, flatten_chunks]

/-- Values put into the places of their indices, where no index comes twice. -/
theorem getElem?_foldl_set {n : ℕ} {β : Type*} (f : Fin n → β) (order : List (Fin n))
    (hnodup : order.Nodup) (out : List β) (hlen : out.length = n) (i : Fin n) :
    ((order.zip (order.map f)).foldl (fun out x => out.set x.1 x.2) out)[i.val]? =
      if i ∈ order then some (f i) else out[i.val]? := by
  induction order generalizing out with
  | nil => rfl
  | cons j order ih =>
    rw [List.nodup_cons] at hnodup
    rw [List.map_cons, List.zip_cons_cons, List.foldl_cons,
      ih hnodup.2 _ (by rw [List.length_set, hlen])]
    by_cases hij : i = j
    · subst hij
      rw [if_neg hnodup.1, if_pos List.mem_cons_self]
      exact List.getElem?_set_self (by rw [hlen]; exact i.isLt)
    · have hne : j.val ≠ i.val := fun h => hij (Fin.ext h.symm)
      rw [List.getElem?_set_ne hne]
      simp only [List.mem_cons, hij, false_or]

theorem length_foldl_set {n : ℕ} {β : Type*} (xs : List (Fin n × β)) (out : List β) :
    (xs.foldl (fun out x => out.set x.1 x.2) out).length = out.length := by
  induction xs generalizing out with
  | nil => rfl
  | cons x xs ih => rw [List.foldl_cons, ih, List.length_set]

theorem isHit_getPinned (s : IdStore ε) (id : Hash32) :
    isHit (s.db.getPinned id) = (s.contains id).1 := by
  unfold isHit contains
  cases s.db.getPinned id with
  | error e => rfl
  | ok v => cases v <;> rfl

/-! ## Answers -/

/-- **A batch answers as single lookups do**, each id in its place, whatever the threads and
chunks. -/
theorem containsBatch_eq_map (maxThreads chunkLen : ℕ) (s : IdStore ε) (ids : List Hash32)
    (hmulti : ∀ keys, s.db.multiGet keys = keys.map s.db.getPinned)
    {order : List (Fin ids.length)} (horder : IsOrder ids order) :
    (containsBatchWith maxThreads chunkLen s ids order).1 =
      ids.map fun id => (s.contains id).1 := by
  have hanswers := fun perThread => flatten_pieces perThread chunkLen
    (fun chunk => (s.db.multiGet (chunk.map ids.get)).map isHit)
    (fun i => (s.contains (ids.get i)).1)
    (fun chunk => by
      rw [hmulti, List.map_map, List.map_map]
      exact List.map_congr_left fun i _ => isHit_getPinned s (ids.get i))
    order
  have hnodup : order.Nodup := horder.perm.nodup_iff.mpr (List.nodup_finRange _)
  unfold containsBatchWith
  dsimp only
  rw [hanswers]
  apply List.ext_getElem?
  intro k
  by_cases hk : k < ids.length
  · have hmem : (⟨k, hk⟩ : Fin ids.length) ∈ order :=
      horder.perm.mem_iff.mpr (List.mem_finRange _)
    have hget := getElem?_foldl_set (fun i => (s.contains (ids.get i)).1) order hnodup
      (List.replicate ids.length false) List.length_replicate ⟨k, hk⟩
    rw [if_pos hmem] at hget
    rw [hget, List.getElem?_map, List.getElem?_eq_getElem hk]
    rfl
  · rw [List.getElem?_eq_none, List.getElem?_eq_none]
    · rw [List.length_map]
      omega
    · rw [length_foldl_set, List.length_replicate]
      omega

/-- A store of one id. -/
def oneHeld : IdStore Unit where
  db :=
    { getPinned := fun id => .ok (if id = Vector.replicate 32 2 then some [] else none)
      multiGet := fun ids => ids.map fun id =>
        .ok (if id = Vector.replicate 32 2 then some [] else none) }
  lookups := { single := 0, batches := 0, batchedIds := 0 }

/-- An id asked for twice, with another in between. -/
def askedTwice : List Hash32 :=
  [Vector.replicate 32 2, Vector.replicate 32 1, Vector.replicate 32 2]

/-- The other id comes first. -/
def askedOrder : List (Fin askedTwice.length) := [⟨1, by decide⟩, ⟨2, by decide⟩, ⟨0, by decide⟩]

theorem containsBatch_askedTwice :
    (oneHeld.containsBatch askedTwice askedOrder).1 =
      askedTwice.map fun id => (oneHeld.contains id).1 :=
  containsBatch_eq_map LOOKUP_THREADS LOOKUP_CHUNK oneHeld askedTwice (fun _ => rfl)
    ⟨by decide, by decide +kernel⟩

end IdStore

end NostrSearch.Indexer
