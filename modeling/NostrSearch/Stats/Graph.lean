import NostrSearch.Lib.LittleEndian
import NostrSearch.Lib.Totals
import NostrSearch.Stats.Types
import Mathlib.Data.Finset.Sort
import Mathlib.Data.List.Lex

/-!
# The on-disk follow graph

One record for each author: the key is the author's 32 bytes, the value is eight bytes of
`created_at` and then the followed keys, 32 bytes each. Reads and writes of the database are
taken to succeed, and only `put` writes to it, so the keys here are pubkeys from the start.

`occurrences` is what a follower tally is a tally of: how often a pubkey stands in the contact
lists the store holds.
-/

namespace NostrSearch.Stats

open NostrSearch.Lib

/-- The order of keys in the database: byte by byte. -/
def keyLe (a b : Pubkey) : Prop := a.toList.map UInt8.toNat ≤ b.toList.map UInt8.toNat

instance : DecidableRel keyLe := fun a b =>
  inferInstanceAs (Decidable (a.toList.map UInt8.toNat ≤ b.toList.map UInt8.toNat))

instance : IsTrans Pubkey keyLe := ⟨fun _ _ _ => le_trans⟩

instance : Std.Total keyLe := ⟨fun _ _ => le_total _ _⟩

instance : Std.Antisymm keyLe :=
  ⟨fun _ _ hab hba =>
    Vector.toList_inj.mp (List.map_injective_iff.mpr (fun _ _ => UInt8.toNat_inj.mp)
      (le_antisymm hab hba))⟩

/-- The keys of a map, in the order of the database. -/
def sortedKeys {β : Type} (m : Finmap fun _ : Pubkey => β) : List Pubkey := m.keys.sort keyLe

theorem mem_sortedKeys {β : Type} {m : Finmap fun _ : Pubkey => β} {k : Pubkey} :
    k ∈ sortedKeys m ↔ k ∈ m.keys := Finset.mem_sort keyLe

theorem nodup_sortedKeys {β : Type} (m : Finmap fun _ : Pubkey => β) : (sortedKeys m).Nodup :=
  Finset.sort_nodup m.keys keyLe

/-- Deleting every key leaves nothing. -/
theorem foldl_erase_sortedKeys {β : Type} (m : Finmap fun _ : Pubkey => β) :
    (sortedKeys m).foldl (fun db k => db.erase k) m = ∅ := by
  have herase : ∀ (l : List Pubkey) (db : Finmap fun _ : Pubkey => β) (k : Pubkey),
      k ∈ l.foldl (fun db k => db.erase k) db ↔ k ∈ db ∧ k ∉ l := by
    intro l
    induction l with
    | nil => simp
    | cons a l ih =>
      intro db k
      rw [List.foldl_cons, ih, Finmap.mem_erase, List.mem_cons, not_or]
      tauto
  apply Finmap.ext_lookup
  intro k
  rw [Finmap.lookup_empty, Finmap.lookup_eq_none, herase, mem_sortedKeys, Finmap.mem_keys]
  tauto

/-- A contact list: when it was published, and who it follows. -/
structure Follows where
  createdAt : ℕ
  follows : List Pubkey
deriving DecidableEq

/-- Adjacency store. -/
structure GraphStore where
  db : Finmap (fun _ : Pubkey => List UInt8)

/-- The value `put` writes. -/
def encode (createdAt : ℕ) (follows : List Pubkey) : List UInt8 :=
  toLE createdAt 8 ++ follows.flatMap Vector.toList

def decode (raw : List UInt8) : Follows :=
  if raw.length < 8 then { createdAt := 0, follows := [] }
  else { createdAt := ofLE (raw.take 8), follows := blocks 32 (raw.drop 8) }

/-- What is written is read back, the timestamp as far as it fits its eight bytes. -/
theorem decode_encode (createdAt : ℕ) (follows : List Pubkey) :
    decode (encode createdAt follows) =
      { createdAt := createdAt % 2 ^ 64, follows := follows } := by
  have hlength : (toLE createdAt 8).length = 8 := length_toLE createdAt 8
  have hlong : ¬ (encode createdAt follows).length < 8 := by
    rw [encode, List.length_append, hlength]
    omega
  have htake : (encode createdAt follows).take 8 = toLE createdAt 8 := by
    rw [encode, List.take_left' hlength]
  have hdrop : (encode createdAt follows).drop 8 = follows.flatMap Vector.toList := by
    rw [encode, List.drop_left' hlength]
  have hwidth : (256 : ℕ) ^ 8 = 2 ^ 64 := by norm_num
  rw [decode, if_neg hlong, htake, hdrop, ofLE_toLE, hwidth, blocks_flatMap (by omega)]

namespace GraphStore

def empty : GraphStore := { db := ∅ }

/-- Fetch an author's contact list. -/
def get (g : GraphStore) (author : Pubkey) : Option Follows := (g.db.lookup author).map decode

/-- Only the timestamp of an author's contact list. -/
def createdAt (g : GraphStore) (author : Pubkey) : Option ℕ :=
  match g.db.lookup author with
  | none => none
  | some raw => if raw.length < 8 then none else some (ofLE (raw.take 8))

/-- Replace an author's contact list. -/
def put (g : GraphStore) (author : Pubkey) (createdAt : ℕ) (follows : List Pubkey) : GraphStore :=
  { db := g.db.insert author (encode createdAt follows) }

/-- Delete every adjacency record. -/
def clear (g : GraphStore) : GraphStore :=
  { db := (sortedKeys g.db).foldl (fun db k => db.erase k) g.db }

/-- Stream every `(author, follows)` pair, in key order. -/
def forEach {δ : Type} (g : GraphStore) (f : δ → Pubkey → Follows → δ) (d : δ) : δ :=
  (sortedKeys g.db).foldl (fun d k => (g.get k).elim d (f d k)) d

/-- How often `p` stands in the contact lists held. -/
def occurrences (g : GraphStore) (p : Pubkey) : ℕ :=
  total g.db fun raw => (decode raw).follows.count p

/-- The contact list of an author, empty when there is none. -/
def listOf (g : GraphStore) (author : Pubkey) : List Pubkey :=
  (g.get author).elim [] Follows.follows

variable {g : GraphStore}

@[simp] theorem get_empty (author : Pubkey) : empty.get author = none := rfl

@[simp] theorem createdAt_empty (author : Pubkey) : empty.createdAt author = none := rfl

@[simp] theorem occurrences_empty (p : Pubkey) : empty.occurrences p = 0 := total_empty _

theorem get_put_self (g : GraphStore) (author : Pubkey) (createdAt : ℕ) (follows : List Pubkey) :
    (g.put author createdAt follows).get author =
      some { createdAt := createdAt % 2 ^ 64, follows := follows } := by
  rw [get, put, Finmap.lookup_insert, Option.map_some, decode_encode]

theorem get_put_of_ne (g : GraphStore) {author a : Pubkey} (h : a ≠ author) (createdAt : ℕ)
    (follows : List Pubkey) : (g.put author createdAt follows).get a = g.get a := by
  rw [get, put, Finmap.lookup_insert_of_ne _ h, get]

theorem listOf_put (g : GraphStore) (author a : Pubkey) (createdAt : ℕ) (follows : List Pubkey) :
    (g.put author createdAt follows).listOf a = if a = author then follows else g.listOf a := by
  unfold listOf
  by_cases ha : a = author
  · rw [ha, get_put_self, if_pos rfl, Option.elim_some]
  · rw [get_put_of_ne g ha, if_neg ha]

theorem createdAt_put_self (g : GraphStore) (author : Pubkey) (createdAt : ℕ)
    (follows : List Pubkey) :
    (g.put author createdAt follows).createdAt author = some (createdAt % 2 ^ 64) := by
  have hlength : (toLE createdAt 8).length = 8 := length_toLE createdAt 8
  have hlong : ¬ (encode createdAt follows).length < 8 := by
    rw [encode, List.length_append, hlength]
    omega
  have htake : (encode createdAt follows).take 8 = toLE createdAt 8 := by
    rw [encode, List.take_left' hlength]
  have hwidth : (256 : ℕ) ^ 8 = 2 ^ 64 := by norm_num
  simp only [GraphStore.createdAt, put, Finmap.lookup_insert, if_neg hlong, htake, ofLE_toLE, hwidth]

theorem count_listOf (g : GraphStore) (author p : Pubkey) :
    (g.listOf author).count p =
      (g.db.lookup author).elim 0 fun raw => (decode raw).follows.count p := by
  rw [listOf, get]
  cases g.db.lookup author with
  | none => rfl
  | some raw => rfl

/-- Replacing a contact list takes the old one's occurrences out and puts the new one's in. -/
theorem occurrences_put (g : GraphStore) (author : Pubkey) (createdAt : ℕ)
    (follows : List Pubkey) (p : Pubkey) :
    (g.put author createdAt follows).occurrences p + (g.listOf author).count p =
      g.occurrences p + follows.count p := by
  have hnew : (decode (encode createdAt follows)).follows.count p = follows.count p := by
    rw [decode_encode]
  rw [count_listOf, occurrences, put, total_insert, hnew]
  rfl

theorem count_listOf_le (g : GraphStore) (author p : Pubkey) :
    (g.listOf author).count p ≤ g.occurrences p := by
  have h := g.occurrences_put author 0 [] p
  rw [List.count_nil] at h
  omega

/-- No pubkey stands in the lists more often than they have entries. -/
theorem occurrences_le (g : GraphStore) (p : Pubkey) :
    g.occurrences p ≤ total g.db fun raw => (decode raw).follows.length := by
  unfold occurrences total
  apply Finset.sum_le_sum
  intro k _
  cases g.db.lookup k with
  | none => exact le_refl _
  | some raw => exact List.count_le_length

/-- Occurrences, read off the stream of contact lists. -/
theorem occurrences_eq_sum (g : GraphStore) (p : Pubkey) :
    g.occurrences p = ((sortedKeys g.db).map fun k => (g.listOf k).count p).sum := by
  rw [occurrences, total_eq_sum_map (nodup_sortedKeys g.db) fun k => mem_sortedKeys]
  simp only [count_listOf]

theorem clear_eq_empty (g : GraphStore) : g.clear = empty := by
  rw [clear, foldl_erase_sortedKeys, empty]

end GraphStore

end NostrSearch.Stats
