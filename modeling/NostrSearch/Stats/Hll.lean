import NostrSearch.Lib.LittleEndian
import NostrSearch.Stats.Types
import Mathlib.Data.Nat.Size

/-!
# A small HyperLogLog for counting distinct keys

A sketch has a fixed number of registers; a key is hashed to one of them and to a rank, and the
register keeps the largest rank. In the source `insert` returns whether this changed the sketch,
which is `changes` here. The estimate `len` is floating point and left to those that use it.
-/

namespace NostrSearch.Stats

open NostrSearch.Lib

/-- log2 of the register count. -/
def PRECISION : ℕ := 14

/-- Number of registers per sketch. -/
def REGISTERS : ℕ := 2 ^ PRECISION

/-- SplitMix64 finalizer. -/
def mix64 (z : UInt64) : UInt64 :=
  let z := z + 0x9e3779b97f4a7c15
  let z := (z ^^^ (z >>> 30)) * 0xbf58476d1ce4e5b9
  let z := (z ^^^ (z >>> 27)) * 0x94d049bb133111eb
  z ^^^ (z >>> 31)

def leadingZeros (x : UInt64) : ℕ := 64 - x.toNat.size

/-- Fixed-size distinct-count sketch over 32-byte keys. -/
structure Hll where
  registers : Vector UInt8 REGISTERS

namespace Hll

def default : Hll := { registers := Vector.replicate REGISTERS 0 }

/-- The hash of a key: its first eight bytes, mixed. -/
def hash (key : Hash32) : UInt64 := mix64 (UInt64.ofNat (ofLE (key.toList.take 8)))

/-- The top bits of the hash select the register. -/
def idx (h : UInt64) : Fin REGISTERS :=
  ⟨(h >>> 50).toNat, by
    have hlt : h.toNat < 2 ^ 64 := h.toNat_lt
    rw [UInt64.toNat_shiftRight, Nat.shiftRight_eq_div_pow]
    have h50 : (50 : UInt64).toNat % 64 = 50 := by decide
    rw [h50]
    unfold REGISTERS PRECISION
    omega⟩

/-- The rest supplies the rank: the position of the first set bit. -/
def rank (h : UInt64) : UInt8 :=
  let rest := h <<< 14
  if rest = 0 then UInt8.ofNat (64 - PRECISION + 1) else UInt8.ofNat (leadingZeros rest + 1)

/-- Whether folding a key in changes the sketch: what `insert` returns. -/
def changes (s : Hll) (key : Hash32) : Bool :=
  decide (s.registers.get (idx (hash key)) < rank (hash key))

theorem idx_lt (key : Hash32) : (idx (hash key)).val < REGISTERS := (idx (hash key)).isLt

/-- Fold a key in. -/
def insert (s : Hll) (key : Hash32) : Hll :=
  if s.changes key then
    { registers := s.registers.set (idx (hash key)).val (rank (hash key)) (idx_lt key) }
  else s

/-- Register-wise max. -/
def merge (s other : Hll) : Hll :=
  { registers := s.registers.zipWith (fun a b => if a < b then b else a) other.registers }

theorem insert_of_not_changes {s : Hll} {key : Hash32} (h : s.changes key = false) :
    s.insert key = s := by
  rw [insert, if_neg (by rw [h]; decide)]

theorem rank_pos (h : UInt64) : 0 < rank h := by
  have hofNat : ∀ n : ℕ, n < 64 → (0 : UInt8) < UInt8.ofNat (n + 1) := by
    intro n hn
    rw [UInt8.lt_iff_toNat_lt, UInt8.toNat_ofNat']
    have hmod : (n + 1) % 2 ^ 8 = n + 1 := Nat.mod_eq_of_lt (by omega)
    rw [hmod]
    exact Nat.succ_pos n
  unfold rank
  dsimp only
  split
  · exact hofNat 50 (by omega)
  case isFalse hrest =>
    apply hofNat
    -- a word that is not zero has fewer than 64 leading zeros
    have hpos : 0 < (h <<< 14).toNat := by
      rw [Nat.pos_iff_ne_zero]
      intro hzero
      exact hrest (UInt64.toNat_inj.mp hzero)
    have hsize : 0 < (h <<< 14).toNat.size := Nat.size_pos.mpr hpos
    unfold leadingZeros
    omega

/-- A new sketch changes with its first key. -/
theorem changes_default (key : Hash32) : default.changes key = true := by
  have hzero : ∀ i : Fin REGISTERS, default.registers.get i = 0 := by
    intro i
    exact Vector.getElem_replicate i.isLt
  rw [changes, decide_eq_true_iff, hzero]
  exact rank_pos _

-- sketches are large: nothing below looks into one
attribute [irreducible] default changes insert merge

end Hll

end NostrSearch.Stats
