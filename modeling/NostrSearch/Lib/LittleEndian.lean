import Mathlib.Data.Vector.Basic
import Mathlib.Tactic

/-!
# Little-endian numbers and packed blocks

`toLE n w` is the number `n` in `w` bytes, least significant first, and `ofLE` reads it back.
`blocks k` cuts a byte string into blocks of `k` bytes, dropping what is left over at the end.
-/

namespace NostrSearch.Lib

/-- The low `w` bytes of `n`, least significant first. -/
def toLE (n : ℕ) : ℕ → List UInt8
  | 0 => []
  | w + 1 => UInt8.ofNat n :: toLE (n / 256) w

/-- The number a byte string spells. -/
def ofLE : List UInt8 → ℕ
  | [] => 0
  | b :: bs => b.toNat + 256 * ofLE bs

@[simp] theorem length_toLE (n w : ℕ) : (toLE n w).length = w := by
  induction w generalizing n with
  | zero => rfl
  | succ w ih => rw [toLE, List.length_cons, ih]

/-- Reading back what was written gives the number modulo what fits. -/
theorem ofLE_toLE (n w : ℕ) : ofLE (toLE n w) = n % 256 ^ w := by
  induction w generalizing n with
  | zero => rw [pow_zero, Nat.mod_one]; rfl
  | succ w ih =>
    have hbyte : (UInt8.ofNat n).toNat = n % 256 := UInt8.toNat_ofNat'
    rw [toLE, ofLE, ih, hbyte, pow_succ', Nat.mod_mul]

/-- The low bytes, then the others. -/
theorem toLE_add (n v w : ℕ) : toLE n (v + w) = toLE n v ++ toLE (n / 256 ^ v) w := by
  induction v generalizing n with
  | zero => rw [Nat.zero_add, pow_zero, Nat.div_one, toLE, List.nil_append]
  | succ v ih =>
    rw [Nat.succ_add, toLE, ih, toLE, pow_succ', Nat.div_div_eq_div_mul, List.cons_append]

theorem ofLE_lt (bs : List UInt8) : ofLE bs < 256 ^ bs.length := by
  induction bs with
  | nil => exact Nat.one_pos
  | cons b bs ih =>
    have hb : b.toNat < 256 := b.toNat_lt
    rw [ofLE, List.length_cons, pow_succ']
    omega

/-- The `i`th byte, or zero past the end. -/
def byteAt (bs : List UInt8) (i : ℕ) : UInt8 := bs.getD i 0

/-- The full blocks of `k` bytes, in order. -/
def blocks (k : ℕ) (bs : List UInt8) : List (Vector UInt8 k) :=
  (List.range (bs.length / k)).map fun i => Vector.ofFn fun j => byteAt bs (k * i + j)

/-- The blocks of a packed list are the list. -/
theorem blocks_flatMap {k : ℕ} (hk : 0 < k) (vs : List (Vector UInt8 k)) :
    blocks k (vs.flatMap Vector.toList) = vs := by
  have hlength : (vs.flatMap Vector.toList).length = k * vs.length := by
    simp [List.length_flatMap, List.sum_replicate, Nat.mul_comm]
  rw [blocks, hlength, Nat.mul_div_cancel_left _ hk]
  clear hlength
  induction vs with
  | nil => rfl
  | cons v vs ih =>
    rw [List.length_cons, List.range_succ_eq_map, List.map_cons, List.map_map, List.flatMap_cons]
    congr 1
    · -- the first block reads the first value only
      ext j hj
      have hlt : j < v.toList.length := by simpa using hj
      simp [byteAt, List.getElem?_append_left hlt, hj]
    · -- and the others read past it
      conv_rhs => rw [← ih]
      apply List.map_congr_left
      intro i _
      ext j hj
      have hge : v.toList.length ≤ k * (i + 1) + j := by
        rw [Vector.length_toList, Nat.mul_succ]
        omega
      have hsub : k * (i + 1) + j - v.toList.length = k * i + j := by
        rw [Vector.length_toList, Nat.mul_succ]
        omega
      simp only [Function.comp_apply, Nat.succ_eq_add_one, Vector.getElem_ofFn, byteAt,
        List.getD_eq_getElem?_getD, List.getElem?_append_right hge, hsub]

end NostrSearch.Lib
