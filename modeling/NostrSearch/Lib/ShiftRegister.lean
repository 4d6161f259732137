import Mathlib.Algebra.Group.Hom.Basic
import Mathlib.Algebra.Group.Pi.Basic
import Mathlib.Data.List.GetD
import Mathlib.Data.List.OfFn
import Mathlib.Tactic

/-!
# Checksums by a shift register

A register holds `n + 1` symbols of an additive group. A symbol that comes in moves all others up a
place, and the one that falls out is fed back into the register. All of it is additive: what a
message leaves in the register is the sum of what its parts leave. So there is one checksum that
brings a message to a given value, and where nothing fed back is lost at the last place, a message
with one symbol changed comes to another value (`feed_ne_of_one_changed`).
-/

namespace NostrSearch.Lib

variable {σ : Type*} [AddCommGroup σ] {n : ℕ} {feedback : σ →+ (Fin (n + 1) → σ)}

/-- One symbol comes in. -/
def shiftIn (feedback : σ →+ (Fin (n + 1) → σ)) (reg : Fin (n + 1) → σ) (v : σ) :
    Fin (n + 1) → σ := fun i =>
  (if h : i.val + 1 < n + 1 then reg ⟨i.val + 1, h⟩ else v) + feedback (reg 0) i

/-- The symbols of a message, one after the other. -/
def feed (feedback : σ →+ (Fin (n + 1) → σ)) (reg : Fin (n + 1) → σ) (msg : List σ) :
    Fin (n + 1) → σ := msg.foldl (shiftIn feedback) reg

theorem shiftIn_add (reg reg' : Fin (n + 1) → σ) (v v' : σ) :
    shiftIn feedback (reg + reg') (v + v') =
      shiftIn feedback reg v + shiftIn feedback reg' v' := by
  funext i
  rw [Pi.add_apply, shiftIn, shiftIn, shiftIn, Pi.add_apply, map_add, Pi.add_apply]
  split
  · rw [Pi.add_apply]
    abel
  · abel

theorem shiftIn_zero : shiftIn feedback 0 (0 : σ) = 0 := by
  have h : shiftIn feedback (0 + 0) (0 + 0 : σ) = shiftIn feedback 0 0 + shiftIn feedback 0 0 :=
    shiftIn_add 0 0 0 0
  rw [add_zero, add_zero] at h
  exact left_eq_add.mp h

theorem feed_append (reg : Fin (n + 1) → σ) (msg msg' : List σ) :
    feed feedback reg (msg ++ msg') = feed feedback (feed feedback reg msg) msg' :=
  List.foldl_append

/-- What two messages of one length leave adds up. -/
theorem feed_add {msg msg' : List σ} (h : msg.length = msg'.length) (reg reg' : Fin (n + 1) → σ) :
    feed feedback (reg + reg') (List.zipWith (· + ·) msg msg') =
      feed feedback reg msg + feed feedback reg' msg' := by
  induction msg generalizing msg' reg reg' with
  | nil =>
    obtain rfl := List.eq_nil_of_length_eq_zero h.symm
    rfl
  | cons v msg ih =>
    cases msg' with
    | nil => cases h
    | cons v' msg' =>
      have hrest := ih (Nat.succ.inj h) (shiftIn feedback reg v) (shiftIn feedback reg' v')
      rw [← shiftIn_add] at hrest
      exact hrest

theorem feed_zeros (k : ℕ) : feed feedback 0 (List.replicate k (0 : σ)) = 0 := by
  induction k with
  | zero => rfl
  | succ k ih =>
    rw [List.replicate_succ]
    show feed feedback (shiftIn feedback 0 0) _ = 0
    rw [shiftIn_zero, ih]

/-- Nothing is fed back before the register is full. -/
theorem feed_of_length_le {msg : List σ} (h : msg.length ≤ n + 1) (i : Fin (n + 1)) :
    feed feedback 0 msg i = (List.replicate (n + 1 - msg.length) 0 ++ msg).getD i 0 := by
  induction msg using List.reverseRecOn generalizing i with
  | nil =>
    show (0 : σ) = _
    rw [List.append_nil, List.getD_replicate 0 (by simpa using i.isLt)]
  | append_singleton msg v ih =>
    rw [List.length_append, List.length_singleton] at h
    have hlen : n + 1 - msg.length = n - msg.length + 1 := by omega
    have hprev := ih (by omega)
    rw [hlen, List.replicate_succ, List.cons_append] at hprev
    have htop : feed feedback 0 msg 0 = 0 := hprev 0
    have hpad : n + 1 - (msg ++ [v]).length = n - msg.length := by
      rw [List.length_append, List.length_singleton]
      omega
    have hfull : (List.replicate (n - msg.length) 0 ++ msg).length = n := by
      rw [List.length_append, List.length_replicate]
      omega
    rw [feed_append, hpad, ← List.append_assoc]
    show shiftIn feedback (feed feedback 0 msg) v i = _
    rw [shiftIn, htop, map_zero, Pi.zero_apply, add_zero]
    split
    case isTrue hi =>
      rw [hprev ⟨i + 1, hi⟩, List.getD_append _ _ _ _ (by omega)]
      exact List.getD_cons_succ
    case isFalse hi =>
      have hlast : i.val = n := by omega
      rw [List.getD_append_right _ _ _ _ (by omega), hfull, hlast, Nat.sub_self]
      rfl

theorem feed_ofFn (check : Fin (n + 1) → σ) : feed feedback 0 (List.ofFn check) = check := by
  funext i
  have hi : i.val < (List.ofFn check).length := by
    rw [List.length_ofFn]
    exact i.isLt
  rw [feed_of_length_le (by rw [List.length_ofFn]), List.length_ofFn, Nat.sub_self,
    List.replicate_zero, List.nil_append, List.getD_eq_getElem _ _ hi, List.getElem_ofFn]

theorem zipWith_zeros (msg : List σ) {k : ℕ} (h : msg.length = k) :
    List.zipWith (· + ·) msg (List.replicate k 0) = msg := by
  subst h
  induction msg with
  | nil => rfl
  | cons v msg ih => rw [List.length_cons, List.replicate_succ, List.zipWith_cons_cons, add_zero, ih]

theorem zeros_zipWith (msg : List σ) {k : ℕ} (h : msg.length = k) :
    List.zipWith (· + ·) (List.replicate k 0) msg = msg := by
  rw [List.zipWith_comm_of_comm add_comm, zipWith_zeros msg h]

/-- Symbols at the end of a message stay in the register as they are. -/
theorem feed_append_ofFn (reg : Fin (n + 1) → σ) (msg : List σ) (check : Fin (n + 1) → σ) :
    feed feedback reg (msg ++ List.ofFn check) =
      feed feedback reg (msg ++ List.replicate (n + 1) 0) + check := by
  have hlength : (msg ++ List.replicate (n + 1) 0).length =
      (List.replicate msg.length 0 ++ List.ofFn check).length := by
    simp
  have hsum : feed feedback (reg + 0) (List.zipWith (· + ·) (msg ++ List.replicate (n + 1) 0)
      (List.replicate msg.length 0 ++ List.ofFn check)) = _ := feed_add hlength reg 0
  have hzip : List.zipWith (· + ·) (msg ++ List.replicate (n + 1) 0)
      (List.replicate msg.length 0 ++ List.ofFn check) = msg ++ List.ofFn check := by
    rw [List.zipWith_append (by simp), zipWith_zeros msg rfl, zeros_zipWith _ (by simp)]
  rw [add_zero, hzip, feed_append 0, feed_zeros, feed_ofFn] at hsum
  exact hsum

/-- The symbols that bring a message to a value. -/
def checksum (feedback : σ →+ (Fin (n + 1) → σ)) (reg value : Fin (n + 1) → σ) (msg : List σ) :
    Fin (n + 1) → σ := value - feed feedback reg (msg ++ List.replicate (n + 1) 0)

/-- **There is one checksum.** -/
theorem feed_eq_iff {reg value check : Fin (n + 1) → σ} {msg : List σ} :
    feed feedback reg (msg ++ List.ofFn check) = value ↔
      check = checksum feedback reg value msg := by
  rw [feed_append_ofFn, checksum, eq_sub_iff_add_eq']

/-! ## Changed symbols -/

theorem shiftIn_injective (hlast : ∀ x, feedback x (Fin.last n) = 0 → x = 0)
    {reg : Fin (n + 1) → σ} (h : shiftIn feedback reg 0 = 0) : reg = 0 := by
  have htop : reg 0 = 0 := by
    apply hlast
    have hentry := congrFun h (Fin.last n)
    rw [shiftIn, dif_neg (by simp), zero_add] at hentry
    exact hentry
  funext i
  refine Fin.cases htop (fun j => ?_) i
  have hentry := congrFun h j.castSucc
  rw [shiftIn, htop, map_zero, Pi.zero_apply, add_zero, dif_pos (by simp)] at hentry
  exact hentry

theorem feed_zeros_injective (hlast : ∀ x, feedback x (Fin.last n) = 0 → x = 0) (k : ℕ)
    {reg : Fin (n + 1) → σ} (h : feed feedback reg (List.replicate k 0) = 0) : reg = 0 := by
  induction k generalizing reg with
  | zero => exact h
  | succ k ih => exact shiftIn_injective hlast (ih h)

/-- **One symbol changed.** -/
theorem feed_ne_of_one_changed (hlast : ∀ x, feedback x (Fin.last n) = 0 → x = 0)
    (reg : Fin (n + 1) → σ) (front back : List σ) {v v' : σ} (h : v ≠ v') :
    feed feedback reg (front ++ v :: back) ≠ feed feedback reg (front ++ v' :: back) := by
  intro heq
  have hlength : (front ++ v' :: back).length =
      (List.replicate front.length 0 ++ (v - v') :: List.replicate back.length 0).length := by
    simp
  have hsum : feed feedback (reg + 0) (List.zipWith (· + ·) (front ++ v' :: back)
      (List.replicate front.length 0 ++ (v - v') :: List.replicate back.length 0)) = _ :=
    feed_add hlength reg 0
  have hzip : List.zipWith (· + ·) (front ++ v' :: back)
      (List.replicate front.length 0 ++ (v - v') :: List.replicate back.length 0) =
        front ++ v :: back := by
    rw [List.zipWith_append (by simp), zipWith_zeros front rfl, List.zipWith_cons_cons,
      zipWith_zeros back rfl, add_sub_cancel]
  -- what the change leaves is what the two messages differ by
  rw [add_zero, hzip, heq, feed_append 0, feed_zeros] at hsum
  have hchange : feed feedback (shiftIn feedback 0 (v - v')) (List.replicate back.length 0) = 0 :=
    left_eq_add.mp hsum
  have hentry := congrFun (feed_zeros_injective hlast _ hchange) (Fin.last n)
  rw [shiftIn, dif_neg (by simp), Pi.zero_apply, map_zero, Pi.zero_apply, add_zero] at hentry
  exact h (sub_eq_zero.mp hentry)

end NostrSearch.Lib
