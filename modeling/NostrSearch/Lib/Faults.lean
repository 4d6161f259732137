import Mathlib.Tactic

/-!
# Errors and panics

Code that returns an error stops in an orderly way; code that indexes out of bounds or overflows a
number panics. `Res α` is the result of such code, and `Proc σ α` that of code with a state, which
is left as it is at the stop. The operations that can panic are `add`, `sub`, `mul`, on words of 64
bits, and `slice`.

`At b i c` says that the bytes `c` are in `b` from `i` on, so that a read of them gives them.

`Sound r Q` says that `r` is no panic and has `Q` of what it returns; `Safe P m Q E` that `m` does
not panic from where `P` holds, leaves `Q` where it returns, and `E` where it stops with an error.
-/

namespace NostrSearch.Lib

inductive Stop
  | err (text : String)
  | panic
deriving DecidableEq

abbrev Res := Except Stop

/-- Code with a state, which an error leaves as it is. -/
def Proc (σ α : Type) := σ → Except Stop α × σ

variable {σ α β : Type}

namespace Res

/-- `bail!`. -/
def bail (text : String) : Res α := .error (.err text)

/-- `if c { bail!(text) }`. -/
def refuse (c : Prop) [Decidable c] (text : String) : Res Unit :=
  if c then bail text else .ok ()

/-- `.context(text)?` of an option. -/
def context (o : Option α) (text : String) : Res α :=
  match o with
  | some a => .ok a
  | none => bail text

/-- `a + b`. -/
def add (a b : ℕ) : Res ℕ := if a + b < 2 ^ 64 then .ok (a + b) else .error .panic

/-- `a - b`. -/
def sub (a b : ℕ) : Res ℕ := if b ≤ a then .ok (a - b) else .error .panic

/-- `a * b`. -/
def mul (a b : ℕ) : Res ℕ := if a * b < 2 ^ 64 then .ok (a * b) else .error .panic

def checkedAdd (a b : ℕ) : Option ℕ := if a + b < 2 ^ 64 then some (a + b) else none

def checkedMul (a b : ℕ) : Option ℕ := if a * b < 2 ^ 64 then some (a * b) else none

/-- `b.get(i..j)`. -/
def getRange (b : List α) (i j : ℕ) : Option (List α) :=
  if i ≤ j ∧ j ≤ b.length then some ((b.drop i).take (j - i)) else none

/-- `b[i..j]`. -/
def slice (b : List α) (i j : ℕ) : Res (List α) :=
  if i ≤ j ∧ j ≤ b.length then .ok ((b.drop i).take (j - i)) else .error .panic

theorem bind_ok {r : Res α} {f : α → Res β} {a : α} (h : r = .ok a) : (r >>= f) = f a := by
  rw [h]
  rfl

theorem add_eq {a b : ℕ} (h : a + b < 2 ^ 64) : add a b = .ok (a + b) := if_pos h

theorem sub_eq {a b : ℕ} (h : b ≤ a) : sub a b = .ok (a - b) := if_pos h

theorem mul_eq {a b : ℕ} (h : a * b < 2 ^ 64) : mul a b = .ok (a * b) := if_pos h

theorem checkedAdd_eq {a b : ℕ} (h : a + b < 2 ^ 64) : checkedAdd a b = some (a + b) := if_pos h

theorem checkedMul_eq {a b : ℕ} (h : a * b < 2 ^ 64) : checkedMul a b = some (a * b) := if_pos h

theorem context_eq {o : Option α} {a : α} {text : String} (h : o = some a) :
    context o text = .ok a := by
  rw [h]
  rfl

theorem refuse_eq {c : Prop} [Decidable c] {text : String} (h : ¬ c) : refuse c text = .ok () :=
  if_neg h

end Res

/-! ## Places -/

/-- `c` is in `b`, from `i` on. -/
def At (b : List α) (i : ℕ) (c : List α) : Prop :=
  ∃ before after, b = before ++ c ++ after ∧ before.length = i

namespace At

variable {b c d : List α} {i : ℕ}

theorem le (h : At b i c) : i + c.length ≤ b.length := by
  obtain ⟨before, after, rfl, rfl⟩ := h
  rw [List.length_append, List.length_append]
  omega

theorem left (h : At b i (c ++ d)) : At b i c := by
  obtain ⟨before, after, rfl, rfl⟩ := h
  exact ⟨before, d ++ after, by simp only [List.append_assoc], rfl⟩

theorem right (h : At b i (c ++ d)) : At b (i + c.length) d := by
  obtain ⟨before, after, rfl, rfl⟩ := h
  exact ⟨before ++ c, after, by simp only [List.append_assoc], List.length_append⟩

theorem refl (b : List α) : At b 0 b := ⟨[], [], by simp, rfl⟩

theorem drop_take (h : At b i c) : (b.drop i).take c.length = c := by
  obtain ⟨before, after, rfl, rfl⟩ := h
  rw [List.append_assoc, List.drop_left, List.take_left]

/-- What is at a place of a part is there in the whole. -/
theorem trans {j : ℕ} (h : At b i c) (hd : At c j d) : At b (i + j) d := by
  obtain ⟨before, after, rfl, rfl⟩ := h
  obtain ⟨before', after', rfl, rfl⟩ := hd
  exact ⟨before ++ before', after' ++ after, by simp only [List.append_assoc],
    List.length_append⟩

theorem cast {j : ℕ} (h : At b i c) (hij : i = j) : At b j c := hij ▸ h

/-- In a table of rows of one length. -/
theorem flatMap {l : List β} {row : β → List α} {w : ℕ} (h : At b i (l.flatMap row))
    (hrow : ∀ x ∈ l, (row x).length = w) (j : ℕ) (hj : j < l.length) :
    At b (i + w * j) (row l[j]) := by
  induction l generalizing i j with
  | nil => cases hj
  | cons x l ih =>
    rw [List.flatMap_cons] at h
    cases j with
    | zero => exact h.left
    | succ j =>
      have hrest := ih h.right (fun y hy => hrow y (List.mem_cons_of_mem x hy)) j
        (Nat.lt_of_succ_lt_succ hj)
      rw [hrow x List.mem_cons_self] at hrest
      exact hrest.cast (by rw [Nat.mul_succ]; omega)

theorem getRange_eq {j : ℕ} (h : At b i c) (hj : j = i + c.length) :
    Res.getRange b i j = some c := by
  have hle := h.le
  have htake := h.drop_take
  rw [Res.getRange, if_pos (by omega), hj, Nat.add_sub_cancel_left, htake]

theorem slice_eq {j : ℕ} (h : At b i c) (hj : j = i + c.length) : Res.slice b i j = .ok c := by
  have hle := h.le
  have htake := h.drop_take
  rw [Res.slice, if_pos (by omega), hj, Nat.add_sub_cancel_left, htake]

end At

theorem at_iff {b c : List α} {i : ℕ} :
    At b i c ↔ i + c.length ≤ b.length ∧ (b.drop i).take c.length = c := by
  constructor
  · intro h
    exact ⟨h.le, h.drop_take⟩
  · rintro ⟨hle, htake⟩
    refine ⟨b.take i, b.drop (i + c.length), ?_, ?_⟩
    · calc b = b.take i ++ b.drop i := (List.take_append_drop i b).symm
        _ = b.take i ++ ((b.drop i).take c.length ++ (b.drop i).drop c.length) := by
          rw [List.take_append_drop c.length]
        _ = b.take i ++ c ++ b.drop (i + c.length) := by
          rw [htake, List.drop_drop, List.append_assoc]
    · rw [List.length_take]
      omega

instance [DecidableEq α] (b : List α) (i : ℕ) (c : List α) : Decidable (At b i c) :=
  decidable_of_iff _ at_iff.symm

theorem at_drop_take {b : List α} {i n : ℕ} (h : i + n ≤ b.length) :
    At b i ((b.drop i).take n) := by
  have hlength : ((b.drop i).take n).length = n := by
    rw [List.length_take, List.length_drop]
    omega
  rw [at_iff, hlength]
  exact ⟨h, rfl⟩

namespace Proc

instance : Monad (Proc σ) where
  pure a := fun s => (.ok a, s)
  bind m f := fun s =>
    match m s with
    | (.ok a, s') => f a s'
    | (.error stop, s') => (.error stop, s')

instance : MonadLift Res (Proc σ) where
  monadLift r := fun s => (r, s)

def bail (text : String) : Proc σ α := fun s => (.error (.err text), s)

def get : Proc σ σ := fun s => (.ok s, s)

def set (s : σ) : Proc σ Unit := fun _ => (.ok (), s)

def modify (g : σ → σ) : Proc σ Unit := fun s => (.ok (), g s)

/-- Code on a part of the state. -/
def on {τ : Type} (part : σ → τ) (put : τ → σ → σ) (m : Proc τ α) : Proc σ α := fun s =>
  ((m (part s)).1, put (m (part s)).2 s)

/-- Code with a larger state, which it starts with and of which a part is left. -/
def within {τ : Type} (start : τ → σ) (part : σ → τ) (m : Proc σ α) : Proc τ α := fun t =>
  ((m (start t)).1, part (m (start t)).2)

/-- What is left of the state if there is no stop. -/
def collect (m : Proc σ Unit) (s : σ) : Res σ :=
  match m s with
  | (.ok _, s') => .ok s'
  | (.error stop, _) => .error stop

theorem bind_ok {m : Proc σ α} {f : α → Proc σ β} {s s' : σ} {a : α} (h : m s = (.ok a, s')) :
    (m >>= f) s = f a s' := by
  show (match m s with | (.ok a, s') => f a s' | (.error stop, s') => (.error stop, s')) = _
  rw [h]

theorem bind_error {m : Proc σ α} {f : α → Proc σ β} {s s' : σ} {stop : Stop}
    (h : m s = (.error stop, s')) : (m >>= f) s = (.error stop, s') := by
  show (match m s with | (.ok a, s') => f a s' | (.error stop, s') => (.error stop, s')) = _
  rw [h]

theorem id_map (m : Proc σ α) : id <$> m = m := by
  funext s
  show (match m s with | (.ok a, s') => (.ok a, s') | (.error stop, s') => (.error stop, s')) = m s
  cases hrun : m s with
  | mk r s' => cases r <;> rfl

theorem bind_assoc {γ : Type} (m : Proc σ α) (f : α → Proc σ β) (g : β → Proc σ γ) :
    m >>= f >>= g = m >>= fun a => f a >>= g := by
  funext s
  cases hrun : m s with
  | mk r s' =>
    cases r with
    | ok a =>
      have hf : (m >>= f) s = f a s' := bind_ok hrun
      rw [bind_ok hrun]
      cases hrun' : f a s' with
      | mk r' s'' =>
        cases r' with
        | ok b => rw [bind_ok (hf.trans hrun'), bind_ok hrun']
        | error stop => rw [bind_error (hf.trans hrun'), bind_error hrun']
    | error stop => rw [bind_error (bind_error hrun), bind_error hrun]

instance : LawfulMonad (Proc σ) := LawfulMonad.mk' _ id_map (fun _ _ => rfl) bind_assoc

/-- A loop over what a list makes is a loop over the list, with one inside. -/
theorem forM_flatMap {ι κ : Type} (l : List ι) (g : ι → List κ) (p : κ → Proc σ Unit) :
    (l.flatMap g).forM p = l.forM fun x => (g x).forM p := by
  induction l with
  | nil => rfl
  | cons x l ih =>
    rw [List.flatMap_cons]
    show forM (g x ++ l.flatMap g) p = ((g x).forM p >>= fun _ => l.forM fun x => (g x).forM p)
    rw [List.forM_append, ← ih]
    rfl

theorem lift_bind_ok {r : Res α} {f : α → Proc σ β} {s : σ} {a : α} (h : r = .ok a) :
    ((monadLift r : Proc σ α) >>= f) s = f a s := by
  rw [h]
  rfl

end Proc

/-! ## No panic -/

/-- No panic, and `Q` of what is returned. -/
def Sound (r : Res α) (Q : α → Prop) : Prop :=
  match r with
  | .ok a => Q a
  | .error (.err _) => True
  | .error .panic => False

section Sound

variable {r : Res α} {f : α → Res β} {P : α → Prop} {Q : β → Prop}

theorem sound_pure {a : α} (h : P a) : Sound (pure a) P := h

theorem sound_bail (text : String) : Sound (Res.bail text) P := trivial

theorem Sound.bind (h : Sound r P) (hf : ∀ a, P a → Sound (f a) Q) : Sound (r >>= f) Q := by
  cases r with
  | ok a => exact hf a h
  | error stop =>
    cases stop with
    | err => trivial
    | panic => exact h

theorem Sound.mono {P' : α → Prop} (h : Sound r P) (himp : ∀ a, P a → P' a) : Sound r P' := by
  cases r with
  | ok a => exact himp a h
  | error stop =>
    cases stop with
    | err => trivial
    | panic => exact h

theorem Sound.ne_panic (h : Sound r P) : r ≠ .error .panic := by
  rintro rfl
  exact h

theorem sound_context (o : Option α) (text : String) (h : ∀ a, o = some a → P a) :
    Sound (Res.context o text) P := by
  cases o with
  | none => trivial
  | some a => exact h a rfl

theorem sound_refuse (c : Prop) [Decidable c] (text : String) :
    Sound (Res.refuse c text) fun _ => ¬ c := by
  rw [Res.refuse]
  split
  · trivial
  · assumption

theorem sound_add {a b : ℕ} (h : a + b < 2 ^ 64) : Sound (Res.add a b) (· = a + b) := by
  rw [Res.add, if_pos h]
  exact rfl

theorem sound_sub {a b : ℕ} (h : b ≤ a) : Sound (Res.sub a b) (· = a - b) := by
  rw [Res.sub, if_pos h]
  exact rfl

theorem sound_mul {a b : ℕ} (h : a * b < 2 ^ 64) : Sound (Res.mul a b) (· = a * b) := by
  rw [Res.mul, if_pos h]
  exact rfl

theorem sound_slice {b : List α} {i j : ℕ} (hij : i ≤ j) (hj : j ≤ b.length) :
    Sound (Res.slice b i j) fun c => c.length = j - i := by
  rw [Res.slice, if_pos ⟨hij, hj⟩]
  show ((b.drop i).take (j - i)).length = j - i
  rw [List.length_take, List.length_drop]
  omega

end Sound

/-- From `P` no panic, `Q` where it returns, and `E` where it stops with an error. -/
def Safe (P : σ → Prop) (m : Proc σ α) (Q : α → σ → Prop) (E : σ → Prop) : Prop :=
  ∀ s, P s →
    match m s with
    | (.ok a, s') => Q a s'
    | (.error (.err _), s') => E s'
    | (.error .panic, _) => False

section Safe

variable {P : σ → Prop} {m : Proc σ α} {f : α → Proc σ β} {R : α → σ → Prop}
  {Q : β → σ → Prop} {E : σ → Prop}

theorem safe_pure {a : α} (h : ∀ s, P s → R a s) : Safe P (pure a) R E := fun s hs => h s hs

theorem safe_bail (text : String) (h : ∀ s, P s → E s) : Safe P (Proc.bail text) R E :=
  fun s hs => h s hs

theorem safe_modify {g : σ → σ} {Q : Unit → σ → Prop} (h : ∀ s, P s → Q () (g s)) :
    Safe P (Proc.modify g) Q E := fun s hs => h s hs

theorem Safe.bind (h : Safe P m R E) (hf : ∀ a, Safe (R a) (f a) Q E) : Safe P (m >>= f) Q E := by
  intro s hs
  have hm := h s hs
  show match (match m s with | (.ok a, s') => f a s' | (.error stop, s') => (.error stop, s')) with
    | (.ok b, s') => Q b s' | (.error (.err _), s') => E s' | (.error .panic, _) => False
  cases hrun : m s with
  | mk r s' =>
    rw [hrun] at hm
    cases r with
    | ok a => exact hf a s' hm
    | error stop =>
      cases stop with
      | err => exact hm
      | panic => exact hm

/-- A fact about what is returned, next to the state. -/
theorem Safe.bind_fact {A : α → Prop} {P' : σ → Prop} (h : Safe P m (fun a s => A a ∧ P' s) E)
    (hf : ∀ a, A a → Safe P' (f a) Q E) : Safe P (m >>= f) Q E :=
  h.bind fun a s hs => hf a hs.1 s hs.2

/-- What does not touch the state. -/
theorem safe_lift {r : Res α} {A : α → Prop} (h : Sound r A) (hE : ∀ s, P s → E s) :
    Safe P (monadLift r) (fun a s => A a ∧ P s) E := by
  intro s hs
  cases r with
  | ok a => exact ⟨h, hs⟩
  | error stop =>
    cases stop with
    | err => exact hE s hs
    | panic => exact h

theorem safe_lift_bind {r : Res α} {A : α → Prop} (h : Sound r A) (hE : ∀ s, P s → E s)
    (hf : ∀ a, A a → Safe P (f a) Q E) : Safe P ((monadLift r : Proc σ α) >>= f) Q E :=
  (safe_lift h hE).bind_fact hf

/-- The state that was read is the one there is. -/
theorem safe_get_bind {f : σ → Proc σ β} (hf : ∀ s, P s → Safe (· = s) (f s) Q E) :
    Safe P (Proc.get >>= f) Q E := fun s hs => hf s hs s rfl

theorem safe_set_bind {s : σ} {f : Unit → Proc σ β} (hf : Safe (· = s) (f ()) Q E) :
    Safe P (Proc.set s >>= f) Q E := fun _ _ => hf s rfl

theorem safe_set {s : σ} {Q : Unit → σ → Prop} (h : Q () s) : Safe P (Proc.set s) Q E :=
  fun _ _ => h

theorem Safe.mono {P' : σ → Prop} {R' : α → σ → Prop} {E' : σ → Prop} (h : Safe P m R E)
    (hP : ∀ s, P' s → P s) (hR : ∀ a s, R a s → R' a s) (hE : ∀ s, E s → E' s) :
    Safe P' m R' E' := by
  intro s hs
  have hm := h s (hP s hs)
  cases hrun : m s with
  | mk r s' =>
    rw [hrun] at hm
    cases r with
    | ok a => exact hR a s' hm
    | error stop =>
      cases stop with
      | err => exact hE s' hm
      | panic => exact hm

section part

variable {τ : Type} {part : σ → τ} {n : Proc τ α} {P' : τ → Prop} {R' : α → τ → Prop}
  {E' : τ → Prop}

theorem safe_on {put : τ → σ → σ} (h : Safe P' n R' E') (hP : ∀ s, P s → P' (part s))
    (hR : ∀ s a t, P s → R' a t → R a (put t s)) (hE : ∀ s t, P s → E' t → E (put t s)) :
    Safe P (Proc.on part put n) R E := by
  intro s hs
  have hn := h (part s) (hP s hs)
  rw [Proc.on]
  cases hrun : n (part s) with
  | mk r t =>
    rw [hrun] at hn
    cases r with
    | ok a => exact hR s a t hs hn
    | error stop =>
      cases stop with
      | err => exact hE s t hs hn
      | panic => exact hn

theorem safe_within {start : τ → σ} (h : Safe P m R E) (hP : ∀ t, P' t → P (start t))
    (hR : ∀ a s, R a s → R' a (part s)) (hE : ∀ s, E s → E' (part s)) :
    Safe P' (Proc.within start part m) R' E' := by
  intro t ht
  have hm := h (start t) (hP t ht)
  rw [Proc.within]
  cases hrun : m (start t) with
  | mk r s =>
    rw [hrun] at hm
    cases r with
    | ok a => exact hR a s hm
    | error stop =>
      cases stop with
      | err => exact hE s hm
      | panic => exact hm

end part

/-- The two ways a run ends. -/
theorem Safe.run (h : Safe P m R E) {s : σ} (hs : P s) :
    (∃ a, (m s).1 = .ok a ∧ R a (m s).2) ∨
      ∃ text, (m s).1 = .error (.err text) ∧ E (m s).2 := by
  have hm := h s hs
  cases hrun : m s with
  | mk r s' =>
    rw [hrun] at hm
    cases r with
    | ok a => exact Or.inl ⟨a, rfl, hm⟩
    | error stop =>
      cases stop with
      | err text => exact Or.inr ⟨text, rfl, hm⟩
      | panic => exact hm.elim

theorem Safe.ne_panic (h : Safe P m R E) {s : σ} (hs : P s) : (m s).1 ≠ .error .panic := by
  obtain ⟨a, hrun, -⟩ | ⟨text, hrun, -⟩ := h.run hs
  · rw [hrun]
    nofun
  · rw [hrun]
    nofun

theorem Safe.collect {m : Proc σ Unit} {R : σ → Prop} (h : Safe P m (fun _ => R) E) {s : σ}
    (hs : P s) : Sound (m.collect s) R := by
  have hm := h s hs
  rw [Proc.collect]
  cases hrun : m s with
  | mk r s' =>
    rw [hrun] at hm
    cases r with
    | ok => exact hm
    | error stop =>
      cases stop with
      | err => trivial
      | panic => exact hm

/-- A loop, by an invariant. -/
theorem safe_forM {l : List α} {g : α → Proc σ Unit} {Inv : σ → Prop}
    (h : ∀ a ∈ l, Safe Inv (g a) (fun _ => Inv) E) : Safe Inv (l.forM g) (fun _ => Inv) E := by
  induction l with
  | nil => exact safe_pure fun s hs => hs
  | cons a l ih =>
    have hrest := ih fun b hb => h b (List.mem_cons_of_mem a hb)
    exact (h a List.mem_cons_self).bind fun _ => hrest

end Safe

end NostrSearch.Lib
