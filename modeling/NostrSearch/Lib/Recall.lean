import Mathlib.Tactic

/-!
# A memory that forgets

Keys are presented at times that do not decrease, and each is to be accepted once. The memory of the
keys accepted is pruned by age: what is older than `w` is forgotten. The policies differ in the age
of a key that is presented again, which `keep` gives from the time remembered and the time now.

How often a key is accepted is a matter of the times it was presented at alone (`count_accepted`).
If the memory keeps the first time, it is accepted once if and only if any two of them are no more
than `w` apart; if it keeps the last, if and only if any two in turn are.
-/

namespace NostrSearch.Lib

variable {κ : Type*}

/-- The keys remembered, each with a time. -/
abbrev Memory (κ : Type*) := κ → Option ℕ

namespace Memory

def empty : Memory κ := fun _ => none

/-- What is remembered for longer than `w` is forgotten. -/
def retain (w now : ℕ) (m : Memory κ) : Memory κ :=
  fun k => (m k).filter fun t => decide (now - t ≤ w)

theorem retain_of_none {w : ℕ} {m : Memory κ} {k : κ} (h : m k = none) (now : ℕ) :
    m.retain w now k = none := by
  rw [retain, h]
  rfl

theorem retain_of_some {w : ℕ} {m : Memory κ} {k : κ} {a : ℕ} (h : m k = some a) (now : ℕ) :
    m.retain w now k = if now ≤ a + w then some a else none := by
  rw [retain, h, Option.filter_some]
  congr 1
  simp only [decide_eq_true_eq, eq_iff_iff]
  omega

variable [DecidableEq κ]

def insert (k : κ) (t : ℕ) (m : Memory κ) : Memory κ := Function.update m k (some t)

/-- A key is presented: prune, and accept it if it is not remembered. -/
def present (w : ℕ) (keep : ℕ → ℕ → ℕ) (m : Memory κ) (k : κ) (now : ℕ) : Bool × Memory κ :=
  match m.retain w now k with
  | some t => (false, (m.retain w now).insert k (keep t now))
  | none => (true, (m.retain w now).insert k now)

/-- The keys accepted, in turn. -/
def accepted (w : ℕ) (keep : ℕ → ℕ → ℕ) : Memory κ → List (κ × ℕ) → List κ
  | _, [] => []
  | m, p :: ps =>
    let (ok, m') := m.present w keep p.1 p.2
    (if ok then [p.1] else []) ++ accepted w keep m' ps

end Memory

/-- How often one key is accepted, when its time is `a` now. -/
def timesAccepted (w : ℕ) (keep : ℕ → ℕ → ℕ) : Option ℕ → List ℕ → ℕ
  | _, [] => 0
  | none, t :: ts => timesAccepted w keep (some t) ts + 1
  | some a, t :: ts =>
    if t ≤ a + w then timesAccepted w keep (some (keep a t)) ts
    else timesAccepted w keep (some t) ts + 1

variable {w : ℕ} {keep : ℕ → ℕ → ℕ}

/-- A time that is over for all that is to come is as good as forgotten. -/
theorem timesAccepted_over {a : ℕ} {ts : List ℕ} (h : ∀ t ∈ ts, a + w < t) :
    timesAccepted w keep (some a) ts = timesAccepted w keep none ts := by
  cases ts with
  | nil => rfl
  | cons t ts =>
    have ht : a + w < t := h t List.mem_cons_self
    rw [timesAccepted, timesAccepted, if_neg (by omega)]

/-- Nothing more is accepted while the first time holds. -/
theorem timesAccepted_first_eq_zero {a : ℕ} {ts : List ℕ} :
    timesAccepted w (fun old _ => old) (some a) ts = 0 ↔ ∀ t ∈ ts, t ≤ a + w := by
  induction ts with
  | nil => simp [timesAccepted]
  | cons t ts ih =>
    rw [timesAccepted, List.forall_mem_cons]
    by_cases ht : t ≤ a + w
    · rw [if_pos ht, ih]
      exact (and_iff_right ht).symm
    · rw [if_neg ht]
      exact ⟨fun h => absurd h (Nat.succ_ne_zero _), fun h => absurd h.1 ht⟩

/-- Nothing more is accepted while each time holds until the next. -/
theorem timesAccepted_last_eq_zero {a : ℕ} {ts : List ℕ} :
    timesAccepted w (fun _ now => now) (some a) ts = 0 ↔
      (a :: ts).IsChain fun b c => c ≤ b + w := by
  induction ts generalizing a with
  | nil => simp [timesAccepted]
  | cons t ts ih =>
    rw [timesAccepted, List.isChain_cons_cons]
    by_cases ht : t ≤ a + w
    · rw [if_pos ht, ih]
      exact (and_iff_right ht).symm
    · rw [if_neg ht]
      exact ⟨fun h => absurd h (Nat.succ_ne_zero _), fun h => absurd h.1 ht⟩

theorem timesAccepted_first_le_one {ts : List ℕ} (hts : ts.Pairwise (· ≤ ·)) :
    timesAccepted w (fun old _ => old) none ts ≤ 1 ↔ ts.Pairwise fun b c => c ≤ b + w := by
  cases ts with
  | nil => simp [timesAccepted]
  | cons t ts =>
    obtain ⟨hle, -⟩ := List.pairwise_cons.mp hts
    have hzero := @timesAccepted_first_eq_zero w t ts
    rw [timesAccepted, List.pairwise_cons]
    constructor
    · intro h
      have hall : ∀ c ∈ ts, c ≤ t + w := hzero.mp (by omega)
      refine ⟨hall, List.pairwise_of_forall_mem_list fun b hb c hc => ?_⟩
      have hb' := hle b hb
      have hc' := hall c hc
      omega
    · rintro ⟨hall, -⟩
      rw [hzero.mpr hall]

theorem timesAccepted_last_le_one {ts : List ℕ} :
    timesAccepted w (fun _ now => now) none ts ≤ 1 ↔ ts.IsChain fun b c => c ≤ b + w := by
  cases ts with
  | nil => simp [timesAccepted]
  | cons t ts =>
    rw [← timesAccepted_last_eq_zero, timesAccepted]
    omega

/-- Pruning takes nothing away that would be of use later. -/
theorem timesAccepted_retain {now : ℕ} (m : Memory κ) (k : κ) {ts : List ℕ}
    (h : ∀ t ∈ ts, now ≤ t) :
    timesAccepted w keep (m.retain w now k) ts = timesAccepted w keep (m k) ts := by
  cases hm : m k with
  | none => rw [Memory.retain_of_none hm]
  | some a =>
    rw [Memory.retain_of_some hm]
    split
    · rfl
    · refine (timesAccepted_over fun t ht => ?_).symm
      have hle := h t ht
      omega

variable [DecidableEq κ]

/-- The times a key is presented at. -/
def timesOf (k : κ) (ps : List (κ × ℕ)) : List ℕ :=
  (ps.filter fun p => decide (p.1 = k)).map Prod.snd

theorem timesOf_cons_self (k : κ) (t : ℕ) (ps : List (κ × ℕ)) :
    timesOf k ((k, t) :: ps) = t :: timesOf k ps := by
  simp [timesOf]

theorem timesOf_cons_ne {k k' : κ} (h : k' ≠ k) (t : ℕ) (ps : List (κ × ℕ)) :
    timesOf k ((k', t) :: ps) = timesOf k ps := by
  simp [timesOf, h]

theorem mem_timesOf {k : κ} {t : ℕ} {ps : List (κ × ℕ)} : t ∈ timesOf k ps ↔ (k, t) ∈ ps := by
  simp [timesOf]

theorem timesOf_pairwise (k : κ) {ps : List (κ × ℕ)} (h : ps.Pairwise fun p q => p.2 ≤ q.2) :
    (timesOf k ps).Pairwise (· ≤ ·) :=
  List.pairwise_map.mpr (h.filter _)

/-- What is remembered of a key that is not the one presented. -/
theorem present_of_ne (m : Memory κ) {k k' : κ} (h : k' ≠ k) (now : ℕ) :
    (m.present w keep k' now).2 k = m.retain w now k := by
  unfold Memory.present
  split <;> exact Function.update_of_ne h.symm _ _

/-- A key is presented: what the memory says of it decides, whether it is pruned or not. -/
theorem timesAccepted_present (m : Memory κ) (k : κ) (now : ℕ) (ts : List ℕ) :
    timesAccepted w keep (m k) (now :: ts) =
      timesAccepted w keep ((m.present w keep k now).2 k) ts +
        if (m.present w keep k now).1 then 1 else 0 := by
  cases hm : m k with
  | none =>
    simp only [Memory.present, Memory.retain_of_none hm, Memory.insert, Function.update_self]
    rfl
  | some a =>
    rw [timesAccepted]
    by_cases ha : now ≤ a + w
    · simp only [Memory.present, Memory.retain_of_some hm, if_pos ha, Memory.insert,
          Function.update_self]
      rfl
    · simp only [Memory.present, Memory.retain_of_some hm, if_neg ha, Memory.insert,
          Function.update_self]
      rfl

/-- **What the other keys do is of no account.** How often a key is accepted is said by its own
times. -/
theorem count_accepted (m : Memory κ) (k : κ) {ps : List (κ × ℕ)}
    (hps : ps.Pairwise fun p q => p.2 ≤ q.2) :
    (Memory.accepted w keep m ps).count k = timesAccepted w keep (m k) (timesOf k ps) := by
  induction ps generalizing m with
  | nil => cases m k <;> rfl
  | cons p ps ih =>
    obtain ⟨k', t⟩ := p
    obtain ⟨hlater, hps'⟩ := List.pairwise_cons.mp hps
    have hts : ∀ u ∈ timesOf k ps, t ≤ u := fun u hu => hlater _ (mem_timesOf.mp hu)
    rw [Memory.accepted, List.count_append, ih _ hps']
    by_cases hk : k' = k
    · subst hk
      rw [timesOf_cons_self, timesAccepted_present, add_comm]
      split <;> simp
    · rw [timesOf_cons_ne hk, present_of_ne m hk, timesAccepted_retain m k hts]
      split <;> simp [List.count_cons_of_ne hk]

end NostrSearch.Lib
