import NostrSearch.Lib.Recipes
import NostrSearch.Stats.ActiveUsers
import Mathlib.Order.WithBot

/-!
# Sketches as joins

A sketch is the join of its keys: each key raises one register, and a merge takes the larger of two.
So are the maps of `active_users`, bucket by bucket, and what comes of folding and merging is that of
the set of events (`set_homomorphism`). What is trusted is part of what is counted, register by
register.
-/

namespace NostrSearch.Stats

open NostrSearch.Core NostrSearch.Lib

namespace Hll

/-- The registers, as numbers. -/
def reg (s : Hll) (i : Fin REGISTERS) : ℕ := (s.registers.get i).toNat

/-- The registers of one key. -/
def keyReg (key : Hash32) (i : Fin REGISTERS) : ℕ :=
  if i = idx (hash key) then (rank (hash key)).toNat else 0

theorem eq_of_reg {s t : Hll} (h : s.reg = t.reg) : s = t := by
  cases s with
  | mk a =>
    cases t with
    | mk b =>
      congr 1
      apply Vector.ext
      intro i hi
      exact UInt8.toNat_inj.mp (congrFun h ⟨i, hi⟩)

theorem reg_default (i : Fin REGISTERS) : default.reg i = 0 := by
  have hzero : default.registers.get i = 0 := by
    unfold default
    exact Vector.getElem_replicate i.isLt
  rw [reg, hzero]
  rfl

theorem reg_insert (s : Hll) (key : Hash32) : (s.insert key).reg = s.reg ⊔ keyReg key := by
  funext i
  rw [Pi.sup_apply, keyReg]
  unfold insert changes
  by_cases hi : i = idx (hash key)
  · rw [hi, if_pos rfl]
    by_cases hlt : s.registers.get (idx (hash key)) < rank (hash key)
    · have hle : s.reg (idx (hash key)) ≤ (rank (hash key)).toNat :=
        (UInt8.lt_iff_toNat_lt.mp hlt).le
      rw [decide_eq_true hlt, if_pos rfl, sup_eq_right.mpr hle]
      exact congrArg UInt8.toNat (Vector.getElem_set_self (idx (hash key)).isLt)
    · have hge : (rank (hash key)).toNat ≤ s.reg (idx (hash key)) :=
        Nat.le_of_not_lt fun h => hlt (UInt8.lt_iff_toNat_lt.mpr h)
      rw [decide_eq_false hlt, if_neg Bool.false_ne_true, sup_eq_left.mpr hge]
  · rw [if_neg hi, sup_eq_left.mpr (Nat.zero_le _)]
    split
    · have hne : (idx (hash key)).val ≠ i.val := fun h => hi (Fin.ext h.symm)
      exact congrArg UInt8.toNat (Vector.getElem_set_ne (idx (hash key)).isLt i.isLt hne)
    · rfl

theorem reg_merge (s t : Hll) : (s.merge t).reg = s.reg ⊔ t.reg := by
  funext i
  have hget : (s.merge t).registers.get i =
      if s.registers.get i < t.registers.get i then t.registers.get i else s.registers.get i := by
    unfold merge
    exact Vector.getElem_zipWith i.isLt
  rw [reg, hget, Pi.sup_apply]
  split
  case isTrue hlt => exact (sup_eq_right.mpr (UInt8.lt_iff_toNat_lt.mp hlt).le).symm
  case isFalse hge =>
    exact (sup_eq_left.mpr (Nat.le_of_not_lt fun h => hge (UInt8.lt_iff_toNat_lt.mpr h))).symm

end Hll

namespace ActiveUsers

/-- The registers of each bucket, and nothing where there is no bucket. -/
abbrev Levels := ℕ → WithBot (Fin REGISTERS → ℕ)

def level (m : Sketches) : Levels := fun start =>
  (m.lookup start).elim ⊥ fun sketch => (sketch.reg : WithBot (Fin REGISTERS → ℕ))

/-- What one key raises. -/
def keyLevel (start : ℕ) (pk : Pubkey) : Levels := fun k =>
  if k = start then (Hll.keyReg pk : WithBot (Fin REGISTERS → ℕ)) else ⊥

/-- The six maps. -/
def sketches (s : ActiveUsers) (p : Period) : Bool → Sketches
  | true => (s.side p).trusted
  | false => (s.side p).all

/-- What an event raises, in each of the maps. -/
def eventLevel (h : Handed) (p : Period) (isTrusted : Bool) : Levels :=
  if h.ev.usesThrowawayKey ∨ isTrusted = true ∧ h.ctx.authorTrusted = false then ⊥
  else keyLevel (p.start h.ev.createdAt) h.ctx.author

def levels (s : ActiveUsers) : Period → Bool → Levels := fun p b => level (s.sketches p b)

/-- What comes of folding events and merging reports. -/
def report (r : Recipe Handed) : ActiveUsers :=
  r.eval default (fun s h => (observe h.ev h.ctx s).1) merge

section Levels

variable {m m' : Sketches}

theorem eq_of_level (h : level m = level m') : m = m' := by
  apply Finmap.ext_lookup
  intro k
  have hk := congrFun h k
  unfold level at hk
  cases hm : m.lookup k with
  | none =>
    cases hm' : m'.lookup k with
    | none => rfl
    | some t =>
      rw [hm, hm'] at hk
      exact absurd hk WithBot.bot_ne_coe
  | some s =>
    cases hm' : m'.lookup k with
    | none =>
      rw [hm, hm'] at hk
      exact absurd hk WithBot.coe_ne_bot
    | some t =>
      rw [hm, hm'] at hk
      rw [Hll.eq_of_reg (WithBot.coe_injective hk)]

theorem level_insertAt (m : Sketches) (start : ℕ) (pk : Pubkey) :
    level (insertAt m start pk).1 = level m ⊔ keyLevel start pk := by
  funext k
  rw [Pi.sup_apply]
  unfold level keyLevel
  by_cases hk : k = start
  · have hinsert : (insertAt m start pk).1.lookup k =
        some (((m.lookup k).getD Hll.default).insert pk) := by
      rw [hk]
      exact Finmap.lookup_insert m
    rw [hinsert, if_pos hk]
    show ((Hll.insert _ pk).reg : WithBot (Fin REGISTERS → ℕ)) = _
    rw [Hll.reg_insert, WithBot.coe_sup]
    cases m.lookup k with
    | none =>
      rw [Option.getD_none, Option.elim_none, bot_sup_eq, ← WithBot.coe_sup, sup_eq_right.mpr]
      intro i
      rw [Hll.reg_default]
      exact Nat.zero_le _
    | some sketch => rfl
  · rw [Side.lookup_insertAt_of_ne hk, if_neg hk, sup_bot_eq]

theorem level_unionInto (m m' : Sketches) : level (unionInto m m') = level m ⊔ level m' := by
  funext k
  rw [Pi.sup_apply]
  unfold level unionInto
  rw [lookup_absorb]
  cases m'.lookup k with
  | none => exact (sup_bot_eq _).symm
  | some t =>
    show ((Hll.merge _ t).reg : WithBot (Fin REGISTERS → ℕ)) = _
    rw [Hll.reg_merge, WithBot.coe_sup]
    cases m.lookup k with
    | none =>
      rw [Option.getD_none, Option.elim_none, bot_sup_eq, ← WithBot.coe_sup, sup_eq_right.mpr]
      · rfl
      · intro i
        rw [Hll.reg_default]
        exact Nat.zero_le _
    | some sketch => rfl

end Levels

theorem levels_default : levels default = ⊥ := by
  funext p b k
  cases p <;> cases b <;> rfl

theorem levels_observe (s : ActiveUsers) (h : Handed) :
    levels (observe h.ev h.ctx s).1 = levels s ⊔ eventLevel h := by
  funext p b
  rw [Pi.sup_apply, Pi.sup_apply]
  unfold levels sketches eventLevel
  rw [side_observe]
  by_cases hkey : h.ev.usesThrowawayKey = true
  · rw [if_pos hkey, if_pos (Or.inl hkey), sup_bot_eq]
  · rw [if_neg hkey]
    cases b with
    | false =>
      rw [if_neg (by simp [hkey])]
      exact level_insertAt _ _ _
    | true =>
      show level (if h.ctx.authorTrusted = true then insertAt (s.side p).trusted _ _
        else ((s.side p).trusted, false)).1 = _
      cases htrusted : h.ctx.authorTrusted with
      | true =>
        rw [if_pos rfl, if_neg (by simp [hkey])]
        exact level_insertAt _ _ _
      | false =>
        rw [if_pos (Or.inr ⟨rfl, rfl⟩), sup_bot_eq]
        rfl

theorem levels_merge (s other : ActiveUsers) :
    levels (s.merge other) = levels s ⊔ levels other := by
  funext p b
  rw [Pi.sup_apply, Pi.sup_apply]
  unfold levels sketches
  rw [side_merge]
  cases b <;> exact level_unionInto _ _

/-! ## Sets of events -/

theorem sketches_eq_of_levels {s t : ActiveUsers} (h : levels s = levels t) :
    s.sketches = t.sketches := by
  funext p b
  exact eq_of_level (congrFun (congrFun h p) b)

/-- Only the set of the events matters. -/
theorem sketches_report_congr {r t : Recipe Handed} (h : ∀ x, x ∈ r.items ↔ x ∈ t.items) :
    (report r).sketches = (report t).sketches :=
  sketches_eq_of_levels (Recipe.eval_congr levels_default levels_observe levels_merge h)

/-- What trusted events raise is no more than what all of them raise. -/
theorem eventLevel_trusted_le (h : Handed) (p : Period) :
    eventLevel h p true ≤ eventLevel h p false := by
  unfold eventLevel
  by_cases htrusted : h.ev.usesThrowawayKey = true ∨ true = true ∧ h.ctx.authorTrusted = false
  · rw [if_pos htrusted]
    exact bot_le
  · rw [if_neg htrusted, if_neg fun hkey => htrusted (hkey.imp id fun h => absurd h.1 (by decide))]

theorem levels_trusted_le (r : Recipe Handed) (p : Period) :
    levels (report r) p true ≤ levels (report r) p false := by
  have hle := (Recipe.le_eval_iff levels_default levels_observe levels_merge r
    (levels (report r))).mp le_rfl
  -- the maps of all authors bound those of the trusted ones
  let bound : Period → Bool → Levels := fun p _ => levels (report r) p false
  have hbound : levels (report r) ≤ bound := by
    apply (Recipe.le_eval_iff levels_default levels_observe levels_merge r bound).mpr
    intro h hh p b
    cases b with
    | false => exact hle h hh p false
    | true => exact (eventLevel_trusted_le h p).trans (hle h hh p false)
  exact hbound p true

/-- A trusted sketch has its bucket, and is below it register by register. -/
theorem trusted_le_all (r : Recipe Handed) {p : Period} {start : ℕ} {t : Hll}
    (ht : ((report r).sketches p true).lookup start = some t) :
    ∃ a, ((report r).sketches p false).lookup start = some a ∧
      ∀ i, t.registers.get i ≤ a.registers.get i := by
  have hle := levels_trusted_le r p start
  unfold levels level at hle
  rw [ht, Option.elim_some] at hle
  cases ha : ((report r).sketches p false).lookup start with
  | none =>
    rw [ha] at hle
    exact absurd (le_bot_iff.mp hle) WithBot.coe_ne_bot
  | some a =>
    rw [ha, Option.elim_some, WithBot.coe_le_coe] at hle
    exact ⟨a, rfl, fun i => UInt8.le_iff_toNat_le.mpr (hle i)⟩

/-- The subtraction of a bucket takes away no more than there is. -/
theorem users_add_up (r : Recipe Handed) {len : Hll → ℕ}
    (hlen : ∀ t a : Hll, (∀ i, t.registers.get i ≤ a.registers.get i) → len t ≤ len a)
    {p : Period} {start : ℕ} {b : ActiveUsersBucket}
    (hb : bucketAt len ((report r).sketches p false) ((report r).sketches p true) start = some b) :
    ∃ a, ((report r).sketches p false).lookup start = some a ∧
      b.users.trusted + b.users.untrusted = len a := by
  unfold bucketAt at hb
  rw [Option.map_eq_some_iff] at hb
  obtain ⟨a, ha, rfl⟩ := hb
  refine ⟨a, ha, ?_⟩
  cases ht : ((report r).sketches p true).lookup start with
  | none => exact Nat.zero_add _
  | some t =>
    obtain ⟨a', ha', hle⟩ := trusted_le_all r ht
    rw [ha, Option.some.injEq] at ha'
    subst ha'
    exact Nat.add_sub_cancel' (hlen t a hle)

/-- **Sketches are a set homomorphism.** Folding and merging the events in any way leaves the maps
of folding them once; merging is associative, commutative and idempotent; and a trusted sketch is
below its bucket, so that with a monotone estimate trusted and untrusted users add up. -/
theorem set_homomorphism (r : Recipe Handed) (items : List Handed)
    (h : ∀ x, x ∈ r.items ↔ x ∈ items) :
    (report r).sketches =
        (items.foldl (fun s x => (observe x.ev x.ctx s).1) default).sketches ∧
      (∀ s t u : ActiveUsers, ((s.merge t).merge u).sketches = (s.merge (t.merge u)).sketches) ∧
      (∀ s t : ActiveUsers, (s.merge t).sketches = (t.merge s).sketches) ∧
      (∀ s : ActiveUsers, (s.merge s).sketches = s.sketches) ∧
      (∀ p start t, ((report r).sketches p true).lookup start = some t →
        ∃ a, ((report r).sketches p false).lookup start = some a ∧
          ∀ i, t.registers.get i ≤ a.registers.get i) ∧
      (∀ len : Hll → ℕ,
        (∀ t a : Hll, (∀ i, t.registers.get i ≤ a.registers.get i) → len t ≤ len a) →
        ∀ p start b,
          bucketAt len ((report r).sketches p false) ((report r).sketches p true) start = some b →
            ∃ a, ((report r).sketches p false).lookup start = some a ∧
              b.users.trusted + b.users.untrusted = len a) := by
  refine ⟨?_, ?_, ?_, ?_, ?_, ?_⟩
  · rw [← Recipe.eval_ofList]
    exact sketches_report_congr (t := Recipe.ofList items) (by simpa using h)
  · intro s t u
    apply sketches_eq_of_levels
    rw [levels_merge, levels_merge, levels_merge, levels_merge, sup_assoc]
  · intro s t
    apply sketches_eq_of_levels
    rw [levels_merge, levels_merge, sup_comm]
  · intro s
    apply sketches_eq_of_levels
    rw [levels_merge, sup_idem]
  · intro p start t ht
    exact trusted_le_all r ht
  · intro len hlen p start b hb
    exact users_add_up r hlen hb

/-- An event of a trusted author. -/
def visit : Handed where
  ev :=
    { id := "", pubkey := "", createdAt := 1700000000, kind := 1, tags := [], content := ""
      sig := "" }
  ctx :=
    { now := 1700000000, author := Vector.replicate 32 0, eventId := Vector.replicate 32 0
      world := World.empty.setWotTier (Vector.replicate 32 0) 1 }

/-- Folded three times in two reports that are merged, an event counts once. -/
theorem visit_once :
    (report (.merge (.fold .new visit) (.fold (.fold .new visit) visit))).sketches =
      ([visit].foldl (fun s x => (observe x.ev x.ctx s).1) default).sketches :=
  (set_homomorphism _ [visit] (by simp [Recipe.items])).1

end ActiveUsers

end NostrSearch.Stats
