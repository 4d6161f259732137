import Mathlib.Tactic

/-!
# Loops

The body of a loop is a function `σ → Turn σ ρ`: it goes round again from a new state, or leaves
with a result. `loop` runs it for at most so many turns, so that it is defined whatever the body
does. These rules are all that is used of it:

* `loop_rule`, what every turn keeps holds where the loop is left;
* `loop_ends`, a loop whose turns lower a variant is left, given turns enough;
* `loop_ends_within`, where the variant is a number, so many turns and one more are enough;
* `watch_rule`, what is true of the marks that the turns leave, whenever one looks.
-/

namespace NostrSearch.Lib

/-- What a turn of a loop comes to. -/
inductive Turn (σ ρ : Type*)
  | again (s : σ)
  | leave (r : ρ)
deriving DecidableEq

variable {σ ρ α : Type*} {body : σ → Turn σ ρ}

/-- The result of the loop, unless it takes more than `turns` turns. -/
def loop (body : σ → Turn σ ρ) : ℕ → σ → Option ρ
  | 0, _ => none
  | turns + 1, s =>
    match body s with
    | .again s' => loop body turns s'
    | .leave r => some r

theorem loop_again {s s' : σ} (h : body s = .again s') (turns : ℕ) :
    loop body (turns + 1) s = loop body turns s' := by
  rw [loop, h]

theorem loop_leave {s : σ} {r : ρ} (h : body s = .leave r) (turns : ℕ) :
    loop body (turns + 1) s = some r := by
  rw [loop, h]

/-- A loop that was left is left in the same way with more turns to go. -/
theorem loop_more {turns turns' : ℕ} {s : σ} {r : ρ} (h : loop body turns s = some r)
    (hle : turns ≤ turns') : loop body turns' s = some r := by
  induction turns generalizing s turns' with
  | zero => cases h
  | succ turns ih =>
    obtain ⟨k, rfl⟩ : ∃ k, turns' = k + 1 := ⟨turns' - 1, by omega⟩
    cases hbody : body s with
    | again s' =>
      rw [loop_again hbody] at h ⊢
      exact ih h (by omega)
    | leave r' =>
      rw [loop_leave hbody] at h ⊢
      exact h

/-- **The while rule.** What every turn keeps is true where the loop is left. -/
theorem loop_rule {Inv : σ → Prop} {Post : ρ → Prop}
    (hagain : ∀ s s', Inv s → body s = .again s' → Inv s')
    (hleave : ∀ s r, Inv s → body s = .leave r → Post r)
    {turns : ℕ} {s : σ} {r : ρ} (hs : Inv s) (hr : loop body turns s = some r) : Post r := by
  induction turns generalizing s with
  | zero => cases hr
  | succ turns ih =>
    cases hbody : body s with
    | again s' =>
      rw [loop_again hbody] at hr
      exact ih (hagain s s' hs hbody) hr
    | leave r' =>
      rw [loop_leave hbody] at hr
      cases hr
      exact hleave s r hs hbody

/-- **The variant rule.** A loop whose turns lower a variant is left. -/
theorem loop_ends [Preorder α] [WellFoundedLT α] {Inv : σ → Prop} (variant : σ → α)
    (hagain : ∀ s s', Inv s → body s = .again s' → Inv s' ∧ variant s' < variant s)
    {s : σ} (hs : Inv s) : ∃ n, ∀ turns, n ≤ turns → ∃ r, loop body turns s = some r := by
  induction hv : variant s using WellFoundedLT.induction generalizing s with
  | ind v ih =>
    subst hv
    cases hbody : body s with
    | leave r =>
      refine ⟨1, fun turns hturns => ⟨r, ?_⟩⟩
      obtain ⟨k, rfl⟩ : ∃ k, turns = k + 1 := ⟨turns - 1, by omega⟩
      exact loop_leave hbody k
    | again s' =>
      obtain ⟨hinv, hlt⟩ := hagain s s' hs hbody
      obtain ⟨n, hn⟩ := ih (variant s') hlt hinv rfl
      refine ⟨n + 1, fun turns hturns => ?_⟩
      obtain ⟨k, rfl⟩ : ∃ k, turns = k + 1 := ⟨turns - 1, by omega⟩
      rw [loop_again hbody]
      exact hn k (by omega)

/-- A variant in numbers bounds the turns. -/
theorem loop_ends_within {Inv : σ → Prop} (variant : σ → ℕ)
    (hagain : ∀ s s', Inv s → body s = .again s' → Inv s' ∧ variant s' < variant s)
    {turns : ℕ} {s : σ} (hs : Inv s) (hturns : variant s < turns) :
    ∃ r, loop body turns s = some r := by
  induction turns generalizing s with
  | zero => exact absurd hturns (Nat.not_lt_zero _)
  | succ turns ih =>
    cases hbody : body s with
    | again s' =>
      obtain ⟨hinv, hlt⟩ := hagain s s' hs hbody
      rw [loop_again hbody]
      exact ih hinv (by omega)
    | leave r => exact ⟨r, loop_leave hbody turns⟩

/-! ## Watched loops -/

section Watch

variable {μ π : Type*} {marks : σ → List μ}

/-- The marks that up to so many turns leave, in their order, and the result of the loop. -/
def watch (marks : σ → List μ) (body : σ → Turn σ ρ) : ℕ → σ → List μ × Option ρ
  | 0, _ => ([], none)
  | turns + 1, s =>
    match body s with
    | .again s' =>
      let rest := watch marks body turns s'
      (marks s ++ rest.1, rest.2)
    | .leave r => (marks s, some r)

theorem watch_again {s s' : σ} (h : body s = .again s') (turns : ℕ) :
    watch marks body (turns + 1) s =
      (marks s ++ (watch marks body turns s').1, (watch marks body turns s').2) := by
  rw [watch, h]

theorem watch_leave {s : σ} {r : ρ} (h : body s = .leave r) (turns : ℕ) :
    watch marks body (turns + 1) s = (marks s, some r) := by
  rw [watch, h]

/-- Watching changes nothing. -/
theorem watch_snd (turns : ℕ) (s : σ) : (watch marks body turns s).2 = loop body turns s := by
  induction turns generalizing s with
  | zero => rfl
  | succ turns ih =>
    cases hbody : body s with
    | again s' => rw [watch_again hbody, loop_again hbody, ih]
    | leave r => rw [watch_leave hbody, loop_leave hbody]

/-- **The rule of a watched loop.** `mark` is what a mark does to what is looked at. While marks are
still to come it is `Ok`; after the last of them it is as the result has it, or as the state has it
where the turns ran out. -/
theorem watch_rule {mark : π → μ → π} {Inv : σ → π → Prop} {Ok : π → Prop} {Post : ρ → π → Prop}
    (hturn : ∀ s p, Inv s p → ∀ pre, pre <+: marks s → pre ≠ marks s → Ok (pre.foldl mark p))
    (hagain : ∀ s s' p, Inv s p → body s = .again s' → Inv s' ((marks s).foldl mark p))
    (hleave : ∀ s r p, Inv s p → body s = .leave r → Post r ((marks s).foldl mark p))
    (turns : ℕ) {s : σ} {p : π} (hs : Inv s p) :
    let r := watch marks body turns s
    (∀ pre, pre <+: r.1 → pre ≠ r.1 → Ok (pre.foldl mark p)) ∧
      (∀ out, r.2 = some out → Post out (r.1.foldl mark p)) ∧
      (r.2 = none → ∃ s', Inv s' (r.1.foldl mark p)) := by
  induction turns generalizing s p with
  | zero =>
    refine ⟨fun pre hpre hne => absurd (List.prefix_nil.mp hpre) hne, fun out hout => ?_,
      fun _ => ⟨s, hs⟩⟩
    cases hout
  | succ turns ih =>
    cases hbody : body s with
    | leave out =>
      rw [watch_leave hbody]
      refine ⟨hturn s p hs, fun out' hout => ?_, fun hnone => ?_⟩
      · cases hout
        exact hleave s out p hs hbody
      · cases hnone
    | again s' =>
      rw [watch_again hbody]
      obtain ⟨hpre, hpost, hrest⟩ := ih (hagain s s' p hs hbody)
      refine ⟨fun pre hp hne => ?_, fun out hout => ?_, fun hnone => ?_⟩
      · -- within this turn, or after it
        obtain ⟨tail, htail⟩ := hp
        rcases List.append_eq_append_iff.mp htail with ⟨left, hmarks, -⟩ | ⟨pre', rfl, hrest'⟩
        · have hin : pre <+: marks s := ⟨left, hmarks.symm⟩
          by_cases heq : pre = marks s
          · subst heq
            refine hpre [] List.nil_prefix fun hnil => hne ?_
            rw [← hnil, List.append_nil]
          · exact hturn s p hs pre hin heq
        · rw [List.foldl_append]
          exact hpre pre' ⟨tail, hrest'.symm⟩ fun heq => hne (by rw [heq])
      · rw [List.foldl_append]
        exact hpost out hout
      · rw [List.foldl_append]
        exact hrest hnone

end Watch

end NostrSearch.Lib
