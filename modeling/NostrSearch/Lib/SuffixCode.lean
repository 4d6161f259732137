import Mathlib.Tactic

/-!
# Suffix codes

Pieces none of which is empty or the end of another. A list that ends in such pieces ends in them in
one way, and what is left when all of them are taken off does not depend on the order in which this
is done (`Clean.unique`). A function that only takes such pieces off the end `Sheds` them; where one
such function after the other leaves a list as it is, each does (`Sheds.comp_eq_self`).
-/

namespace NostrSearch.Lib

variable {α : Type*} {P Q : List α → Prop}

/-- None of the pieces is empty or ends in another. -/
structure SuffixCode (P : List α → Prop) : Prop where
  ne_nil : ∀ p, P p → p ≠ []
  eq_of_suffix : ∀ p q, P p → P q → p <:+ q → p = q

/-- Pieces one after the other. -/
def Pieces (P : List α → Prop) (t : List α) : Prop :=
  ∃ ps : List (List α), (∀ p ∈ ps, P p) ∧ t = ps.flatten

/-- No piece at the end. -/
def Clean (P : List α → Prop) (s : List α) : Prop := ∀ p, P p → ¬ p <:+ s

theorem Pieces.nil : Pieces P [] := ⟨[], nofun, rfl⟩

theorem Pieces.append {t u : List α} (ht : Pieces P t) (hu : Pieces P u) : Pieces P (t ++ u) := by
  obtain ⟨ps, hps, rfl⟩ := ht
  obtain ⟨qs, hqs, rfl⟩ := hu
  exact ⟨ps ++ qs, List.forall_mem_append.mpr ⟨hps, hqs⟩, List.flatten_append.symm⟩

theorem Pieces.single {p : List α} (h : P p) : Pieces P p :=
  ⟨[p], List.forall_mem_singleton.mpr h, by simp⟩

/-- Elements each of which is a piece. -/
theorem Pieces.of_elements {t : List α} (h : ∀ x ∈ t, P [x]) : Pieces P t := by
  refine ⟨t.map fun x => [x], ?_, ?_⟩
  · intro p hp
    obtain ⟨x, hx, rfl⟩ := List.mem_map.mp hp
    exact h x hx
  · rw [← List.flatMap_def, List.flatMap_singleton']

theorem Clean.nil (hP : SuffixCode P) : Clean P [] :=
  fun p hp hsuffix => hP.ne_nil p hp (List.suffix_nil.mp hsuffix)

/-- **What is left is the same.** -/
theorem Clean.unique (hP : SuffixCode P) {a b t u : List α} (ha : Clean P a) (hb : Clean P b)
    (ht : Pieces P t) (hu : Pieces P u) (h : a ++ t = b ++ u) : a = b := by
  obtain ⟨ps, hps, rfl⟩ := ht
  obtain ⟨qs, hqs, rfl⟩ := hu
  induction ps using List.reverseRecOn generalizing qs with
  | nil =>
    rw [List.flatten_nil, List.append_nil] at h
    rcases List.eq_nil_or_concat qs with rfl | ⟨qs', q, rfl⟩
    · rw [h, List.flatten_nil, List.append_nil]
    · rw [List.concat_eq_append, List.flatten_concat, ← List.append_assoc] at h
      exact absurd ⟨_, h.symm⟩ (ha q (hqs q (by simp)))
  | append_singleton ps p ih =>
    rw [List.flatten_concat, ← List.append_assoc] at h
    rcases List.eq_nil_or_concat qs with rfl | ⟨qs', q, rfl⟩
    · rw [List.flatten_nil, List.append_nil] at h
      exact absurd ⟨_, h⟩ (hb p (hps p (by simp)))
    · rw [List.concat_eq_append] at hqs h
      rw [List.flatten_concat, ← List.append_assoc] at h
      -- the last pieces end one list, so that one ends the other
      have hpq : p = q := by
        have hp := hps p (by simp)
        have hq := hqs q (by simp)
        rcases List.suffix_or_suffix_of_suffix (List.suffix_append _ p) (h ▸ List.suffix_append _ q)
          with hsuffix | hsuffix
        · exact hP.eq_of_suffix p q hp hq hsuffix
        · exact (hP.eq_of_suffix q p hq hp hsuffix).symm
      subst hpq
      exact ih (fun x hx => hps x (List.mem_append_left _ hx)) qs'
        (fun x hx => hqs x (List.mem_append_left _ hx)) (List.append_cancel_right h)

/-! ## Taking pieces off -/

/-- The function takes pieces off the end. -/
def Sheds (P : List α → Prop) (f : List α → List α) : Prop :=
  ∀ s, ∃ t, Pieces P t ∧ s = f s ++ t

variable {f g : List α → List α}

theorem Sheds.length_le (hf : Sheds P f) (s : List α) : (f s).length ≤ s.length := by
  obtain ⟨t, -, ht⟩ := hf s
  have hlen := congrArg List.length ht
  rw [List.length_append] at hlen
  omega

/-- What is no shorter is the same. -/
theorem Sheds.eq_self (hf : Sheds P f) {s : List α} (h : s.length ≤ (f s).length) : f s = s := by
  obtain ⟨t, -, ht⟩ := hf s
  have hlen := congrArg List.length ht
  rw [List.length_append] at hlen
  have hnil : t = [] := List.eq_nil_of_length_eq_zero (by omega)
  rw [hnil, List.append_nil] at ht
  exact ht.symm

theorem Sheds.mono (hf : Sheds P f) (h : ∀ p, P p → Q p) : Sheds Q f := by
  intro s
  obtain ⟨t, ⟨ps, hps, hflat⟩, ht⟩ := hf s
  exact ⟨t, ⟨ps, fun p hp => h p (hps p hp), hflat⟩, ht⟩

theorem Sheds.comp (hg : Sheds P g) (hf : Sheds P f) : Sheds P fun s => g (f s) := by
  intro s
  obtain ⟨t, hpieces, ht⟩ := hf s
  obtain ⟨u, hpieces', hu⟩ := hg (f s)
  exact ⟨u ++ t, hpieces'.append hpieces, by rw [← List.append_assoc, ← hu, ← ht]⟩

/-- What one function after the other leaves as it is, each does. -/
theorem Sheds.comp_eq_self (hg : Sheds P g) (hf : Sheds P f) {s : List α} (h : g (f s) = s) :
    f s = s ∧ g s = s := by
  have hfs : f s = s := by
    refine hf.eq_self ?_
    calc s.length = (g (f s)).length := by rw [h]
      _ ≤ (f s).length := hg.length_le (f s)
  rw [hfs] at h
  exact ⟨hfs, h⟩

theorem Sheds.foldl {β : Type*} {step : List α → β → List α} {bs : List β}
    (hstep : ∀ b ∈ bs, Sheds P fun s => step s b) : Sheds P fun s => bs.foldl step s := by
  induction bs with
  | nil => exact fun s => ⟨[], Pieces.nil, (List.append_nil s).symm⟩
  | cons b bs ih =>
    obtain ⟨hb, hbs⟩ := List.forall_mem_cons.mp hstep
    exact Sheds.comp (ih hbs) hb

theorem Sheds.foldl_eq_self {β : Type*} {step : List α → β → List α} {bs : List β}
    (hstep : ∀ b ∈ bs, Sheds P fun s => step s b) {s : List α} (h : bs.foldl step s = s) :
    ∀ b ∈ bs, step s b = s := by
  induction bs with
  | nil => exact fun b hb => absurd hb List.not_mem_nil
  | cons b bs ih =>
    obtain ⟨hb, hbs⟩ := List.forall_mem_cons.mp hstep
    obtain ⟨hself, hrest⟩ := (Sheds.foldl hbs).comp_eq_self hb h
    exact List.forall_mem_cons.mpr ⟨hself, ih hbs hrest⟩

end NostrSearch.Lib
