import Mathlib.Logic.Relation
import Mathlib.Order.WellFoundedSet
import Mathlib.Tactic

/-!
# Layers of a relation

Elements are put in layers such that each stands behind all that are below it, and right behind one
of them unless it is in the first layer. There is at most one way to do so (`Layered.isGreatest`):
the layer of an element is the length of the longest chain that ends at it. A relation with a cycle
has no layers, and in a finite set of elements a relation without one always has an element with
nothing below it (`exists_first`).
-/

namespace NostrSearch.Lib

open Relation

variable {α : Type*} {R : α → α → Prop}

/-- A chain of so many links ends at an element. -/
inductive ChainTo (R : α → α → Prop) : ℕ → α → Prop
  | start (a : α) : ChainTo R 0 a
  | link {n : ℕ} {a b : α} (h : ChainTo R n a) (hab : R a b) : ChainTo R (n + 1) b

/-- The layer of an element is the first behind the layers of those below it. -/
structure Layered (R : α → α → Prop) (layer : α → ℕ) : Prop where
  lt : ∀ a b, R a b → layer a < layer b
  behind : ∀ b, 0 < layer b → ∃ a, R a b ∧ layer a + 1 = layer b

namespace Layered

variable {layer : α → ℕ}

theorem le_of_chainTo (h : Layered R layer) {n : ℕ} {b : α} (hb : ChainTo R n b) :
    n ≤ layer b := by
  induction hb with
  | start a => exact Nat.zero_le _
  | link hchain hab ih => exact Nat.succ_le_of_lt (lt_of_le_of_lt ih (h.lt _ _ hab))

theorem chainTo (h : Layered R layer) (b : α) : ChainTo R (layer b) b := by
  induction hn : layer b generalizing b with
  | zero => exact .start b
  | succ n ih =>
    obtain ⟨a, hab, ha⟩ := h.behind b (by omega)
    exact .link (ih a (by omega)) hab

/-- **The layer of an element** is the length of the longest chain to it. -/
theorem isGreatest (h : Layered R layer) (b : α) : IsGreatest {n | ChainTo R n b} (layer b) :=
  ⟨h.chainTo b, fun _ hn => h.le_of_chainTo hn⟩

theorem lt_of_transGen (h : Layered R layer) {a b : α} (hab : TransGen R a b) :
    layer a < layer b := by
  induction hab with
  | single hstep => exact h.lt _ _ hstep
  | tail _ hstep ih => exact ih.trans (h.lt _ _ hstep)

theorem acyclic (h : Layered R layer) (a : α) : ¬ TransGen R a a :=
  fun haa => lt_irrefl _ (h.lt_of_transGen haa)

end Layered

/-- **Without a cycle something comes first.** Of finitely many elements one has none of them below
it. -/
theorem exists_first (hacyclic : ∀ a, ¬ TransGen R a a) {s : Finset α} (hs : s.Nonempty) :
    ∃ a ∈ s, ∀ b ∈ s, ¬ R b a := by
  have horder : IsStrictOrder α (TransGen R) :=
    { irrefl := hacyclic
      trans := fun _ _ _ => TransGen.trans }
  have hwf : Set.WellFoundedOn (s : Set α) (TransGen R) := Finset.wellFoundedOn s
  obtain ⟨a, ha⟩ := hs
  obtain ⟨⟨m, hm⟩, -, hmin⟩ := hwf.has_min Set.univ ⟨⟨a, ha⟩, Set.mem_univ _⟩
  exact ⟨m, hm, fun b hb hbm => hmin ⟨b, hb⟩ (Set.mem_univ _) (TransGen.single hbm)⟩

end NostrSearch.Lib
