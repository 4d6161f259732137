import NostrSearch.Lib.Patches
import Mathlib.Data.Finmap
import Mathlib.Data.Finset.Sort
import Mathlib.Tactic

/-!
# Maps of buckets

Counters are kept in maps from a key to a bucket that is made when it is first needed. `atEntry`
changes one bucket in place, and `absorb` merges the buckets of another map into those of the
first. `absorb` goes through the other map in the order of its keys; as no key comes twice,
`lookup_absorb` says the same whatever the order.

A bucket may have a map of its own. `mergePatch_union` is what is left of two such maps when one
is patched over the other.
-/

namespace NostrSearch.Lib

variable {κ β γ : Type*}

section AtEntry

variable [DecidableEq κ]

/-- `f` applied to the value of `k`, made from `d` if there is none. -/
def atEntry (m : Finmap fun _ : κ => β) (k : κ) (d : β) (f : β → β) : Finmap fun _ : κ => β :=
  m.insert k (f ((m.lookup k).getD d))

variable {m : Finmap fun _ : κ => β} {k : κ} {d : β} {f : β → β}

@[simp] theorem lookup_atEntry_self :
    (atEntry m k d f).lookup k = some (f ((m.lookup k).getD d)) := Finmap.lookup_insert m

theorem lookup_atEntry_of_ne {j : κ} (h : j ≠ k) : (atEntry m k d f).lookup j = m.lookup j :=
  Finmap.lookup_insert_of_ne m h

/-- As a function of the key. -/
theorem lookup_atEntry :
    (atEntry m k d f).lookup = Function.update m.lookup k (some (f ((m.lookup k).getD d))) := by
  funext j
  by_cases hjk : j = k
  · subst hjk
    rw [lookup_atEntry_self, Function.update_self]
  · rw [lookup_atEntry_of_ne hjk, Function.update_of_ne hjk]

theorem mem_atEntry {j : κ} : j ∈ atEntry m k d f ↔ j = k ∨ j ∈ m := Finmap.mem_insert

theorem keys_insert (m : Finmap fun _ : κ => β) (k : κ) (b : β) :
    (m.insert k b).keys = insert k m.keys := by
  ext j
  rw [Finmap.mem_keys, Finmap.mem_insert, Finset.mem_insert, Finmap.mem_keys]

theorem keys_atEntry : (atEntry m k d f).keys = insert k m.keys := keys_insert m k _

end AtEntry

section Absorb

variable [LinearOrder κ]

/-- The buckets of `src`, each merged into the bucket of its key in `m`. -/
def absorb (m : Finmap fun _ : κ => β) (d : β) (merge : β → γ → β)
    (src : Finmap fun _ : κ => γ) : Finmap fun _ : κ => β :=
  (src.keys.sort (· ≤ ·)).foldl
    (fun m k => (src.lookup k).elim m fun c => atEntry m k d fun b => merge b c) m

variable {m : Finmap fun _ : κ => β} {d : β} {merge : β → γ → β} {src : Finmap fun _ : κ => γ}

/-- One of the keys that are gone through once each. -/
private theorem lookup_foldl_absorb (ks : List κ) (hks : ks.Nodup) (m : Finmap fun _ : κ => β)
    (k : κ) :
    (ks.foldl (fun m k => (src.lookup k).elim m fun c => atEntry m k d fun b => merge b c)
        m).lookup k =
      if k ∈ ks then ((src.lookup k).map fun c => merge ((m.lookup k).getD d) c) <|> m.lookup k
      else m.lookup k := by
  induction ks generalizing m with
  | nil => rfl
  | cons j ks ih =>
    rw [List.nodup_cons] at hks
    rw [List.foldl_cons, ih hks.2]
    by_cases hkj : k = j
    · subst hkj
      rw [if_neg hks.1, if_pos List.mem_cons_self]
      cases src.lookup k with
      | none => rfl
      | some c =>
        show (atEntry m k d fun b => merge b c).lookup k = some (merge ((m.lookup k).getD d) c)
        exact lookup_atEntry_self
    · have hm : ((src.lookup j).elim m fun c => atEntry m j d fun b => merge b c).lookup k =
          m.lookup k := by
        cases src.lookup j with
        | none => rfl
        | some c =>
          show (atEntry m j d fun b => merge b c).lookup k = m.lookup k
          exact lookup_atEntry_of_ne hkj
      rw [hm]
      have hmem : k ∈ j :: ks ↔ k ∈ ks := by
        rw [List.mem_cons]
        exact ⟨fun h => h.resolve_left hkj, Or.inr⟩
      simp only [hmem]

/-- Each bucket on its own. -/
theorem lookup_absorb (k : κ) :
    (absorb m d merge src).lookup k =
      (((src.lookup k).map fun c => merge ((m.lookup k).getD d) c) <|> m.lookup k) := by
  rw [absorb, lookup_foldl_absorb _ (Finset.sort_nodup _ _)]
  by_cases hk : k ∈ src
  · rw [if_pos ((Finset.mem_sort _).mpr (Finmap.mem_keys.mpr hk))]
  · rw [if_neg fun h => hk (Finmap.mem_keys.mp ((Finset.mem_sort _).mp h)),
      Finmap.lookup_eq_none.mpr hk]
    rfl

theorem lookup_absorb_of_notMem {k : κ} (h : k ∉ src) :
    (absorb m d merge src).lookup k = m.lookup k := by
  rw [lookup_absorb, Finmap.lookup_eq_none.mpr h]
  rfl

theorem lookup_absorb_of_some {k : κ} {c : γ} (h : src.lookup k = some c) :
    (absorb m d merge src).lookup k = some (merge ((m.lookup k).getD d) c) := by
  rw [lookup_absorb, h]
  rfl

theorem keys_absorb : (absorb m d merge src).keys = m.keys ∪ src.keys := by
  ext k
  rw [Finmap.mem_keys, Finset.mem_union, Finmap.mem_keys, Finmap.mem_keys, ← Finmap.lookup_isSome,
    lookup_absorb, ← Finmap.lookup_isSome, ← Finmap.lookup_isSome]
  cases src.lookup k with
  | none => simp
  | some c => simp

end Absorb

section Retain

variable [LinearOrder κ] {m : Finmap fun _ : κ => β} {p : κ → Prop} [DecidablePred p]

/-- The buckets whose keys have `p`. -/
def retain (m : Finmap fun _ : κ => β) (p : κ → Prop) [DecidablePred p] : Finmap fun _ : κ => β :=
  ((m.keys.filter fun k => ¬ p k).sort (· ≤ ·)).foldl (fun m k => m.erase k) m

private theorem lookup_foldl_erase (ks : List κ) (m : Finmap fun _ : κ => β) (k : κ) :
    (ks.foldl (fun m k => m.erase k) m).lookup k = if k ∈ ks then none else m.lookup k := by
  induction ks generalizing m with
  | nil => rfl
  | cons j ks ih =>
    rw [List.foldl_cons, ih]
    by_cases hks : k ∈ ks
    · rw [if_pos hks, if_pos (List.mem_cons_of_mem j hks)]
    · rw [if_neg hks]
      by_cases hkj : k = j
      · rw [hkj, Finmap.lookup_erase, if_pos List.mem_cons_self]
      · rw [Finmap.lookup_erase_ne hkj, if_neg]
        intro hmem
        exact (List.mem_cons.mp hmem).elim hkj hks

theorem lookup_retain (k : κ) : (retain m p).lookup k = if p k then m.lookup k else none := by
  rw [retain, lookup_foldl_erase]
  simp only [Finset.mem_sort, Finset.mem_filter]
  by_cases hp : p k
  · rw [if_pos hp, if_neg fun h => h.2 hp]
  · rw [if_neg hp]
    by_cases hk : k ∈ m.keys
    · rw [if_pos ⟨hk, hp⟩]
    · rw [if_neg fun h => hk h.1, Finmap.lookup_eq_none]
      exact fun h => hk (Finmap.mem_keys.mpr h)

theorem keys_retain : (retain m p).keys = m.keys.filter p := by
  ext k
  rw [Finmap.mem_keys, ← Finmap.lookup_isSome, lookup_retain, Finset.mem_filter, Finmap.mem_keys,
    ← Finmap.lookup_isSome]
  by_cases hp : p k <;> simp [hp]

/-- Every bucket changed in place. -/
def mapBuckets (m : Finmap fun _ : κ => β) (d : γ) (f : β → γ) : Finmap fun _ : κ => γ :=
  absorb ∅ d (fun _ b => f b) m

theorem lookup_mapBuckets {d : γ} {f : β → γ} (k : κ) :
    (mapBuckets m d f).lookup k = (m.lookup k).map f := by
  rw [mapBuckets, lookup_absorb, Finmap.lookup_empty]
  cases m.lookup k <;> rfl

theorem keys_mapBuckets {d : γ} {f : β → γ} : (mapBuckets m d f).keys = m.keys := by
  rw [mapBuckets, keys_absorb, Finmap.keys_empty, Finset.empty_union]

end Retain

section Union

variable [DecidableEq κ] {m m₀ : Finmap fun _ : κ => β}

theorem union_of_subset (h : m₀.keys ⊆ m.keys) : m ∪ m₀ = m := by
  apply Finmap.ext_lookup
  intro k
  by_cases hk : k ∈ m
  · exact Finmap.lookup_union_left hk
  · rw [Finmap.lookup_union_right hk, Finmap.lookup_eq_none.mpr hk, Finmap.lookup_eq_none]
    intro hk₀
    exact hk (Finmap.mem_keys.mp (h (Finmap.mem_keys.mpr hk₀)))

/-- Values that replace each other: the keys of both maps are left. -/
theorem mergePatch_union (c : Keys κ) {L : Layout β} (hL : ∀ b b₀, L.onto b b₀ = b)
    (m m₀ : Finmap fun _ : κ => β) :
    Json.mergePatch (c.view L m.lookup) (c.view L m₀.lookup) = c.view L (m ∪ m₀).lookup := by
  rw [c.mergePatch_view]
  congr 1
  funext k
  unfold Layout.patched
  beta_reduce
  by_cases hk : k ∈ m
  · obtain ⟨b, hb⟩ := Option.isSome_iff_exists.mp (Finmap.lookup_isSome.mpr hk)
    have hunion : (m ∪ m₀).lookup k = some b := by rw [Finmap.lookup_union_left hk, hb]
    rw [hunion, hb]
    show some ((m₀.lookup k).elim b (L.onto b)) = some b
    cases m₀.lookup k with
    | none => rfl
    | some b₀ => rw [Option.elim_some, hL]
  · have hunion : (m ∪ m₀).lookup k = m₀.lookup k := Finmap.lookup_union_right hk
    rw [hunion, Finmap.lookup_eq_none.mpr hk]
    rfl

end Union

end NostrSearch.Lib
