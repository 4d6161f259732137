import Mathlib.Data.List.Lex
import Mathlib.Data.List.Infix
import Mathlib.Data.List.Sort
import Mathlib.Tactic.Common

/-!
# Ordered key-value stores

A store that keeps its entries in the order of their keys, where a key is a list of symbols and the
order is that of the dictionary. Keys with a prefix stand together: a scan that starts at the first
key not below the prefix, and stops at the first that does not have it, meets those that have it and
no other (`scan_eq_filter`).

`mem_put`, `mem_delete` and `get_eq_some` are what the operations do, in terms of the entries.
-/

namespace NostrSearch.Lib

variable {κ β : Type*} [LinearOrder κ]

/-! ## Prefixes in the order of the dictionary -/

theorem le_of_isPrefix {p k : List κ} (h : p <+: k) : p ≤ k := by
  induction p generalizing k with
  | nil =>
    cases k with
    | nil => exact le_refl _
    | cons a k => exact le_of_lt List.Lex.nil
  | cons a p ih =>
    cases k with
    | nil => cases List.prefix_nil.mp h
    | cons b k =>
      rw [List.cons_prefix_cons] at h
      rw [h.1]
      exact List.cons_le_cons b (ih h.2)

theorem le_of_cons_le_cons {a : κ} {l l' : List κ} (h : a :: l ≤ a :: l') : l ≤ l' := by
  by_contra hlt
  exact absurd (List.Lex.cons (not_le.mp hlt) : a :: l' < a :: l) (not_lt.mpr h)

/-- Between two keys with a prefix there are only keys that have it. -/
theorem isPrefix_of_between {p j k : List κ} (hpj : p ≤ j) (hjk : j ≤ k) (hk : p <+: k) :
    p <+: j := by
  induction p generalizing j k with
  | nil => exact List.nil_prefix
  | cons a p ih =>
    cases k with
    | nil => cases List.prefix_nil.mp hk
    | cons b k =>
      obtain rfl := (List.cons_prefix_cons.mp hk).1
      cases j with
      | nil => exact absurd (List.Lex.nil : ([] : List κ) < a :: p) (not_lt.mpr hpj)
      | cons c j =>
        have hca : c ≤ a := by
          by_contra hlt
          exact absurd (List.Lex.rel (not_le.mp hlt) : a :: k < c :: j) (not_lt.mpr hjk)
        have hac : a ≤ c := by
          by_contra hlt
          exact absurd (List.Lex.rel (not_le.mp hlt) : c :: j < a :: p) (not_lt.mpr hpj)
        obtain rfl := le_antisymm hca hac
        have hrest := (List.cons_prefix_cons.mp hk).2
        rw [List.cons_prefix_cons]
        exact ⟨rfl, ih (le_of_cons_le_cons hpj) (le_of_cons_le_cons hjk) hrest⟩

/-! ## Stores -/

/-- Entries in the order of their keys, each key once. -/
structure OrderedStore (κ β : Type*) [LinearOrder κ] where
  entries : List (List κ × β)
  sorted : entries.Pairwise fun a b => a.1 < b.1

namespace OrderedStore

def empty : OrderedStore κ β := ⟨[], List.Pairwise.nil⟩

def get (s : OrderedStore κ β) (k : List κ) : Option β :=
  (s.entries.find? fun e => e.1 = k).map Prod.snd

/-- The entries with one more, in its place. -/
def insertEntry (k : List κ) (v : β) : List (List κ × β) → List (List κ × β)
  | [] => [(k, v)]
  | e :: es =>
    if k < e.1 then (k, v) :: e :: es
    else if k = e.1 then (k, v) :: es
    else e :: insertEntry k v es

theorem mem_insertEntry {k : List κ} {v : β} {l : List (List κ × β)} {e : List κ × β}
    (h : l.Pairwise fun a b => a.1 < b.1) :
    e ∈ insertEntry k v l ↔ e = (k, v) ∨ (e ∈ l ∧ e.1 ≠ k) := by
  induction l with
  | nil => simp [insertEntry]
  | cons d l ih =>
    obtain ⟨hd, hl⟩ := List.pairwise_cons.mp h
    rw [insertEntry]
    split
    case isTrue hlt =>
      -- every entry comes after the new one
      have hne : ∀ e ∈ d :: l, e.1 ≠ k := by
        intro e he heq
        rcases List.mem_cons.mp he with rfl | he
        · exact absurd hlt (by rw [heq]; exact lt_irrefl k)
        · exact absurd (hlt.trans (hd e he)) (by rw [heq]; exact lt_irrefl k)
      rw [List.mem_cons]
      exact or_congr_right (iff_self_and.mpr (hne e))
    case isFalse =>
      split
      case isTrue heq =>
        have hne : ∀ e ∈ l, e.1 ≠ k := by
          intro e he
          rw [heq]
          exact (hd e he).ne'
        rw [List.mem_cons, List.mem_cons]
        constructor
        · rintro (he | he)
          · exact Or.inl he
          · exact Or.inr ⟨Or.inr he, hne e he⟩
        · rintro (he | ⟨rfl | he, hk⟩)
          · exact Or.inl he
          · exact absurd heq.symm hk
          · exact Or.inr he
      case isFalse hne =>
        rw [List.mem_cons, ih hl, List.mem_cons]
        constructor
        · rintro (rfl | he | ⟨he, hk⟩)
          · exact Or.inr ⟨Or.inl rfl, Ne.symm hne⟩
          · exact Or.inl he
          · exact Or.inr ⟨Or.inr he, hk⟩
        · rintro (he | ⟨rfl | he, hk⟩)
          · exact Or.inr (Or.inl he)
          · exact Or.inl rfl
          · exact Or.inr (Or.inr ⟨he, hk⟩)

theorem sorted_insertEntry {k : List κ} {v : β} {l : List (List κ × β)}
    (h : l.Pairwise fun a b => a.1 < b.1) :
    (insertEntry k v l).Pairwise fun a b => a.1 < b.1 := by
  induction l with
  | nil => exact List.pairwise_singleton _ _
  | cons d l ih =>
    obtain ⟨hd, hl⟩ := List.pairwise_cons.mp h
    rw [insertEntry]
    split
    case isTrue hlt =>
      refine List.pairwise_cons.mpr ⟨fun e he => ?_, h⟩
      rcases List.mem_cons.mp he with rfl | he
      · exact hlt
      · exact hlt.trans (hd e he)
    case isFalse hge =>
      split
      case isTrue heq =>
        refine List.pairwise_cons.mpr ⟨fun e he => ?_, hl⟩
        rw [show ((k, v) : List κ × β).1 = d.1 from heq]
        exact hd e he
      case isFalse hne =>
        refine List.pairwise_cons.mpr ⟨fun e he => ?_, ih hl⟩
        rcases (mem_insertEntry hl).mp he with rfl | ⟨he, -⟩
        · exact lt_of_le_of_ne (not_lt.mp hge) (Ne.symm hne)
        · exact hd e he

def put (s : OrderedStore κ β) (k : List κ) (v : β) : OrderedStore κ β :=
  ⟨insertEntry k v s.entries, sorted_insertEntry s.sorted⟩

def delete (s : OrderedStore κ β) (k : List κ) : OrderedStore κ β :=
  ⟨s.entries.filter fun e => e.1 ≠ k, s.sorted.filter _⟩

/-- An iterator from the first key that is not below the prefix, up to the first without it. -/
def scan (s : OrderedStore κ β) (p : List κ) : List (List κ × β) :=
  (s.entries.dropWhile fun e => decide (e.1 < p)).takeWhile fun e => decide (p <+: e.1)

variable {s : OrderedStore κ β} {k j : List κ} {v w : β}

theorem mem_put {e : List κ × β} :
    e ∈ (s.put k v).entries ↔ e = (k, v) ∨ (e ∈ s.entries ∧ e.1 ≠ k) :=
  mem_insertEntry s.sorted

theorem mem_delete {e : List κ × β} : e ∈ (s.delete k).entries ↔ e ∈ s.entries ∧ e.1 ≠ k := by
  rw [delete, List.mem_filter, decide_eq_true_eq]

/-- A key has one entry at most. -/
theorem eq_of_mem (hv : (k, v) ∈ s.entries) (hw : (k, w) ∈ s.entries) : v = w := by
  have hnodup : (s.entries.map Prod.fst).Nodup :=
    List.pairwise_map.mpr (s.sorted.imp fun h => ne_of_lt h)
  exact congrArg Prod.snd (List.inj_on_of_nodup_map hnodup hv hw rfl)

theorem get_eq_some : s.get k = some v ↔ (k, v) ∈ s.entries := by
  rw [get, Option.map_eq_some_iff]
  constructor
  · rintro ⟨e, he, rfl⟩
    have hk := List.find?_some he
    rw [decide_eq_true_eq] at hk
    rw [← hk]
    exact List.mem_of_find?_eq_some he
  · intro hmem
    have hsome : (s.entries.find? fun e => e.1 = k).isSome :=
      List.find?_isSome.mpr ⟨(k, v), hmem, decide_eq_true rfl⟩
    obtain ⟨e, he⟩ := Option.isSome_iff_exists.mp hsome
    have hk := List.find?_some he
    rw [decide_eq_true_eq] at hk
    refine ⟨e, he, eq_of_mem (s := s) (k := k) ?_ hmem⟩
    rw [← hk]
    exact List.mem_of_find?_eq_some he

theorem get_put_self : (s.put k v).get k = some v :=
  get_eq_some.mpr (mem_put.mpr (Or.inl rfl))

theorem get_put_of_ne (h : j ≠ k) : (s.put k v).get j = s.get j := by
  refine Option.ext fun w => ?_
  rw [get_eq_some, get_eq_some, mem_put]
  constructor
  · rintro (heq | ⟨hmem, -⟩)
    · exact absurd (congrArg Prod.fst heq) h
    · exact hmem
  · exact fun hmem => Or.inr ⟨hmem, h⟩

theorem get_delete_self : (s.delete k).get k = none := by
  refine Option.eq_none_iff_forall_ne_some.mpr fun w hw => ?_
  exact (mem_delete.mp (get_eq_some.mp hw)).2 rfl

theorem get_delete_of_ne (h : j ≠ k) : (s.delete k).get j = s.get j := by
  refine Option.ext fun w => ?_
  rw [get_eq_some, get_eq_some, mem_delete]
  exact and_iff_left h

/-- Deleting keys one after another. -/
theorem get_deleteAll (keys : List (List κ)) :
    (keys.foldl delete s).get k = if k ∈ keys then none else s.get k := by
  induction keys generalizing s with
  | nil => rw [List.foldl_nil, if_neg List.not_mem_nil]
  | cons j keys ih =>
    rw [List.foldl_cons, ih]
    by_cases hk : k ∈ keys
    · rw [if_pos hk, if_pos (List.mem_cons_of_mem j hk)]
    · rw [if_neg hk]
      by_cases hkj : k = j
      · rw [hkj, get_delete_self, if_pos List.mem_cons_self]
      · rw [get_delete_of_ne hkj, if_neg]
        exact List.not_mem_cons_of_ne_of_not_mem hkj hk

/-! ## Scans -/

private theorem takeWhile_eq_filter {p : List κ} {l : List (List κ × β)}
    (hl : l.Pairwise fun a b => a.1 < b.1) (hp : ∀ e ∈ l, p ≤ e.1) :
    (l.takeWhile fun e => decide (p <+: e.1)) = l.filter fun e => decide (p <+: e.1) := by
  induction l with
  | nil => rfl
  | cons d l ih =>
    obtain ⟨hd, hl⟩ := List.pairwise_cons.mp hl
    rw [List.takeWhile_cons, List.filter_cons]
    by_cases hpre : p <+: d.1
    · rw [decide_eq_true hpre, if_pos rfl, if_pos rfl,
        ih hl fun e he => hp e (List.mem_cons_of_mem d he)]
    · rw [decide_eq_false hpre, if_neg Bool.false_ne_true, if_neg Bool.false_ne_true]
      -- a key with the prefix further on would have this one between
      refine (List.filter_eq_nil_iff.mpr fun e he hpe => hpre ?_).symm
      exact isPrefix_of_between (hp d List.mem_cons_self) (hd e he).le (of_decide_eq_true hpe)

/-- **A scan meets the keys with its prefix, all of them and no other**, in their order. -/
theorem scan_eq_filter (s : OrderedStore κ β) (p : List κ) :
    s.scan p = s.entries.filter fun e => decide (p <+: e.1) := by
  obtain ⟨l, hl⟩ := s
  unfold scan
  induction l with
  | nil => rfl
  | cons d l ih =>
    have htail := (List.pairwise_cons.mp hl).2
    by_cases hlt : d.1 < p
    · have hpre : ¬ p <+: d.1 := fun hpre => absurd (le_of_isPrefix hpre) (not_le.mpr hlt)
      rw [List.dropWhile_cons, List.filter_cons, decide_eq_true hlt, if_pos rfl,
        decide_eq_false hpre, if_neg Bool.false_ne_true]
      exact ih htail
    · rw [List.dropWhile_cons, decide_eq_false hlt, if_neg Bool.false_ne_true]
      refine takeWhile_eq_filter hl fun e he => ?_
      rcases List.mem_cons.mp he with rfl | he
      · exact not_lt.mp hlt
      · exact (not_lt.mp hlt).trans ((List.pairwise_cons.mp hl).1 e he).le

theorem mem_scan {p : List κ} {e : List κ × β} :
    e ∈ s.scan p ↔ e ∈ s.entries ∧ p <+: e.1 := by
  rw [scan_eq_filter, List.mem_filter, decide_eq_true_eq]

theorem sorted_scan (s : OrderedStore κ β) (p : List κ) :
    (s.scan p).Pairwise fun a b => a.1 < b.1 := by
  rw [scan_eq_filter]
  exact s.sorted.filter _

end OrderedStore

end NostrSearch.Lib
