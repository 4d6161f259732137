import NostrSearch.Stats.Pagerank

/-!
# What the ranks are computed from

The nodes are the authors and whom they follow, whenever the list is compacted, and the packed
array has for each author the indices of its contact list. So an iteration hands on the mass of each
author to those it follows, and the ranks stay a distribution.

Indices and lengths are kept in 32 bits. The cap on the nodes and the size of a value in the
database are what keeps them in bounds.
-/

namespace NostrSearch.Stats

open NostrSearch.Lib

section Compact

theorem mem_dedup {x : Pubkey} (l : List Pubkey) : x ∈ dedup l ↔ x ∈ l := by
  induction l using dedup.induct with
  | case1 => rfl
  | case2 a => rfl
  | case3 a l ih =>
    rw [dedup, if_pos rfl, ih]
    simp
  | case4 a b l hab ih => rw [dedup, if_neg hab, List.mem_cons, ih, ← List.mem_cons]

/-- Sorted, the neighbours that are left are in strict order. -/
theorem nodup_dedup {l : List Pubkey} (h : l.Pairwise keyLe) : (dedup l).Nodup := by
  induction l using dedup.induct with
  | case1 => exact List.nodup_nil
  | case2 a => exact List.nodup_singleton a
  | case3 a l ih =>
    rw [dedup, if_pos rfl]
    exact ih (List.pairwise_cons.mp h).2
  | case4 a b l hab ih =>
    rw [dedup, if_neg hab, List.nodup_cons, mem_dedup]
    rw [List.pairwise_cons] at h
    refine ⟨?_, ih h.2⟩
    intro hmem
    -- `a` behind `b` would be equal to it
    have hle := h.1 b List.mem_cons_self
    rcases List.mem_cons.mp hmem with heq | hmem
    · exact hab heq
    · have hge := (List.pairwise_cons.mp h.2).1 a hmem
      exact hab (Std.Antisymm.antisymm a b hle hge)

@[simp] theorem mem_compact {x : Pubkey} {keys : List Pubkey} : x ∈ compact keys ↔ x ∈ keys := by
  rw [compact, mem_dedup, List.mem_mergeSort]

theorem nodup_compact (keys : List Pubkey) : (compact keys).Nodup :=
  nodup_dedup (List.pairwise_mergeSort' keyLe keys)

end Compact

namespace Pagerank

variable {g : GraphStore}

/-- The authors and whom they follow. -/
def nodeSet (g : GraphStore) : Finset Pubkey :=
  g.db.keys ∪ g.db.keys.biUnion fun author => (g.listOf author).toFinset

/-! ## Nodes -/

theorem mem_scanTurn (again : ℕ → ℕ) (s : Scan) (author : Pubkey) (f : Follows) (x : Pubkey) :
    x ∈ (scanTurn again s author f).keys ↔ x ∈ s.keys ∨ x = author ∨ x ∈ f.follows := by
  unfold scanTurn
  dsimp only
  split
  · rw [mem_compact]
    simp
  · simp

/-- An author of the database has a list. -/
theorem get_eq_some {author : Pubkey} (h : author ∈ g.db.keys) :
    ∃ f, g.get author = some f ∧ f.follows = g.listOf author := by
  obtain ⟨raw, hraw⟩ := Finmap.mem_iff.mp (Finmap.mem_keys.mp h)
  refine ⟨decode raw, ?_, ?_⟩
  · rw [GraphStore.get, hraw, Option.map_some]
  · rw [GraphStore.listOf, GraphStore.get, hraw]
    rfl

/-- Whenever the list is compacted, it has the same nodes. -/
theorem mem_foldl_scanTurn (again : ℕ → ℕ) (authors : List Pubkey)
    (hauthors : ∀ a ∈ authors, a ∈ g.db.keys) (s : Scan) (x : Pubkey) :
    x ∈ (authors.foldl (fun d k => (g.get k).elim d (scanTurn again d k)) s).keys ↔
      x ∈ s.keys ∨ ∃ a ∈ authors, x = a ∨ x ∈ g.listOf a := by
  induction authors generalizing s with
  | nil => simp
  | cons a authors ih =>
    obtain ⟨f, hget, hf⟩ := get_eq_some (hauthors a List.mem_cons_self)
    rw [List.foldl_cons, ih fun b hb => hauthors b (List.mem_cons_of_mem a hb), hget,
      Option.elim_some, mem_scanTurn, hf]
    simp only [List.mem_cons, exists_eq_or_imp, or_assoc]

theorem mem_nodes (first : ℕ) (again : ℕ → ℕ) {x : Pubkey} :
    x ∈ nodes first again g ↔ x ∈ nodeSet g := by
  rw [nodes, mem_compact, GraphStore.forEach,
    mem_foldl_scanTurn again _ fun a ha => mem_sortedKeys.mp ha]
  simp only [nodeSet, mem_sortedKeys, Finset.mem_union, Finset.mem_biUnion, List.mem_toFinset,
    List.not_mem_nil, false_or]
  constructor
  · rintro ⟨a, ha, rfl | hx⟩
    · exact Or.inl ha
    · exact Or.inr ⟨a, ha, hx⟩
  · rintro (hx | ⟨a, ha, hx⟩)
    · exact ⟨x, hx, Or.inl rfl⟩
    · exact ⟨a, ha, Or.inr hx⟩

theorem nodup_nodes (first : ℕ) (again : ℕ → ℕ) : (nodes first again g).Nodup := nodup_compact _

theorem length_nodes (first : ℕ) (again : ℕ → ℕ) :
    (nodes first again g).length = (nodeSet g).card := by
  rw [← List.toFinset_card_of_nodup (nodup_nodes first again)]
  congr 1
  ext x
  rw [List.mem_toFinset, mem_nodes]

/-! ## Edges -/

section Pack

variable {keys : List Pubkey}

theorem indexOf_of_mem (hlen : keys.length ≤ 2 ^ 32) {pk : Pubkey} (h : pk ∈ keys) :
    ∃ i, indexOf keys pk = some i ∧ keys[i]? = some pk := by
  cases hindex : keys.idxOf? pk with
  | none => exact absurd h (List.idxOf?_eq_none_iff.mp hindex)
  | some i =>
    obtain ⟨hlt, hget, -⟩ := List.idxOf?_eq_some_iff.mp hindex
    refine ⟨i, ?_, ?_⟩
    · rw [indexOf, hindex, Option.map_some, Nat.mod_eq_of_lt (by omega)]
    · rw [List.getElem?_eq_getElem hlt, hget]

/-- A contact list as indices. -/
theorem map_filterMap_indexOf (hlen : keys.length ≤ 2 ^ 32) (follows : List Pubkey)
    (h : ∀ pk ∈ follows, pk ∈ keys) :
    (follows.filterMap (indexOf keys)).map (fun i => keys[i]?) = follows.map some := by
  induction follows with
  | nil => rfl
  | cons pk follows ih =>
    obtain ⟨i, hi, hkey⟩ := indexOf_of_mem hlen (h pk List.mem_cons_self)
    rw [List.filterMap_cons_some hi, List.map_cons, hkey, List.map_cons,
      ih fun x hx => h x (List.mem_cons_of_mem pk hx)]

theorem getD_set_of_lt {l : List ℕ} {i : ℕ} (h : i < l.length) (x a : ℕ) :
    (l.set i x).getD a 0 = if a = i then x else l.getD a 0 := by
  rw [List.getD_eq_getElem?_getD]
  by_cases ha : a = i
  · rw [ha, List.getElem?_set_self h, if_pos rfl, Option.getD_some]
  · rw [List.getElem?_set_ne fun heq => ha heq.symm, if_neg ha, List.getD_eq_getElem?_getD]

/-- What is packed when these authors have been gone through. -/
structure Packed (g : GraphStore) (keys : List Pubkey) (authors : List Pubkey)
    (adj : Adjacency) : Prop where
  start_length : adj.start.length = keys.length
  deg_length : adj.deg.length = keys.length
  bound : ∀ a, adj.start.getD a 0 + adj.deg.getD a 0 ≤ adj.dst.length
  deg : ∀ a author, keys[a]? = some author →
    adj.deg.getD a 0 = if author ∈ authors then (g.listOf author).length else 0
  slices : ∀ a author, keys[a]? = some author →
    (slice adj a).map (fun i => keys[i]?) =
      if author ∈ authors then (g.listOf author).map some else []

/-- A turn, with the length it computes. -/
theorem packTurn_eq {adj : Adjacency} {author : Pubkey} {f : Follows} {i : ℕ}
    (hi : indexOf keys author = some i) (hilt : i < adj.start.length)
    (hlength : (f.follows.filterMap (indexOf keys)).length = f.follows.length)
    (hsize : f.follows.length < 2 ^ 32) :
    packTurn keys adj author f =
      { start := adj.start.set i adj.dst.length
        deg := adj.deg.set i f.follows.length
        dst := adj.dst ++ f.follows.filterMap (indexOf keys) } := by
  have hstart : (adj.start.set i adj.dst.length).getD i 0 = adj.dst.length := by
    rw [getD_set_of_lt hilt, if_pos rfl]
  unfold packTurn
  simp only [hi, hstart, List.length_append, Nat.add_sub_cancel_left, hlength,
    Nat.mod_eq_of_lt hsize]

/-- One author more. -/
theorem Packed.turn {authors : List Pubkey} {adj : Adjacency} (h : Packed g keys authors adj)
    (hlen : keys.length ≤ 2 ^ 32) (hnodup : keys.Nodup) {author : Pubkey} {f : Follows}
    (hf : f.follows = g.listOf author) (hauthor : author ∈ keys)
    (hfollows : ∀ pk ∈ f.follows, pk ∈ keys) (hsize : f.follows.length < 2 ^ 32) :
    Packed g keys (author :: authors) (packTurn keys adj author f) := by
  obtain ⟨i, hi, hkey⟩ := indexOf_of_mem hlen hauthor
  obtain ⟨hilt, -⟩ := List.getElem?_eq_some_iff.mp hkey
  have hmap := map_filterMap_indexOf hlen f.follows hfollows
  have hlength := congrArg List.length hmap
  rw [List.length_map, List.length_map] at hlength
  have hstartlt : i < adj.start.length := by
    rw [h.start_length]
    exact hilt
  have hother : ∀ a, a ≠ i → ∀ author', keys[a]? = some author' → author' ≠ author := by
    rintro a ha author' hget rfl
    obtain ⟨halt, hget⟩ := List.getElem?_eq_some_iff.mp hget
    obtain ⟨_, hkey⟩ := List.getElem?_eq_some_iff.mp hkey
    exact ha ((hnodup.getElem_inj_iff).mp (hget.trans hkey.symm))
  have hstart : ∀ a, (adj.start.set i adj.dst.length).getD a 0 =
      if a = i then adj.dst.length else adj.start.getD a 0 :=
    getD_set_of_lt hstartlt _
  have hdeg : ∀ a, (adj.deg.set i f.follows.length).getD a 0 =
      if a = i then f.follows.length else adj.deg.getD a 0 :=
    getD_set_of_lt (by rw [h.deg_length]; exact hilt) _
  rw [packTurn_eq hi hstartlt hlength hsize]
  constructor
  · rw [List.length_set, h.start_length]
  · rw [List.length_set, h.deg_length]
  · intro a
    rw [hstart, hdeg, List.length_append, hlength]
    have hold := h.bound a
    split <;> omega
  · intro a author' hget
    rw [hdeg]
    by_cases ha : a = i
    · subst ha
      rw [hkey, Option.some.injEq] at hget
      rw [if_pos rfl, ← hget, if_pos List.mem_cons_self, hf]
    · rw [if_neg ha, h.deg a author' hget]
      simp only [List.mem_cons, hother a ha author' hget, false_or]
  · intro a author' hget
    unfold slice
    rw [hstart, hdeg]
    by_cases ha : a = i
    · subst ha
      rw [hkey, Option.some.injEq] at hget
      rw [if_pos rfl, if_pos rfl, List.drop_left, ← hlength, List.take_length, hmap, ← hget,
        if_pos List.mem_cons_self, hf]
    · -- an older slice is in front of what is new
      have hold := h.bound a
      have hslice := h.slices a author' hget
      rw [if_neg ha, if_neg ha, List.drop_append_of_le_length (by omega),
        List.take_append_of_le_length (by rw [List.length_drop]; omega)]
      simp only [List.mem_cons, hother a ha author' hget, false_or]
      exact hslice

/-- All of them. -/
theorem packed_foldl (hlen : keys.length ≤ 2 ^ 32) (hnodup : keys.Nodup)
    (hkeys : ∀ pk ∈ nodeSet g, pk ∈ keys)
    (hsize : ∀ author, (g.listOf author).length < 2 ^ 32) (authors : List Pubkey)
    (hauthors : ∀ a ∈ authors, a ∈ g.db.keys) {seen : List Pubkey} {adj : Adjacency}
    (h : Packed g keys seen adj) :
    Packed g keys (authors.reverse ++ seen)
      (authors.foldl (fun d k => (g.get k).elim d (packTurn keys d k)) adj) := by
  induction authors generalizing seen adj with
  | nil => exact h
  | cons a authors ih =>
    have ha := hauthors a List.mem_cons_self
    obtain ⟨f, hget, hf⟩ := get_eq_some ha
    have hauthor : a ∈ keys := hkeys a (Finset.mem_union_left _ ha)
    have hfollows : ∀ pk ∈ f.follows, pk ∈ keys := by
      intro pk hpk
      apply hkeys
      apply Finset.mem_union_right
      rw [hf] at hpk
      exact Finset.mem_biUnion.mpr ⟨a, ha, List.mem_toFinset.mpr hpk⟩
    have hturn := h.turn hlen hnodup hf hauthor hfollows (hf ▸ hsize a)
    rw [List.foldl_cons, hget, Option.elim_some, List.reverse_cons, List.append_assoc]
    exact ih (fun b hb => hauthors b (List.mem_cons_of_mem a hb)) hturn

theorem slice_replicate (n a : ℕ) :
    slice { start := List.replicate n 0, deg := List.replicate n 0, dst := [] } a = [] := by
  rw [slice, List.drop_nil, List.take_nil]

theorem getD_replicate_zero (n a : ℕ) : (List.replicate n 0).getD a 0 = 0 := by
  rw [List.getD_eq_getElem?_getD, List.getElem?_replicate]
  split <;> rfl

theorem length_follows_le (raw : List UInt8) : (decode raw).follows.length ≤ raw.length := by
  unfold decode
  split
  · exact Nat.zero_le _
  · show (blocks 32 (raw.drop 8)).length ≤ raw.length
    rw [blocks, List.length_map, List.length_range, List.length_drop]
    omega

theorem length_listOf_lt (hsize : ∀ author raw, g.db.lookup author = some raw → raw.length < 2 ^ 32)
    (author : Pubkey) : (g.listOf author).length < 2 ^ 32 := by
  rw [GraphStore.listOf, GraphStore.get]
  cases hraw : g.db.lookup author with
  | none => exact Nat.two_pow_pos 32
  | some raw => exact (length_follows_le raw).trans_lt (hsize author raw hraw)

/-- The slice of each node is its contact list, which is empty where there is none. -/
theorem packed_pack (hlen : keys.length ≤ 2 ^ 32) (hnodup : keys.Nodup)
    (hkeys : ∀ pk ∈ nodeSet g, pk ∈ keys)
    (hsize : ∀ author, (g.listOf author).length < 2 ^ 32) :
    Packed g keys (sortedKeys g.db).reverse (pack g keys) := by
  have hempty : Packed g keys []
      { start := List.replicate keys.length 0, deg := List.replicate keys.length 0, dst := [] } := by
    constructor
    · exact List.length_replicate
    · exact List.length_replicate
    · intro a
      rw [getD_replicate_zero]
      exact le_rfl
    · intro a author _
      exact getD_replicate_zero keys.length a
    · intro a author _
      rw [slice_replicate]
      rfl
  have hall := packed_foldl hlen hnodup hkeys hsize (sortedKeys g.db)
    (fun a ha => mem_sortedKeys.mp ha) hempty
  rw [List.append_nil] at hall
  exact hall

/-- A node without a record has no list. -/
theorem listOf_of_notMem {author : Pubkey} (h : author ∉ g.db.keys) : g.listOf author = [] := by
  rw [GraphStore.listOf, GraphStore.get,
    Finmap.lookup_eq_none.mpr fun hmem => h (Finmap.mem_keys.mpr hmem)]
  rfl

theorem Packed.length_slice {authors : List Pubkey} {adj : Adjacency}
    (h : Packed g keys authors adj) (a : ℕ) : (slice adj a).length = adj.deg.getD a 0 := by
  have hbound := h.bound a
  rw [slice, List.length_take, List.length_drop]
  omega

end Pack

/-! ## Ranks -/

section Rank

variable {n : ℕ} {adj : Adjacency}

theorem spread_eq_handOn (h : ∀ a, (slice adj a).length = adj.deg.getD a 0) (rank : List ℚ) :
    spread adj rank = handOn DAMPING (slice adj) rank := by
  funext acc a
  unfold spread handOn addShares addAt
  rw [h]

theorem rankAfter_eq_walk (h : ∀ a, (slice adj a).length = adj.deg.getD a 0) (k : ℕ) :
    rankAfter n adj k = walk DAMPING n (slice adj) k := by
  induction k with
  | zero => rfl
  | succ k ih => rw [rankAfter, iterate, ih, spread_eq_handOn h, walk, walkStep]

/-- **Pagerank iterates the stored graph and conserves mass.** -/
theorem refresh_conserves (first : ℕ) (again : ℕ → ℕ) (g : GraphStore) (p : Pagerank)
    (hpos : 0 < (nodeSet g).card) (hmax : (nodeSet g).card ≤ p.maxNodes)
    (hcap : p.maxNodes ≤ 2 ^ 32)
    (hsize : ∀ author raw, g.db.lookup author = some raw → raw.length < 2 ^ 32) :
    let keys := nodes first again g
    let adj := pack g keys
    refreshWith first again (some g) p =
        { p with
          ranks := (keepTop (keys.zip (rankAfter keys.length adj ITERATIONS))).foldl
            (fun m x => m.insert x.1 x.2) ∅
          unhealthy := none } ∧
      keys.Nodup ∧ keys.toFinset = nodeSet g ∧
      (∀ a author, keys[a]? = some author →
        adj.start.getD a 0 + adj.deg.getD a 0 ≤ adj.dst.length ∧
          (slice adj a).map (fun i => keys[i]?) = (g.listOf author).map some) ∧
      ∀ k, Distribution keys.length (rankAfter keys.length adj k) := by
  intro keys adj
  have hnodup : keys.Nodup := nodup_nodes first again
  have hlength : keys.length = (nodeSet g).card := length_nodes first again
  have hpacked : Packed g keys (sortedKeys g.db).reverse adj :=
    packed_pack (by omega) hnodup (fun pk hpk => (mem_nodes first again).mpr hpk)
      (length_listOf_lt hsize)
  have hslice : ∀ a author, keys[a]? = some author →
      (slice adj a).map (fun i => keys[i]?) = (g.listOf author).map some := by
    intro a author hget
    rw [hpacked.slices a author hget]
    split
    case isTrue => rfl
    case isFalse hmem =>
      rw [List.mem_reverse, mem_sortedKeys] at hmem
      rw [listOf_of_notMem hmem]
      rfl
  refine ⟨?_, hnodup, ?_, ?_, ?_⟩
  · have hle : ¬ p.maxNodes < keys.length := by omega
    have hne : ¬ keys.length = 0 := by omega
    rw [refreshWith]
    simp only [keys] at hle hne
    rw [if_neg hle, if_neg hne]
  · ext x
    rw [List.mem_toFinset, mem_nodes]
  · intro a author hget
    exact ⟨hpacked.bound a, hslice a author hget⟩
  · intro k
    rw [rankAfter_eq_walk hpacked.length_slice]
    apply distribution_walk (by omega) (by norm_num [DAMPING]) (by norm_num [DAMPING])
    intro a ha b hb
    -- an index of a slice is one of a node
    have hmap := hslice a keys[a] (List.getElem?_eq_getElem ha)
    have hmem : keys[b]? ∈ (slice adj a).map fun i => keys[i]? := List.mem_map_of_mem hb
    rw [hmap, List.mem_map] at hmem
    obtain ⟨author, -, hget⟩ := hmem
    exact (List.getElem?_eq_some_iff.mp hget.symm).1

/-- Two authors, the first follows the second and a third. -/
def threeNodes : GraphStore :=
  (GraphStore.empty.put (Vector.replicate 32 1) 10
    [Vector.replicate 32 2, Vector.replicate 32 3]).put (Vector.replicate 32 2) 10 []

theorem threeNodes_conserves :
    (nodes 0 id threeNodes).length = 3 ∧
      Distribution 3 (rankAfter 3 (pack threeNodes (nodes 0 id threeNodes)) ITERATIONS) := by
  have hcard : (nodeSet threeNodes).card = 3 := by decide +kernel
  have hsize : ∀ author raw, threeNodes.db.lookup author = some raw → raw.length < 2 ^ 32 := by
    intro author raw hraw
    have hmem : author ∈ threeNodes.db.keys :=
      Finmap.mem_keys.mpr (Finmap.mem_of_lookup_eq_some hraw)
    have hall : ∀ a ∈ threeNodes.db.keys, ∀ r ∈ threeNodes.db.lookup a, r.length < 2 ^ 32 := by
      decide +kernel
    exact hall author hmem raw hraw
  have hlength : (nodes 0 id threeNodes).length = 3 := (length_nodes 0 id).trans hcard
  have hranks : Distribution (nodes 0 id threeNodes).length
      (rankAfter (nodes 0 id threeNodes).length (pack threeNodes (nodes 0 id threeNodes))
        ITERATIONS) :=
    (refresh_conserves 0 id threeNodes default (by rw [hcard]; decide)
      (by rw [hcard]; decide) (by decide) hsize).2.2.2.2 ITERATIONS
  rw [hlength] at hranks
  exact ⟨hlength, hranks⟩

end Rank

end Pagerank

end NostrSearch.Stats
