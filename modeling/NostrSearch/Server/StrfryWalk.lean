import Mathlib.Order.Lattice
import NostrSearch.Server.StrfryLayout

/-!
# The walk finds every entry

Of a tree that is laid out in the pages of a file, the walk calls its callback with each entry, in
the order of the keys (`walk_complete`). It counts each page of the tree once, and these are not
more than the file has; and since a branch has two children, the tree is not as deep as the limit.
-/

namespace NostrSearch.Server.Strfry

open NostrSearch.Lib Res

namespace Tree

theorem length_pages_leaf (t : Tree 0) :
    t.pages.length = 1 + ((Page.nodes t).map fun n => n.2.pages.length).sum := by
  rw [pages, List.length_cons, List.length_flatMap, Nat.add_comm _ 1]

theorem length_pages_branch {h : ℕ} (t : Tree (h + 1)) :
    t.pages.length = 1 + ((Page.nodes t).map fun n => n.2.2.pages.length).sum := by
  rw [pages, List.length_cons, List.length_flatMap, Nat.add_comm _ 1]

end Tree

section walk

variable {db : Lmdb} {σ : Type} (f : Visit σ)

/-- What a walk does with an entry. -/
def Visit.entry (e : Entry) : Proc σ Unit := f e.key e.given e.nflags

/-- Two halves of a number. -/
theorem halves (v : ℕ) (hv : v < 2 ^ 32) :
    v % 2 ^ 16 ||| ((v / 2 ^ 16 % 2 ^ 16) <<< 16) = v := by
  rw [or_shift (Nat.mod_lt _ (by norm_num)), Nat.mod_eq_of_lt (a := v / 2 ^ 16) (by omega)]
  exact Nat.mod_add_div _ _

/-- The number of a page, of which the flags of the node have a part. -/
theorem thirds (v : ℕ) (hv : v < 2 ^ 48) :
    v % 2 ^ 16 ||| ((v / 2 ^ 16 % 2 ^ 16) <<< 16) ||| ((v / 2 ^ 32 % 2 ^ 16) <<< 32) = v := by
  rw [or_shift (a := v % 2 ^ 16) (Nat.mod_lt _ (by norm_num)), or_shift (by omega)]
  omega

/-- A leaf, after which as much is counted as it and the values of its entries have pages. -/
theorem spends_leaf {p : Page Entry} (h : p.Placed db P_LEAF Entry.bytes)
    (hentries : ∀ n ∈ p.nodes, n.2.Placed db) (levels depth : ℕ) :
    (db.meter σ).Spends (db.walkPage f (levels + 1) depth p.pgno)
      (p.nodes.forM fun n => f.entry n.2) (1 + (p.nodes.map fun n => n.2.pages.length).sum) := by
  apply (Lmdb.costs_enter depth).spends_free
  apply (Lmdb.costs_count 1).spends
  apply (costs_readPage h).spends_free
  apply Meter.Spends.lift_bind (pageHeader_eq h (by decide) (by decide))
  -- a turn of the loop for each node
  apply Meter.spends_range
  intro i hi
  have hplaced := hentries _ (List.getElem_mem hi)
  have hnflags := p.nodes[i].2.nflags_lt
  have hlength : (db.span p.pgno 1).length = db.pageSize := by
    rw [db.length_span h.inFile, Nat.one_mul]
  apply Meter.Spends.lift_bind (nodeAt_eq h hi rfl)
  -- its size is in two halves, and there is nothing else in the flags
  exact spends_leafNode hplaced f hlength (h.nodes _ (List.getElem_mem hi)).2
    (halves _ hplaced.value_lt) (Nat.mod_eq_of_lt hnflags) (Nat.mod_eq_of_lt hplaced.key_lt)

/-- A branch, from its children. -/
theorem spends_branch {h : ℕ} {p : Page (List UInt8 × Tree h)}
    (hpage : p.Placed db P_BRANCH fun n => branchBytes n.1 n.2.root)
    (hroot : ∀ n ∈ p.nodes, n.2.2.root < 2 ^ 48) {levels : ℕ} (depth : ℕ)
    (hchild : ∀ n ∈ p.nodes, (db.meter σ).Spends (db.walkPage f levels (depth + 1) n.2.2.root)
      (n.2.2.entries.forM f.entry) n.2.2.pages.length) :
    (db.meter σ).Spends (db.walkPage f (levels + 1) depth p.pgno)
      (p.nodes.forM fun n => n.2.2.entries.forM f.entry)
      (1 + (p.nodes.map fun n => n.2.2.pages.length).sum) := by
  apply (Lmdb.costs_enter depth).spends_free
  apply (Lmdb.costs_count 1).spends
  apply (costs_readPage hpage).spends_free
  apply Meter.Spends.lift_bind (pageHeader_eq hpage (by decide) (by decide))
  apply Meter.spends_range
  intro i hi
  -- the number of the child is where a leaf has the size and the flags
  have hbytes : branchBytes p.nodes[i].2.1 p.nodes[i].2.2.root =
      toLE p.nodes[i].2.2.root 4 ++ toLE (p.nodes[i].2.2.root / 2 ^ 32) 2 ++
        toLE p.nodes[i].2.1.length 2 ++ p.nodes[i].2.1 := by
    rw [branchBytes, toLE_add _ 4 2]
    rfl
  apply Meter.Spends.lift_bind (nodeAt_eq hpage hi hbytes)
  have hspends := hchild _ (List.getElem_mem hi)
  rw [← thirds _ (hroot _ (List.getElem_mem hi))] at hspends
  exact hspends

/-- By induction on the levels of branches. -/
theorem spends_walkPage {h : ℕ} {t : Tree h} (ht : t.Placed db) {levels : ℕ} (hlevels : h < levels)
    (depth : ℕ) :
    (db.meter σ).Spends (db.walkPage f levels depth t.root) (t.entries.forM f.entry)
      t.pages.length := by
  induction h generalizing levels depth with
  | zero =>
    obtain ⟨levels, rfl⟩ := Nat.exists_eq_succ_of_ne_zero (Nat.ne_of_gt hlevels)
    obtain ⟨hpage, hentries⟩ := ht
    have hspends := spends_leaf f hpage hentries levels depth
    have hforM : t.entries.forM f.entry = (Page.nodes t).forM fun n => f.entry n.2 := List.forM_map
    rw [hforM, Tree.length_pages_leaf]
    exact hspends
  | succ h ih =>
    obtain ⟨levels, rfl⟩ := Nat.exists_eq_succ_of_ne_zero (Nat.ne_of_gt (Nat.zero_lt_of_lt hlevels))
    obtain ⟨hpage, -, hchildren⟩ := ht
    have hspends := spends_branch f hpage (fun n hn => (hchildren n hn).1) depth fun n hn =>
      ih (hchildren n hn).2 (Nat.lt_of_succ_lt_succ hlevels) (depth + 1)
    rw [Tree.entries, Proc.forM_flatMap, Tree.length_pages_branch]
    exact hspends

end walk

/-! ## Trees -/

namespace Tree

variable {db : Lmdb} {h : ℕ} {t : Tree h}

/-- The pages of a tree are pages of the file. -/
theorem pages_mem (ht : t.Placed db) {pgno : ℕ} (hpgno : pgno ∈ t.pages) : pgno < db.pages := by
  induction h with
  | zero =>
    obtain ⟨hpage, hentries⟩ := ht
    rw [pages, List.mem_cons, List.mem_flatMap] at hpgno
    obtain rfl | ⟨n, hn, hmem⟩ := hpgno
    · exact hpage.inFile
    · -- of the pages of a value
      have hoverflow := (hentries n hn).overflow
      rw [Entry.pages] at hmem
      split at hmem
      case h_1 o ho =>
        have hin := (hoverflow o ho).inFile
        rw [List.mem_range'_1] at hmem
        omega
      case h_2 => cases hmem
  | succ h ih =>
    obtain ⟨hpage, -, hchildren⟩ := ht
    rw [pages, List.mem_cons, List.mem_flatMap] at hpgno
    obtain rfl | ⟨n, hn, hmem⟩ := hpgno
    · exact hpage.inFile
    · exact ih (hchildren n hn).2 hmem

/-- As many as the file has, if each has one use. -/
theorem length_pages_le (ht : t.Placed db) (hdistinct : t.pages.Nodup) :
    t.pages.length ≤ db.pages := by
  have hsubset : t.pages ⊆ List.range db.pages := by
    intro pgno hpgno
    exact List.mem_range.mpr (pages_mem ht hpgno)
  have hle := (hdistinct.subperm hsubset).length_le
  rwa [List.length_range] at hle

/-- Each level of branches has twice the pages at least. -/
theorem two_pow_le (ht : t.Placed db) : 2 ^ h ≤ t.pages.length := by
  induction h with
  | zero =>
    rw [length_pages_leaf, pow_zero]
    exact Nat.le_add_right _ _
  | succ h ih =>
    obtain ⟨-, htwo, hchildren⟩ := ht
    have hsum : (Page.nodes t).length * 2 ^ h ≤
        ((Page.nodes t).map fun n => n.2.2.pages.length).sum := by
      have hle := List.card_nsmul_le_sum ((Page.nodes t).map fun n => n.2.2.pages.length)
        (2 ^ h) (by
        simp only [List.mem_map]
        rintro _ ⟨n, hn, rfl⟩
        exact ih (hchildren n hn).2)
      rwa [List.length_map, smul_eq_mul] at hle
    rw [length_pages_branch]
    -- two children at least, with as many pages each
    calc 2 ^ (h + 1) = 2 * 2 ^ h := pow_succ' 2 h
      _ ≤ (Page.nodes t).length * 2 ^ h := Nat.mul_le_mul_right _ htwo
      _ ≤ _ := hsum.trans (Nat.le_add_left _ _)

/-- A leaf has a pointer for each entry. -/
theorem entries_le (ht : t.Placed db) :
    2 * t.entries.length ≤ t.pages.length * db.pageSize := by
  induction h with
  | zero =>
    have hle := ht.1.length_le
    rw [length_pages_leaf, entries, List.length_map, Nat.add_mul, Nat.one_mul]
    omega
  | succ h ih =>
    have hsum : 2 * ((Page.nodes t).map fun n => n.2.2.entries.length).sum ≤
        ((Page.nodes t).map fun n => n.2.2.pages.length).sum * db.pageSize := by
      rw [← List.sum_map_mul_left, ← List.sum_map_mul_right]
      apply List.sum_le_sum
      intro n hn
      exact ih (ht.2.2 n hn).2
    rw [length_pages_branch, entries, List.length_flatMap, Nat.add_mul]
    exact hsum.trans (Nat.le_add_left _ _)

/-- The entries of a tree are in the order of the keys. -/
theorem pairwise_entries {K : Type} [LinearOrder K] {rank : List UInt8 → K}
    (ht : t.Ordered rank) : t.entries.Pairwise fun a b => rank a.key < rank b.key := by
  induction h with
  | zero => exact List.pairwise_map.mpr ht
  | succ h ih =>
    obtain ⟨hkeys, hchildren⟩ := ht
    rw [entries, List.pairwise_flatMap]
    constructor
    · intro n hn
      exact ih (hchildren n hn)
    · apply hkeys.imp
      -- the key of the right child is between them
      rintro a b ⟨hbelow, habove⟩ x hx y hy
      exact (hbelow x hx).trans_le (habove y hy)

/-- A file is too small for a tree that is deeper than the limit. -/
theorem height_lt (ht : t.Placed db) (hdistinct : t.pages.Nodup) : h < 52 := by
  apply (Nat.pow_lt_pow_iff_right (a := 2) (by norm_num)).mp
  calc 2 ^ h ≤ t.pages.length := two_pow_le ht
    _ ≤ db.pages := length_pages_le ht hdistinct
    _ < 2 ^ 52 := db.pages_lt

theorem root_mem : t.root ∈ t.pages := by
  cases h with
  | zero => exact List.mem_cons_self
  | succ h => exact List.mem_cons_self

end Tree

/-! ## Tables -/

theorem parse_bytes {b : List UInt8} (hb : b.length < 2 ^ 64) {offset : ℕ} {t : Table}
    (h : At b offset t.bytes) :
    DbRecord.parse b offset = .ok
      { depth := UInt16.ofNat (t.depth % 2 ^ 16), entries := t.entries.length % 2 ^ 64,
        root := t.root % 2 ^ 64 } := by
  have hle := h.le
  have hdepth := u16At_at hb h.left.left.left.left.left.right
  have hentries := u64At_at hb h.left.right
  have hroot := u64At_at hb h.right
  simp only [Table.bytes, List.length_append, length_toLE] at hle hdepth hentries hroot
  rw [DbRecord.parse, bind_ok (add_eq (by omega)), bind_ok hdepth, bind_ok (add_eq (by omega)),
    bind_ok hentries, bind_ok (add_eq (by omega)), bind_ok hroot]
  rfl

namespace Table.WellFormed

variable {K : Type} [LinearOrder K] {rank : List UInt8 → K} {db : Lmdb} {t : Table}

theorem depth_lt (ht : t.WellFormed rank db) : t.depth < 2 ^ 16 := by
  have hplaced := ht.placed
  have hdistinct := ht.distinct
  rw [Table.depth]
  rw [Table.pages] at hdistinct
  cases htree : t.tree with
  | none => exact Nat.two_pow_pos 16
  | some x =>
    rw [htree] at hdistinct
    have hheight := Tree.height_lt (hplaced x htree) hdistinct
    show x.1 + 1 < 2 ^ 16
    omega

theorem root_lt (ht : t.WellFormed rank db) : t.root < 2 ^ 64 := by
  have hplaced := ht.placed
  rw [Table.root]
  cases htree : t.tree with
  | none =>
    show NO_PAGE < 2 ^ 64
    decide
  | some x =>
    have hroot := Tree.pages_mem (hplaced x htree) Tree.root_mem
    have hpages := db.pages_lt
    show x.2.root < 2 ^ 64
    omega

theorem entries_lt (ht : t.WellFormed rank db) : t.entries.length < 2 ^ 64 := by
  have hplaced := ht.placed
  have hdistinct := ht.distinct
  rw [Table.entries]
  rw [Table.pages] at hdistinct
  cases htree : t.tree with
  | none => exact Nat.two_pow_pos 64
  | some x =>
    rw [htree] at hdistinct
    have hentries := Tree.entries_le (hplaced x htree)
    have hpages := Nat.mul_le_mul_right db.pageSize
      (Tree.length_pages_le (hplaced x htree) hdistinct)
    have hfile := db.pages_mul_le
    have hlt := db.file.length_lt
    show x.2.entries.length < 2 ^ 64
    omega

theorem pairwise (ht : t.WellFormed rank db) :
    t.entries.Pairwise fun a b => rank a.key < rank b.key := by
  have hordered := ht.ordered
  rw [Table.entries]
  cases htree : t.tree with
  | none => exact List.Pairwise.nil
  | some x => exact Tree.pairwise_entries (hordered x htree)

end Table.WellFormed

section walking

variable {db : Lmdb} {σ : Type} (f : Visit σ) {record : DbRecord}

/-- A walk that has room for what it counts. -/
theorem walk_eq {p : Proc σ Unit} {n : ℕ} (h : (db.meter σ).Spends (db.walking record f) p n)
    (hn : n ≤ db.pages) (user : σ) : db.walk record f user = p user := by
  obtain ⟨hresult, huser, -⟩ := h (Walking.start user) (by
    show 0 + n ≤ db.pages
    omega)
  exact Prod.ext hresult huser

theorem spends_walking_nil (h : record.entries = 0) :
    (db.meter σ).Spends (db.walking record f) (pure ()) 0 := by
  rw [Lmdb.walking, if_pos (Or.inr h)]
  exact Meter.spends_pure

theorem spends_walking {h : ℕ} {tree : Tree h} (hplaced : tree.Placed db)
    (hdistinct : tree.pages.Nodup) (hdepth : record.depth.toNat = h + 1)
    (hroot : record.root = tree.root) (hentries : record.entries ≠ 0) :
    (db.meter σ).Spends (db.walking record f) (tree.entries.forM f.entry) tree.pages.length := by
  have hroot_lt := Tree.pages_mem hplaced Tree.root_mem
  have hpages := db.pages_lt
  have hheight := Tree.height_lt hplaced hdistinct
  rw [Lmdb.walking, if_neg (by rw [NO_PAGE]; omega), hroot, hdepth]
  apply Meter.Spends.lift_bind (add_eq (by omega))
  exact spends_walkPage f hplaced (by rw [MAX_DEPTH]; omega) 0

/-- The walk of a table, from what its record says. -/
theorem walk_table {K : Type} [LinearOrder K] {rank : List UInt8 → K} {t : Table}
    (ht : t.WellFormed rank db) (hdepth : record.depth.toNat = t.depth)
    (hentries : record.entries = t.entries.length) (hroot : record.root = t.root) (user : σ) :
    db.walk record f user = (t.entries.forM f.entry) user := by
  by_cases hnil : t.entries = []
  · rw [hnil, List.length_nil] at hentries
    rw [hnil]
    exact walk_eq f (spends_walking_nil f hentries) (Nat.zero_le _) user
  · obtain ⟨⟨h, tree⟩, htree⟩ : ∃ x, t.tree = some x := by
      cases htree : t.tree with
      | none => exact absurd (by rw [Table.entries, htree]; rfl) hnil
      | some x => exact ⟨x, rfl⟩
    -- the walk begins at the root, with a level more than there are branches above a leaf
    have hplaced := ht.placed _ htree
    have hdistinct := ht.distinct
    have hpos := List.length_pos_iff.mpr hnil
    simp only [Table.pages, Table.entries, Table.root, Table.depth, htree, Option.elim_some]
      at hdistinct hentries hroot hdepth hpos ⊢
    have hspends := spends_walking f hplaced hdistinct hdepth hroot (by omega)
    exact walk_eq f hspends (Tree.length_pages_le hplaced hdistinct) user

end walking

/-- The calls of a callback that notes them. -/
def noteCall : Visit (List (List UInt8 × Option (List UInt8) × ℕ)) := fun key data nflags =>
  Proc.modify (· ++ [(key, data, nflags)])

theorem forM_noteCall (es : List Entry) (calls : List (List UInt8 × Option (List UInt8) × ℕ)) :
    (es.forM noteCall.entry) calls =
      (.ok (), calls ++ es.map fun e => (e.key, e.given, e.nflags)) := by
  induction es generalizing calls with
  | nil => rw [List.map_nil, List.append_nil]; rfl
  | cons e es ih =>
    have hnote : noteCall.entry e calls = (.ok (), calls ++ [(e.key, e.given, e.nflags)]) := rfl
    show (noteCall.entry e >>= fun _ => es.forM noteCall.entry) calls = _
    rw [Proc.bind_ok hnote, ih, List.map_cons, List.append_assoc, List.singleton_append]

/-- The walk from the record of a table does what a loop over its entries does, which are in the
order of their keys. -/
theorem walk_complete {K : Type} [LinearOrder K] (rank : List UInt8 → K) (db : Lmdb) {t : Table}
    (ht : t.WellFormed rank db) {b : List UInt8} (hb : b.length < 2 ^ 64) {offset : ℕ}
    (hrecord : At b offset t.bytes) :
    ∃ record, DbRecord.parse b offset = .ok record ∧
      (∀ {σ : Type} (f : Visit σ) (user : σ),
        db.walk record f user = (t.entries.forM fun e => f e.key e.given e.nflags) user) ∧
      db.walk record noteCall [] =
        (.ok (), t.entries.map fun e => (e.key, e.given, e.nflags)) ∧
      t.entries.Pairwise fun a b => rank a.key < rank b.key := by
  have hdepth := ht.depth_lt
  have hparse := parse_bytes hb hrecord
  rw [Nat.mod_eq_of_lt hdepth, Nat.mod_eq_of_lt ht.entries_lt, Nat.mod_eq_of_lt ht.root_lt]
    at hparse
  have hwalk {σ : Type} (f : Visit σ) (user : σ) :
      db.walk ⟨UInt16.ofNat t.depth, t.entries.length, t.root⟩ f user =
        (t.entries.forM f.entry) user :=
    walk_table f ht (UInt16.toNat_ofNat_of_lt' hdepth) rfl rfl user
  refine ⟨_, hparse, hwalk, ?_, ht.pairwise⟩
  rw [hwalk, forM_noteCall, List.nil_append]

/-! ## A table of two leaves -/

/-- Zeros up to a page. -/
def padded (b : List UInt8) : List UInt8 := b ++ List.replicate (4096 - b.length) 0

/-- A page whose nodes are one after the other. -/
def Page.bytes {ν : Type} (p : Page ν) (flags : ℕ) (bytes : ν → List UInt8) : List UInt8 :=
  padded (p.header flags ++ List.replicate (p.upper - (p.header flags).length) 0 ++
    p.nodes.flatMap fun n => bytes n.2)

def sampleOverflow : Overflow := { pgno := 5, pad := 0, count := 1 }

def sampleLeaf : Page Entry where
  pgno := 3
  pad := 0
  upper := 4000
  nodes := [(4000, { key := [1], value := [10, 20], sub := false, overflow := none }),
    (4011, { key := [2], value := [], sub := false, overflow := none })]

def sampleLeaf' : Page Entry where
  pgno := 4
  pad := 0
  upper := 4000
  nodes := [(4000,
    { key := [7], value := [30, 40], sub := false, overflow := some sampleOverflow })]

def sampleBranch : Page (List UInt8 × Tree 0) where
  pgno := 2
  pad := 0
  upper := 4000
  nodes := [(4000, ([], sampleLeaf)), (4008, ([7], sampleLeaf'))]

def sampleTable : Table where
  tree := some ⟨1, sampleBranch⟩
  pad := 0
  flags := 0
  branches := 1
  leaves := 2
  overflows := 1

/-- Two meta pages, here without content, the three pages of the tree, and an overflow page. -/
def samplePages : List (List UInt8) :=
  [padded [], padded [], sampleBranch.bytes P_BRANCH fun n => branchBytes n.1 (Tree.root 0 n.2),
    sampleLeaf.bytes P_LEAF Entry.bytes, sampleLeaf'.bytes P_LEAF Entry.bytes,
    padded (sampleOverflow.header ++ [30, 40])]

theorem length_samplePages : ∀ page ∈ samplePages, page.length = 4096 := by decide +kernel

theorem length_sampleBytes : (samplePages.flatMap id).length = 6 * 4096 := by
  have hmap : samplePages.map (fun page => (id page).length) = samplePages.map fun _ => 4096 :=
    List.map_congr_left length_samplePages
  rw [List.length_flatMap, hmap]
  rfl

def sampleFile : DbFile where
  bytes := samplePages.flatMap id
  length_lt := by
    rw [length_sampleBytes]
    norm_num

def sampleDb : Lmdb where
  file := sampleFile
  pageSize := 4096
  main := { depth := 2, entries := 3, root := 2 }
  pageSize_ge := by norm_num
  pageSize_le := by norm_num

theorem pages_sampleDb : sampleDb.pages = 6 := by
  have hlength : sampleDb.file.bytes.length = 6 * 4096 := length_sampleBytes
  rw [Lmdb.pages, hlength]
  exact Nat.mul_div_cancel 6 (by norm_num)

/-- A page of the file. -/
theorem span_sampleDb (pgno : ℕ) (hpgno : pgno < samplePages.length) :
    sampleDb.span pgno 1 = samplePages[pgno] := by
  have hat : At sampleFile.bytes (0 + 4096 * pgno) samplePages[pgno] :=
    (At.refl (samplePages.flatMap id)).flatMap length_samplePages pgno hpgno
  have htake := hat.drop_take
  rw [length_samplePages _ (List.getElem_mem hpgno), Nat.zero_add, Nat.mul_comm] at htake
  exact htake

theorem sampleOverflow_placed : sampleOverflow.Placed sampleDb [30, 40] where
  inFile := by
    rw [pages_sampleDb]
    decide
  count_lt := by decide
  bytes := by
    show At (sampleDb.span 5 1) 0 (sampleOverflow.header ++ [30, 40])
    rw [span_sampleDb 5 (by decide)]
    decide +kernel

/-- What is decided of the bytes of a page. -/
theorem sample_placed {ν : Type} {p : Page ν} {flags : ℕ} {bytes : ν → List UInt8}
    (hin : p.pgno < samplePages.length) (hbounds : p.upper < 2 ^ 16 ∧
      PAGE_HEADER + 2 * p.nodes.length ≤ p.upper ∧ At samplePages[p.pgno] 0 (p.header flags) ∧
      ∀ n ∈ p.nodes, p.upper ≤ n.1 ∧ At samplePages[p.pgno] n.1 (bytes n.2)) :
    p.Placed sampleDb flags bytes := by
  obtain ⟨hupper, hlower, hheader, hnodes⟩ := hbounds
  rw [← span_sampleDb p.pgno hin] at hheader hnodes
  exact ⟨by rw [pages_sampleDb]; exact hin, hupper, hlower, hheader, hnodes⟩

theorem sampleLeaf_placed : Tree.Placed sampleDb 0 sampleLeaf := by
  refine ⟨sample_placed (by decide) (by decide +kernel), ?_⟩
  intro n hn
  simp only [sampleLeaf, List.mem_cons, List.not_mem_nil, or_false] at hn
  obtain rfl | rfl := hn <;> exact ⟨by decide, by decide, nofun⟩

theorem sampleLeaf'_placed : Tree.Placed sampleDb 0 sampleLeaf' := by
  refine ⟨sample_placed (by decide) (by decide +kernel), ?_⟩
  intro n hn
  simp only [sampleLeaf', List.mem_cons, List.not_mem_nil, or_false] at hn
  subst hn
  refine ⟨by decide, by decide, ?_⟩
  rintro _ ⟨⟩
  exact sampleOverflow_placed

theorem sample_wellFormed : sampleTable.WellFormed ofLE sampleDb where
  placed := by
    rintro _ ⟨⟩
    refine ⟨sample_placed (by decide) (by decide +kernel), le_rfl, ?_⟩
    intro n hn
    simp only [sampleBranch, List.mem_cons, List.not_mem_nil, or_false] at hn
    obtain rfl | rfl := hn
    · exact ⟨by decide, sampleLeaf_placed⟩
    · exact ⟨by decide, sampleLeaf'_placed⟩
  ordered := by
    rintro _ ⟨⟩
    refine ⟨by decide, ?_⟩
    intro n hn
    simp only [sampleBranch, List.mem_cons, List.not_mem_nil, or_false] at hn
    obtain rfl | rfl := hn
    · exact (by decide : (Page.nodes sampleLeaf).Pairwise fun a b => ofLE a.2.key < ofLE b.2.key)
    · exact (by decide : (Page.nodes sampleLeaf').Pairwise fun a b => ofLE a.2.key < ofLE b.2.key)
  distinct := by decide +kernel

theorem walk_sample :
    ∃ record, DbRecord.parse sampleTable.bytes 0 = .ok record ∧
      sampleDb.walk record noteCall [] =
        (.ok (), [([1], some [10, 20], 0), ([2], some [], 0), ([7], some [30, 40], 1)]) := by
  obtain ⟨record, hparse, -, hcalls, -⟩ :=
    walk_complete ofLE sampleDb sample_wellFormed (b := sampleTable.bytes) (by decide +kernel)
      (At.refl _)
  exact ⟨record, hparse, hcalls⟩

end NostrSearch.Server.Strfry
