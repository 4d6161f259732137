import NostrSearch.Lib.Budget
import NostrSearch.Server.StrfrySafety

/-!
# How LMDB lays out a tree

A table is a B+tree, whose leaves are all on one level. A page of it has its header, a pointer to
each of its nodes, and the nodes at the other end. A node of a leaf has its key and its value, or
the number of the first of the overflow pages where the value is, and a node of a branch has a key
and the number of a page. `Placed` says that a file has a tree in its pages, and the lemmas here
that the reader finds in a page what is in it.
-/

namespace NostrSearch.Server.Strfry

open NostrSearch.Lib Res

/-! ## Trees -/

/-- The pages of a value, with the padding of the header. -/
structure Overflow where
  pgno : ℕ
  pad : ℕ
  count : ℕ

/-- A node of a leaf; `sub` is for the record of a table. -/
structure Entry where
  key : List UInt8
  value : List UInt8
  sub : Bool
  overflow : Option Overflow

/-- A page of a tree, with a pointer for each node. -/
structure Page (ν : Type) where
  pgno : ℕ
  pad : ℕ
  upper : ℕ
  nodes : List (ℕ × ν)

/-- A tree with this many levels of branches. -/
def Tree : ℕ → Type
  | 0 => Page Entry
  | h + 1 => Page (List UInt8 × Tree h)

def Entry.nflags (e : Entry) : ℕ :=
  (if e.sub then F_SUBDATA else 0) + (if e.overflow.isSome then F_BIGDATA else 0)

/-- What the callback is given of the value. -/
def Entry.given (e : Entry) : Option (List UInt8) :=
  if e.value.length ≤ MAX_VALUE_BYTES then some e.value else none

def Entry.pages (e : Entry) : List ℕ :=
  match e.overflow with
  | some o => List.range' o.pgno o.count
  | none => []

namespace Tree

def root : (h : ℕ) → Tree h → ℕ
  | 0, t => Page.pgno t
  | _ + 1, t => Page.pgno t

/-- The nodes of its leaves. -/
def entries : (h : ℕ) → Tree h → List Entry
  | 0, t => (Page.nodes t).map fun n => n.2
  | h + 1, t => (Page.nodes t).flatMap fun n => entries h n.2.2

def pages : (h : ℕ) → Tree h → List ℕ
  | 0, t => Page.pgno t :: (Page.nodes t).flatMap fun n => n.2.pages
  | h + 1, t => Page.pgno t :: (Page.nodes t).flatMap fun n => pages h n.2.2

/-- The keys of a leaf ascend, and the key of a child is above the keys of the children before it,
and not above its own. -/
def Ordered {K : Type} [LinearOrder K] (rank : List UInt8 → K) : (h : ℕ) → Tree h → Prop
  | 0, t => (Page.nodes t).Pairwise fun a b => rank a.2.key < rank b.2.key
  | h + 1, t =>
    ((Page.nodes t).Pairwise fun a b =>
      (∀ e ∈ entries h a.2.2, rank e.key < rank b.2.1) ∧
        ∀ e ∈ entries h b.2.2, rank b.2.1 ≤ rank e.key) ∧
    ∀ n ∈ Page.nodes t, Ordered rank h n.2.2

end Tree

/-! ## Bytes -/

def Overflow.header (o : Overflow) : List UInt8 :=
  toLE o.pgno 8 ++ toLE o.pad 2 ++ toLE P_OVERFLOW 2 ++ toLE o.count 4

def Entry.bytes (e : Entry) : List UInt8 :=
  toLE e.value.length 4 ++ toLE e.nflags 2 ++ toLE e.key.length 2 ++ e.key ++
    match e.overflow with
    | some o => toLE o.pgno 8
    | none => e.value

def branchBytes (key : List UInt8) (child : ℕ) : List UInt8 :=
  toLE child 6 ++ toLE key.length 2 ++ key

/-- The header of a page, and its pointers. -/
def Page.header {ν : Type} (p : Page ν) (flags : ℕ) : List UInt8 :=
  toLE p.pgno 8 ++ toLE p.pad 2 ++ toLE flags 2 ++ toLE (PAGE_HEADER + 2 * p.nodes.length) 2 ++
    toLE p.upper 2 ++ p.nodes.flatMap fun n => toLE n.1 2

section placed

variable (db : Lmdb)

/-- The bytes of `n` pages. -/
def Lmdb.span (pgno n : ℕ) : List UInt8 :=
  (db.file.bytes.drop (pgno * db.pageSize)).take (n * db.pageSize)

structure Overflow.Placed (o : Overflow) (value : List UInt8) : Prop where
  inFile : o.pgno + o.count ≤ db.pages
  count_lt : o.count < 2 ^ 32
  bytes : At (db.span o.pgno o.count) 0 (o.header ++ value)

structure Entry.Placed (e : Entry) : Prop where
  key_lt : e.key.length < 2 ^ 16
  value_lt : e.value.length < 2 ^ 32
  overflow : ∀ o ∈ e.overflow, o.Placed db e.value

/-- The nodes of a page are above its free space, which is above the pointers. -/
structure Page.Placed {ν : Type} (p : Page ν) (flags : ℕ) (bytes : ν → List UInt8) : Prop where
  inFile : p.pgno < db.pages
  upper_lt : p.upper < 2 ^ 16
  lower_le : PAGE_HEADER + 2 * p.nodes.length ≤ p.upper
  header : At (db.span p.pgno 1) 0 (p.header flags)
  nodes : ∀ n ∈ p.nodes, p.upper ≤ n.1 ∧ At (db.span p.pgno 1) n.1 (bytes n.2)

/-- A branch has two children at least, and the number of a child has 48 bits. -/
def Tree.Placed : (h : ℕ) → Tree h → Prop
  | 0, t => Page.Placed db t P_LEAF Entry.bytes ∧ ∀ n ∈ Page.nodes t, n.2.Placed db
  | h + 1, t =>
    Page.Placed db t P_BRANCH (fun n => branchBytes n.1 (Tree.root h n.2)) ∧
      2 ≤ (Page.nodes t).length ∧
      ∀ n ∈ Page.nodes t, Tree.root h n.2.2 < 2 ^ 48 ∧ Tree.Placed h n.2.2

end placed

/-- A table, with its tree if it is not empty, and what else there is in its record. -/
structure Table where
  tree : Option ((h : ℕ) × Tree h)
  pad : ℕ
  flags : ℕ
  branches : ℕ
  leaves : ℕ
  overflows : ℕ

namespace Table

variable (t : Table)

def depth : ℕ := t.tree.elim 0 fun x => x.1 + 1

def root : ℕ := t.tree.elim NO_PAGE fun x => x.2.root

def entries : List Entry := t.tree.elim [] fun x => x.2.entries

def pages : List ℕ := t.tree.elim [] fun x => x.2.pages

/-- `MDB_db`. -/
def bytes : List UInt8 :=
  toLE t.pad 4 ++ toLE t.flags 2 ++ toLE t.depth 2 ++ toLE t.branches 8 ++ toLE t.leaves 8 ++
    toLE t.overflows 8 ++ toLE t.entries.length 8 ++ toLE t.root 8

/-- In the pages of a file, each of which has one use, and in the order of the keys. -/
structure WellFormed {K : Type} [LinearOrder K] (rank : List UInt8 → K) (db : Lmdb) : Prop where
  placed : ∀ x ∈ t.tree, x.2.Placed db
  ordered : ∀ x ∈ t.tree, x.2.Ordered rank
  distinct : t.pages.Nodup

end Table

/-! ## Reads -/

theorem leAt_at {b : List UInt8} {offset v w : ℕ} (hb : b.length < 2 ^ 64)
    (h : At b offset (toLE v w)) : leAt w b offset = .ok (v % 256 ^ w) := by
  have hle := h.le
  have hrange := h.getRange_eq rfl
  rw [length_toLE] at hle hrange
  rw [leAt, bind_ok (context_eq (checkedAdd_eq (by omega))), bind_ok (context_eq hrange),
    ofLE_toLE]
  rfl

theorem u16At_at {b : List UInt8} {offset v : ℕ} (hb : b.length < 2 ^ 64)
    (h : At b offset (toLE v 2)) : u16At b offset = .ok (v % 2 ^ 16) := leAt_at hb h

theorem u32At_at {b : List UInt8} {offset v : ℕ} (hb : b.length < 2 ^ 64)
    (h : At b offset (toLE v 4)) : u32At b offset = .ok (v % 2 ^ 32) := leAt_at hb h

theorem u64At_at {b : List UInt8} {offset v : ℕ} (hb : b.length < 2 ^ 64)
    (h : At b offset (toLE v 8)) : u64At b offset = .ok (v % 2 ^ 64) := leAt_at hb h

theorem readExactAt_at {file : DbFile} {offset : ℕ} {bs : List UInt8}
    (h : At file.bytes offset bs) : file.readExactAt offset bs.length = some bs := by
  rw [DbFile.readExactAt, if_pos h.le, h.drop_take]

namespace Lmdb

variable (db : Lmdb)

theorem span_at {pgno n : ℕ} (h : pgno + n ≤ db.pages) :
    At db.file.bytes (pgno * db.pageSize) (db.span pgno n) := at_drop_take (db.page_le h)

theorem length_span {pgno n : ℕ} (h : pgno + n ≤ db.pages) :
    (db.span pgno n).length = n * db.pageSize := by
  have hle := db.page_le h
  rw [span, List.length_take, List.length_drop]
  omega

/-- The counter of a walk, and what the callback has. -/
def meter (σ : Type) : Meter (Walking σ) σ where
  part := Walking.user
  spent := Walking.visited
  limit := db.pages

variable {db} {σ : Type}

theorem costs_noteRead (n : ℕ) : (db.meter σ).Costs (noteRead n) () 0 :=
  Meter.costs_modify (fun _ => rfl) fun _ => rfl

theorem costs_enter (depth : ℕ) : (db.meter σ).Costs (enter depth) () 0 :=
  Meter.costs_modify (fun _ => rfl) fun _ => rfl

theorem costs_count (n : ℕ) : (db.meter σ).Costs (db.count n) () n := by
  intro s hs
  have hpages := db.pages_lt
  have hlimit : s.visited + n ≤ db.pages := hs
  refine ⟨{ s with visited := s.visited + n }, ?_, rfl, rfl⟩
  rw [count, Proc.bind_ok (rfl : Proc.get s = (.ok s, s)), Proc.lift_bind_ok (add_eq (by omega))]
  show (refuse _ _, _) = _
  rw [refuse_eq (not_lt.mpr hlimit)]

theorem spends_call (p : Proc σ Unit) : (db.meter σ).Spends (call p) p 0 := by
  intro s _
  exact ⟨rfl, rfl, fun _ => rfl⟩

end Lmdb

section pages

variable {db : Lmdb} {σ ν : Type} {p : Page ν} {flags : ℕ} {bytes : ν → List UInt8}

namespace Page.Placed

theorem length_lt (h : p.Placed db flags bytes) : (db.span p.pgno 1).length < 2 ^ 64 := by
  have hsize := db.pageSize_le
  rw [db.length_span h.inFile]
  omega

theorem own (h : p.Placed db flags bytes) : u64At (db.span p.pgno 1) 0 = .ok p.pgno := by
  have hpages := db.pages_lt
  have hin := h.inFile
  have hread := u64At_at h.length_lt h.header.left.left.left.left.left
  rwa [Nat.mod_eq_of_lt (by omega)] at hread

theorem flags_eq (h : p.Placed db flags bytes) (hflags : flags < 2 ^ 16) :
    u16At (db.span p.pgno 1) 10 = .ok flags := by
  have hread := u16At_at h.length_lt h.header.left.left.left.right
  rwa [Nat.mod_eq_of_lt (by omega)] at hread

theorem lower_eq (h : p.Placed db flags bytes) :
    u16At (db.span p.pgno 1) 12 = .ok (PAGE_HEADER + 2 * p.nodes.length) := by
  have hupper := h.upper_lt
  have hlower := h.lower_le
  have hread := u16At_at h.length_lt h.header.left.left.right
  rwa [Nat.mod_eq_of_lt (by omega)] at hread

theorem pointer (h : p.Placed db flags bytes) {i : ℕ} (hi : i < p.nodes.length) :
    u16At (db.span p.pgno 1) (PAGE_HEADER + 2 * i) = .ok (p.nodes[i].1 % 2 ^ 16) :=
  u16At_at h.length_lt (h.header.right.flatMap (fun _ _ => length_toLE _ _) i hi)

end Page.Placed

theorem costs_readPage (h : p.Placed db flags bytes) :
    (db.meter σ).Costs (db.readPage p.pgno) (db.span p.pgno 1) 0 := by
  have hlt := db.offset_lt h.inFile
  have hspan := readExactAt_at (db.span_at (n := 1) h.inFile)
  rw [db.length_span h.inFile, Nat.one_mul] at hspan
  apply Meter.Costs.lift_bind (refuse_eq (not_le.mpr h.inFile))
  apply Meter.Costs.lift_bind (mul_eq (by omega))
  apply (Lmdb.costs_noteRead 1).bind_free
  apply Meter.Costs.lift_bind (context_eq hspan)
  apply Meter.Costs.lift_bind h.own
  apply Meter.Costs.lift_bind (refuse_eq (not_not.mpr rfl))
  exact Meter.costs_pure

/-- The pointers are in the page. -/
theorem Page.Placed.length_le (h : p.Placed db flags bytes) :
    PAGE_HEADER + 2 * p.nodes.length ≤ db.pageSize := by
  have hle := h.header.le
  rw [db.length_span h.inFile, Page.header, List.length_append, List.length_flatMap] at hle
  simp only [List.length_append, length_toLE, List.map_const', List.sum_replicate, smul_eq_mul]
    at hle
  rw [PAGE_HEADER]
  omega

theorem pageHeader_eq (h : p.Placed db flags bytes) (hflags : flags < 2 ^ 16)
    (hleaf2 : flags &&& P_LEAF2 = 0) :
    db.pageHeader (db.span p.pgno 1) = .ok (flags, p.nodes.length) := by
  have hle := h.length_le
  have hcount : (PAGE_HEADER + 2 * p.nodes.length - PAGE_HEADER) / 2 = p.nodes.length := by omega
  rw [Lmdb.pageHeader, bind_ok (h.flags_eq hflags), bind_ok h.lower_eq,
    bind_ok (refuse_eq (by omega)), bind_ok (sub_eq (Nat.le_add_right _ _)),
    bind_ok (refuse_eq (not_not.mpr hleaf2)), hcount]
  rfl

/-- The two halves of a size, or the low parts of the number of a page. -/
theorem or_shift {a b i : ℕ} (ha : a < 2 ^ i) : a ||| (b <<< i) = a + 2 ^ i * b := by
  rw [Nat.shiftLeft_eq, Nat.mul_comm b, Nat.or_comm, ← Nat.two_pow_add_eq_or_of_lt ha, Nat.add_comm]

theorem nodeAt_eq (h : p.Placed db flags bytes) {i : ℕ} (hi : i < p.nodes.length)
    {v nflags ksize : ℕ} {rest : List UInt8}
    (hbytes : bytes p.nodes[i].2 = toLE v 4 ++ toLE nflags 2 ++ toLE ksize 2 ++ rest) :
    db.nodeAt (db.span p.pgno 1) i = .ok
      { ptr := p.nodes[i].1, lo := v % 2 ^ 16, hi := v / 2 ^ 16 % 2 ^ 16, nflags := nflags % 2 ^ 16,
        ksize := ksize % 2 ^ 16 } := by
  obtain ⟨hupper, hat⟩ := h.nodes _ (List.getElem_mem hi)
  -- a size is written as one number, and read in two halves
  rw [hbytes, show toLE v 4 = toLE v 2 ++ toLE (v / 256 ^ 2) 2 from toLE_add v 2 2] at hat
  have hptr := hat.le
  have hsize := db.pageSize_le
  have hlower := h.lower_le
  have hupper_lt := h.upper_lt
  rw [db.length_span h.inFile] at hptr
  simp only [List.length_append, length_toLE] at hptr
  have hlo := u16At_at h.length_lt hat.left.left.left.left
  have hhi := u16At_at h.length_lt hat.left.left.left.right
  have hnflags := u16At_at h.length_lt hat.left.left.right
  have hksize := u16At_at h.length_lt hat.left.right
  have hslot := h.pointer hi
  rw [Nat.mod_eq_of_lt (by omega)] at hslot
  simp only [List.length_append, length_toLE] at hhi hnflags hksize
  rw [Lmdb.nodeAt, bind_ok (mul_eq (by omega)), bind_ok (add_eq (by rw [PAGE_HEADER]; omega)),
    bind_ok hslot, bind_ok (add_eq (by rw [NODE_HEADER]; omega)),
    bind_ok (refuse_eq (by rw [PAGE_HEADER] at *; rw [NODE_HEADER]; omega)), bind_ok hlo,
    bind_ok (add_eq (by omega)), bind_ok hhi, bind_ok (add_eq (by omega)), bind_ok hnflags,
    bind_ok (add_eq (by omega)), bind_ok hksize]
  rfl

end pages

section values

variable {db : Lmdb} {σ : Type}

@[simp] theorem Overflow.length_header (o : Overflow) : o.header.length = 16 := by
  simp [Overflow.header]

theorem costs_readOverflow {o : Overflow} {value : List UInt8} (h : o.Placed db value) :
    (db.meter σ).Costs (db.readOverflow o.pgno value.length)
      (if value.length ≤ MAX_VALUE_BYTES then some value else none) o.count := by
  have hpages := db.pages_lt
  have hsize := db.pageSize_ge
  have hin := h.inFile
  have hcount := h.count_lt
  have hfile := (db.span_at h.inFile).trans h.bytes
  rw [Nat.add_zero] at hfile
  have hvalue := hfile.right
  rw [o.length_header] at hvalue
  have hlt := db.file.length_lt
  have hle := hvalue.le
  -- the header and the value are in the pages, so there is a page
  have hroom := h.bytes.le
  rw [db.length_span h.inFile, List.length_append, o.length_header] at hroom
  have hspan := db.page_le h.inFile
  have hpos : o.count ≠ 0 := by
    intro hzero
    rw [hzero, Nat.zero_mul] at hroom
    omega
  have hhead := readExactAt_at hfile.left
  have hheader := At.refl o.header
  have hhead_lt : o.header.length < 2 ^ 64 := by rw [o.length_header]; norm_num
  have hown := u64At_at hhead_lt hheader.left.left.left
  have hflags := u16At_at hhead_lt hheader.left.right
  have hn := u32At_at hhead_lt hheader.right
  rw [Nat.mod_eq_of_lt (by omega)] at hown hn
  rw [o.length_header] at hhead
  apply Meter.Costs.lift_bind (refuse_eq (by omega))
  apply Meter.Costs.lift_bind (mul_eq (by omega))
  apply (Lmdb.costs_noteRead 1).bind_free
  apply Meter.Costs.lift_bind (context_eq hhead)
  apply Meter.Costs.lift_bind hown
  apply Meter.Costs.lift_bind hflags
  apply Meter.Costs.lift_bind (refuse_eq (by simp [P_OVERFLOW]))
  apply Meter.Costs.lift_bind hn
  apply Meter.Costs.lift_bind (context_eq (checkedMul_eq (by omega)))
  apply Meter.Costs.lift_bind (refuse_eq hpos)
  apply Meter.Costs.lift_bind (refuse_eq (by rw [checkedAdd_eq (by omega)]; simpa using hin))
  apply Meter.Costs.lift_bind (sub_eq (by rw [PAGE_HEADER]; omega))
  apply Meter.Costs.lift_bind (refuse_eq (by rw [PAGE_HEADER]; omega))
  show (db.meter σ).Costs _ _ (o.count + 0)
  apply (Lmdb.costs_count o.count).bind
  split
  case isTrue hlarge =>
    -- too large: only its key is given
    rw [if_neg (by omega)]
    exact Meter.costs_pure
  case isFalse hsmall =>
    -- the value follows the header, over all its pages
    rw [if_pos (by omega)]
    apply Meter.Costs.lift_bind (add_eq (by rw [PAGE_HEADER]; omega))
    apply (Lmdb.costs_noteRead _).bind_free
    apply Meter.Costs.lift_bind (context_eq (readExactAt_at hvalue))
    exact Meter.costs_pure

namespace Entry

variable (e : Entry)

theorem nflags_lt : e.nflags < 2 ^ 16 := by
  rw [nflags, F_SUBDATA, F_BIGDATA]
  split <;> split <;> norm_num

theorem not_dupdata : e.nflags &&& F_DUPDATA = 0 := by
  rw [nflags]
  split <;> split <;> decide

theorem bigdata_iff : e.nflags &&& F_BIGDATA ≠ 0 ↔ e.overflow.isSome = true := by
  rw [nflags]
  split <;> split <;> simp_all [F_SUBDATA, F_BIGDATA]

end Entry

theorem spends_leafNode {e : Entry} (h : e.Placed db) (f : Visit σ) {page : List UInt8}
    (hpage : page.length = db.pageSize) {node : PageNode} (hat : At page node.ptr e.bytes)
    (hdsize : node.dsize = e.value.length) (hnflags : node.nflags = e.nflags)
    (hksize : node.ksize = e.key.length) :
    (db.meter σ).Spends (db.leafNode f page node) (f e.key e.given e.nflags) e.pages.length := by
  have hsize := db.pageSize_le
  have hlt : page.length < 2 ^ 64 := by omega
  have hkey := hat.left.right
  have hdata := hat.right
  have hle := hat.le
  simp only [Entry.bytes, List.length_append, length_toLE, ← Nat.add_assoc] at hkey hdata hle
  have hoverflow := h.overflow
  rw [Lmdb.leafNode, hdsize, hnflags, hksize]
  apply Meter.Spends.lift_bind (refuse_eq (not_not.mpr e.not_dupdata))
  apply Meter.Spends.lift_bind (add_eq (by rw [NODE_HEADER]; omega))
  apply Meter.Spends.lift_bind (add_eq (by rw [NODE_HEADER]; omega))
  apply Meter.Spends.lift_bind (context_eq (hkey.getRange_eq rfl))
  rw [Entry.pages, Entry.given]
  split
  case isTrue hbig =>
    obtain ⟨o, hwhere⟩ := Option.isSome_iff_exists.mp (e.bigdata_iff.mp hbig)
    have hplaced := hoverflow o hwhere
    have hpages := db.pages_lt
    have hin := hplaced.inFile
    rw [hwhere] at hdata
    -- the number of the first page is where the value would be
    have hopg := u64At_at hlt hdata
    rw [Nat.mod_eq_of_lt (by omega)] at hopg
    apply Meter.Spends.lift_bind hopg
    rw [hwhere]
    show (db.meter σ).Spends _ _ (List.range' o.pgno o.count).length
    rw [List.length_range']
    apply (costs_readOverflow hplaced).spends (n := 0)
    exact Lmdb.spends_call _
  case isFalse hsmall =>
    have hwhere : e.overflow = none := by
      rwa [e.bigdata_iff, Option.not_isSome_iff_eq_none] at hsmall
    rw [hwhere] at hdata hle
    dsimp only at hdata hle
    -- no page is as large as a value may be
    have hvalue : e.value.length ≤ MAX_VALUE_BYTES := by
      rw [MAX_VALUE_BYTES]
      omega
    have hstop : (checkedAdd (node.ptr + NODE_HEADER + e.key.length) e.value.length).filter
        (fun e => e ≤ db.pageSize) =
          some (node.ptr + NODE_HEADER + e.key.length + e.value.length) := by
      rw [NODE_HEADER, checkedAdd_eq (by omega), Option.filter_some, if_pos]
      rw [decide_eq_true_eq]
      omega
    rw [if_pos hvalue, hwhere]
    apply Meter.Spends.lift_bind (context_eq hstop)
    apply Meter.Spends.lift_bind (hdata.slice_eq rfl)
    exact Lmdb.spends_call _

end values

end NostrSearch.Server.Strfry
