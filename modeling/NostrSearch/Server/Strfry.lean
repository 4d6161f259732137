import Mathlib.Data.Finmap
import NostrSearch.Lib.Faults
import NostrSearch.Lib.LittleEndian

/-!
# Reading a strfry database

The reader of `strfry.rs`, for the LMDB file of another relay: the meta pages, the walk through a
tree of pages, values on overflow pages, and the tables of strfry in the records of its main tree.
What an operation of the source does on overflow, or out of bounds, it does here (`Lib.Faults`).

A file is its bytes; that it cannot be opened is left out. `zstd` is a parameter. Of a walk there is
history next to the counter of the source: the pages that were read, and how deep it went.
-/

namespace NostrSearch.Server.Strfry

open NostrSearch.Lib Res

def LMDB_MAGIC : ℕ := 0xBEEFC0DE
def MAGIC_OFFSET : ℕ := 16
def SUPPORTED_DB_VERSION : ℕ := 3
def EXPECTED_ENDIANNESS : ℕ := 1

def PAGE_HEADER : ℕ := 16
def NODE_HEADER : ℕ := 8
def P_BRANCH : ℕ := 0x01
def P_LEAF : ℕ := 0x02
def P_OVERFLOW : ℕ := 0x04
def P_LEAF2 : ℕ := 0x20
def F_BIGDATA : ℕ := 0x01
def F_SUBDATA : ℕ := 0x02
def F_DUPDATA : ℕ := 0x04
def MAX_DEPTH : ℕ := 64
def MAX_VALUE_BYTES : ℕ := 2 ^ 22
def MAX_DICTS : ℕ := 4096
def MAX_DICT_BYTES : ℕ := 2 ^ 28
def NO_PAGE : ℕ := 2 ^ 64 - 1

def TABLE_PREFIX : String := "rasgueadb_defaultDb__"

def hasLmdbMagic (head : List UInt8) : Res Bool := do
  if MAGIC_OFFSET + 4 ≤ head.length then
    let magic ← slice head MAGIC_OFFSET (MAGIC_OFFSET + 4)
    return ofLE magic = LMDB_MAGIC
  else return false

/-- The number of `w` bytes at an offset: `u16_at`, `u32_at` and `u64_at`. -/
def leAt (w : ℕ) (b : List UInt8) (offset : ℕ) : Res ℕ := do
  let stop ← context (checkedAdd offset w) "offset overflow"
  let s ← context (getRange b offset stop) "short read"
  return ofLE s

def u16At : List UInt8 → ℕ → Res ℕ := leAt 2
def u32At : List UInt8 → ℕ → Res ℕ := leAt 4
def u64At : List UInt8 → ℕ → Res ℕ := leAt 8

structure DbRecord where
  depth : UInt16
  entries : ℕ
  root : ℕ

def DbRecord.parse (b : List UInt8) (offset : ℕ) : Res DbRecord := do
  let depth ← u16At b (← add offset 6)
  let entries ← u64At b (← add offset 32)
  let root ← u64At b (← add offset 40)
  return { depth := UInt16.ofNat depth, entries, root }

/-- The content of a file, of a length that fits. -/
structure DbFile where
  bytes : List UInt8
  length_lt : bytes.length < 2 ^ 64

/-- `read_exact_at`. -/
def DbFile.readExactAt (file : DbFile) (offset n : ℕ) : Option (List UInt8) :=
  if offset + n ≤ file.bytes.length then some ((file.bytes.drop offset).take n) else none

structure Lmdb where
  file : DbFile
  pageSize : ℕ
  main : DbRecord
  pageSize_ge : 4096 ≤ pageSize
  pageSize_le : pageSize ≤ 65536

/-- The whole pages of the file. -/
def Lmdb.pages (db : Lmdb) : ℕ := db.file.bytes.length / db.pageSize

/-- One turn of the loop of `open` over the two meta pages: the one with the larger transaction id.
-/
def metaPage (file : DbFile) (pageSize pages : ℕ) (best : Option (ℕ × DbRecord)) (slot : ℕ) :
    Res (Option (ℕ × DbRecord)) := do
  let offset ← mul slot pageSize
  let page ← context (file.readExactAt offset pageSize) "cannot read meta page"
  if (u32At page MAGIC_OFFSET).toOption ≠ some LMDB_MAGIC then return best
  else
    let lastPg ← u64At page (PAGE_HEADER + 120)
    let txnid ← u64At page (PAGE_HEADER + 128)
    if pages ≤ lastPg then return best
    else
      let main ← DbRecord.parse page (PAGE_HEADER + 72)
      if main.root ≠ NO_PAGE ∧ pages ≤ main.root then return best
      else if best.all fun b => b.1 < txnid then return some (txnid, main)
      else return best

/-- `is_power_of_two`. -/
def powerOfTwo (n : ℕ) : Prop := n ≠ 0 ∧ n &&& (n - 1) = 0

instance (n : ℕ) : Decidable (powerOfTwo n) := inferInstanceAs (Decidable (_ ∧ _))

def Lmdb.open (file : DbFile) : Res Lmdb := do
  let first ← context (file.readExactAt 0 (min 4096 file.bytes.length)) "database file too short"
  let magic ← hasLmdbMagic first
  refuse (magic = false) "not an LMDB database"
  let pageSize ← u32At first (PAGE_HEADER + 24)
  if h : 4096 ≤ pageSize ∧ pageSize ≤ 65536 ∧ powerOfTwo pageSize then
    let pages := file.bytes.length / pageSize
    refuse (pages < 3) "database file too short"
    let best ← metaPage file pageSize pages none 0
    let best ← metaPage file pageSize pages best 1
    let found ← context best "no valid LMDB meta page"
    return { file, pageSize, main := found.2, pageSize_ge := h.1, pageSize_le := h.2.1 }
  else bail s!"unsupported LMDB page size {pageSize}"

/-! ## The walk -/

/-- The state of a walk. -/
structure Walking (σ : Type) where
  visited : ℕ
  /-- the pages that were read from the file, in whole or in part, a history variable -/
  read : ℕ
  /-- the largest depth that was entered, a history variable -/
  deepest : ℕ
  /-- what the callback has -/
  user : σ

/-- What a walk calls for each entry, with its key, its value, if that is not too large, and flags.
-/
abbrev Visit (σ : Type) := List UInt8 → Option (List UInt8) → ℕ → Proc σ Unit

section walk

variable {σ : Type}

def noteRead (n : ℕ) : Proc (Walking σ) Unit := Proc.modify fun s => { s with read := s.read + n }

def enter (depth : ℕ) : Proc (Walking σ) Unit :=
  Proc.modify fun s => { s with deepest := max s.deepest depth }

def call (p : Proc σ Unit) : Proc (Walking σ) Unit :=
  p.on Walking.user fun user s => { s with user }

variable (db : Lmdb)

def Lmdb.readPage (pgno : ℕ) : Proc (Walking σ) (List UInt8) := do
  refuse (db.pages ≤ pgno) s!"page {pgno} beyond end of file"
  let offset ← mul pgno db.pageSize
  noteRead 1
  let page ← context (db.file.readExactAt offset db.pageSize) "page read failed"
  let own ← u64At page 0
  refuse (own ≠ pgno) s!"page {pgno} header does not match its position"
  return page

/-- `*visited += n`, and the check of the limit. -/
def Lmdb.count (n : ℕ) : Proc (Walking σ) Unit := do
  let s ← Proc.get
  let visited ← add s.visited n
  Proc.set { s with visited }
  refuse (db.pages < visited) "tree visits more pages than the file holds"

def Lmdb.readOverflow (pgno dsize : ℕ) : Proc (Walking σ) (Option (List UInt8)) := do
  refuse (db.pages ≤ pgno) "overflow page beyond end of file"
  let offset ← mul pgno db.pageSize
  noteRead 1
  let head ← context (db.file.readExactAt offset PAGE_HEADER) "overflow read failed"
  let own ← u64At head 0
  let flags ← u16At head 10
  refuse (own ≠ pgno ∨ flags &&& P_OVERFLOW = 0) "bad overflow page"
  let n ← u32At head 12
  let span ← context (checkedMul n db.pageSize) "overflow span overflow"
  -- three conditions of one `||`, of which the first guards the subtraction
  refuse (n = 0) "overflow value exceeds the file"
  refuse ((checkedAdd pgno n).all (fun stop => db.pages < stop) = true)
    "overflow value exceeds the file"
  let room ← sub span PAGE_HEADER
  refuse (room < dsize) "overflow value exceeds the file"
  db.count n
  if MAX_VALUE_BYTES < dsize then return none
  else
    let dataAt ← add offset PAGE_HEADER
    -- the page with the header was read already
    noteRead (n - 1)
    let data ← context (db.file.readExactAt dataAt dsize) "overflow read failed"
    return some data

/-- The header of a node, at its pointer. -/
structure PageNode where
  ptr : ℕ
  lo : ℕ
  hi : ℕ
  nflags : ℕ
  ksize : ℕ

def Lmdb.nodeAt (page : List UInt8) (i : ℕ) : Res PageNode := do
  let slot ← add PAGE_HEADER (← mul 2 i)
  let ptr ← u16At page slot
  let stop ← add ptr NODE_HEADER
  refuse (ptr < PAGE_HEADER ∨ db.pageSize < stop) "node pointer out of page"
  let lo ← u16At page ptr
  let hi ← u16At page (← add ptr 2)
  let nflags ← u16At page (← add ptr 4)
  let ksize ← u16At page (← add ptr 6)
  return { ptr, lo, hi, nflags, ksize }

/-- The page a node of a branch points to. -/
def PageNode.child (node : PageNode) : ℕ := node.lo ||| (node.hi <<< 16) ||| (node.nflags <<< 32)

def PageNode.dsize (node : PageNode) : ℕ := node.lo ||| (node.hi <<< 16)

/-- A node of a leaf. -/
def Lmdb.leafNode (f : Visit σ) (page : List UInt8) (node : PageNode) : Proc (Walking σ) Unit := do
  refuse (node.nflags &&& F_DUPDATA ≠ 0) "duplicate-sorted tables are not supported"
  let keyAt ← add node.ptr NODE_HEADER
  let dataAt ← add keyAt node.ksize
  let key ← context (getRange page keyAt dataAt) "key out of page"
  if node.nflags &&& F_BIGDATA ≠ 0 then
    let opg ← u64At page dataAt
    let data ← db.readOverflow opg node.dsize
    call (f key data node.nflags)
  else
    let stop ← context ((checkedAdd dataAt node.dsize).filter fun e => e ≤ db.pageSize)
      "value out of page"
    let value ← slice page dataAt stop
    call (f key (some value) node.nflags)

/-- The flags of a page of the tree, and how many nodes it has. -/
def Lmdb.pageHeader (page : List UInt8) : Res (ℕ × ℕ) := do
  let flags ← u16At page 10
  let lower ← u16At page 12
  refuse (lower < PAGE_HEADER ∨ db.pageSize < lower) "bad page free-space bounds"
  let used ← sub lower PAGE_HEADER
  refuse (flags &&& P_LEAF2 ≠ 0) "unsupported fixed-size leaf page"
  return (flags, used / 2)

/-- `walk_page`, with `depth_cap - depth` levels to go. -/
def Lmdb.walkPage (db : Lmdb) (f : Visit σ) : ℕ → ℕ → ℕ → Proc (Walking σ) Unit
  | 0, depth, _ => do
    enter depth
    bail "tree deeper than declared"
  | levels + 1, depth, pgno => do
    enter depth
    db.count 1
    let page ← db.readPage pgno
    let (flags, count) ← db.pageHeader page
    (List.range count).forM fun i => do
      let node ← db.nodeAt page i
      if flags &&& P_BRANCH ≠ 0 then
        db.walkPage f levels (depth + 1) node.child
      else if flags &&& P_LEAF ≠ 0 then
        db.leafNode f page node
      else
        bail ("unexpected page type 0x" ++ String.ofList (Nat.toDigits 16 flags) ++ " in tree")

/-- `walk`, with its counters. -/
def Lmdb.walking (record : DbRecord) (f : Visit σ) : Proc (Walking σ) Unit := do
  if record.root = NO_PAGE ∨ record.entries = 0 then return ()
  else
    let declared ← add record.depth.toNat 1
    db.walkPage f (min declared MAX_DEPTH) 0 record.root

def Walking.start (user : σ) : Walking σ := { visited := 0, read := 0, deepest := 0, user }

def Lmdb.walk (record : DbRecord) (f : Visit σ) : Proc σ Unit :=
  (db.walking record f).within Walking.start Walking.user

end walk

/-! ## Flatbuffers -/

/-- `as i32`. -/
def asI32 (n : ℕ) : ℤ := if n < 2 ^ 31 then n else n - 2 ^ 32

def fbField (buf : List UInt8) (slot : ℕ) : Res (Option ℕ) := do
  let root ← u32At buf 0
  let soffset ← u32At buf root
  let v : ℤ := root - asI32 soffset
  let vtable ← context (if 0 ≤ v then some v.toNat else none) "bad flatbuffer vtable"
  let vsize ← u16At buf vtable
  let offset ← add 4 (← mul 2 slot)
  let stop ← add offset 2
  if vsize < stop then return none
  else
    let off ← u16At buf (← add vtable offset)
    if off = 0 then return none
    else
      let field ← context (checkedAdd root off) "bad flatbuffer field"
      return some field

def fbU64 (buf : List UInt8) (slot : ℕ) : Res ℕ := do
  match ← fbField buf slot with
  | some offset => u64At buf offset
  | none => return 0

def fbBytes (buf : List UInt8) (slot : ℕ) : Res (List UInt8) := do
  match ← fbField buf slot with
  | none => return []
  | some offset =>
    let rel ← u32At buf offset
    let vec ← context (checkedAdd offset rel) "bad flatbuffer vector"
    let len ← u32At buf vec
    let start ← add vec 4
    let stop ← context (checkedAdd start len) "bad flatbuffer vector"
    context (getRange buf start stop) "flatbuffer vector out of bounds"

/-! ## Tables -/

section tables

variable (db : Lmdb)

/-- The closure of `table`. -/
def tableVisit (want : List UInt8) : Visit (Option DbRecord) := fun key data nflags => do
  if key = want ∧ nflags &&& F_SUBDATA ≠ 0 then
    let data ← context data "table record too large"
    let record ← DbRecord.parse data 0
    Proc.set (some record)
  else return ()

def Lmdb.table (name : String) : Res (Option DbRecord) :=
  (db.walk db.main (tableVisit (TABLE_PREFIX ++ name).toUTF8.data.toList)).collect none

/-- The closure of `check_meta`: the first record only. -/
def metaVisit : Visit Bool := fun _ data _ => do
  if ← Proc.get then return ()
  else
    Proc.set true
    let data ← context data "Meta record too large"
    let version ← fbU64 data 0
    let endianness ← fbU64 data 1
    refuse (endianness ≠ EXPECTED_ENDIANNESS)
      "database was written on a machine with different endianness"
    refuse (version ≠ SUPPORTED_DB_VERSION) s!"unsupported strfry database version {version}"

def Lmdb.checkMeta : Res Unit := do
  match ← db.table "Meta" with
  | none => bail "no strfry Meta table: not a strfry database"
  | some record =>
    let seen ← (db.walk record metaVisit).collect false
    refuse (seen = false) "strfry Meta table is empty"

structure Dicts where
  dicts : Finmap fun _ : ℕ => List UInt8
  total : ℕ

/-- The closure of `dictionaries`. -/
def dictVisit : Visit Dicts := fun key data _ => do
  let id ← u64At key 0
  if 2 ^ 32 ≤ id then return ()
  else
    match data with
    | none => return ()
    | some data =>
      let dict ← fbBytes data 0
      let s ← Proc.get
      let total ← add s.total dict.length
      Proc.set { s with total }
      refuse (MAX_DICTS ≤ s.dicts.keys.card ∨ MAX_DICT_BYTES < total)
        "too many compression dictionaries"
      Proc.set { dicts := s.dicts.insert id dict, total }

def Lmdb.dictionaries : Res (Finmap fun _ : ℕ => List UInt8) := do
  match ← db.table "CompressionDictionary" with
  | none => return ∅
  | some record =>
    let s ← (db.walk record dictVisit).collect { dicts := ∅, total := 0 }
    return s.dicts

/-- `zstd`: a decompressor for a dictionary, and what it makes of a frame. -/
structure Zstd where
  Decoder : Type
  withDictionary : List UInt8 → Option Decoder
  decompress : Decoder → List UInt8 → ℕ → Option (List UInt8) × Decoder

inductive Payload
  | json (bytes : List UInt8)
  | undecodable

variable {σ : Type} (z : Zstd)

/-- What the closure of `for_each_event` has: a decoder for each dictionary that was used, and what
the function it calls has. -/
structure Decoding (σ : Type) where
  decoders : Finmap fun _ : ℕ => z.Decoder
  user : σ

variable {z}

def emit (f : Payload → Proc σ Unit) (p : Payload) : Proc (Decoding z σ) Unit :=
  (f p).on Decoding.user fun user s => { s with user }

/-- A frame, with the decoder of its dictionary. -/
def inflate (f : Payload → Proc σ Unit) (maxJson id : ℕ) (decoder : z.Decoder)
    (frame : List UInt8) : Proc (Decoding z σ) Unit := do
  let (out, decoder) := z.decompress decoder frame maxJson
  Proc.modify fun s => { s with decoders := s.decoders.insert id decoder }
  match out with
  | some json => emit f (.json json)
  | none => emit f .undecodable

/-- The closure of `for_each_event`. -/
def eventVisit (dicts : Finmap fun _ : ℕ => List UInt8) (maxJson : ℕ) (f : Payload → Proc σ Unit) :
    Visit (Decoding z σ) := fun _ data _ =>
  match data with
  | none => emit f .undecodable
  | some [] => emit f .undecodable
  | some (tag :: rest) => do
    if tag = 0 then emit f (.json rest)
    else if tag = 1 ∧ 4 ≤ rest.length then
      let head ← slice rest 0 4
      let id := ofLE head
      let frame ← slice rest 4 rest.length
      let s ← Proc.get
      match s.decoders.lookup id with
      | some decoder => inflate f maxJson id decoder frame
      | none =>
        match (dicts.lookup id).bind z.withDictionary with
        | some decoder => inflate f maxJson id decoder frame
        | none => emit f .undecodable
    else emit f .undecodable

def Lmdb.forEachEvent (z : Zstd) (maxJson : ℕ) (f : Payload → Proc σ Unit) : Proc σ Unit := do
  db.checkMeta
  let dicts ← db.dictionaries
  match ← db.table "EventPayload" with
  | none => bail "no strfry EventPayload table"
  | some record =>
    (db.walk record (eventVisit (z := z) dicts maxJson f)).within
      (fun user => { decoders := ∅, user }) Decoding.user

end tables

end NostrSearch.Server.Strfry
