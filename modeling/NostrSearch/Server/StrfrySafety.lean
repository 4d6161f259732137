import NostrSearch.Server.Strfry

/-!
# The reader is safe on any file

No content of a file makes the reader panic: what it reads is checked before it is used, and the
numbers in it are too small to overflow anything. The counter of a walk never passes the pages of
the file, and a page is read after it was counted, but for the header of an overflow page, which has
the number to count. So a walk reads as many pages as the file has at most, and the header of one
more, after which it fails (`Bounded`).
-/

namespace NostrSearch.Server.Strfry

open NostrSearch.Lib Res

/-! ## Numbers -/

theorem sound_getRange {b : List UInt8} {i j : ℕ} (text : String) :
    Sound (context (getRange b i j) text) fun c => i ≤ j ∧ j ≤ b.length ∧ c.length = j - i := by
  apply sound_context
  intro c hc
  rw [getRange] at hc
  split at hc
  case isTrue h =>
    cases hc
    rw [List.length_take, List.length_drop]
    omega
  case isFalse => cases hc

theorem sound_checkedAdd {a b : ℕ} (text : String) :
    Sound (context (checkedAdd a b) text) fun c => c = a + b ∧ c < 2 ^ 64 := by
  apply sound_context
  intro c hc
  rw [checkedAdd] at hc
  split at hc
  case isTrue h =>
    cases hc
    exact ⟨rfl, h⟩
  case isFalse => cases hc

/-- A number that is read fits its width, and was there. -/
theorem sound_leAt (w : ℕ) (b : List UInt8) (offset : ℕ) :
    Sound (leAt w b offset) fun v => v < 256 ^ w ∧ offset + w ≤ b.length := by
  apply (sound_checkedAdd _).bind
  rintro stop ⟨rfl, -⟩
  apply (sound_getRange _).bind
  rintro s ⟨-, hstop, hs⟩
  have hlength : s.length = w := by omega
  have hlt := ofLE_lt s
  rw [hlength] at hlt
  exact ⟨hlt, hstop⟩

theorem sound_u16At (b : List UInt8) (offset : ℕ) :
    Sound (u16At b offset) fun v => v < 2 ^ 16 ∧ offset + 2 ≤ b.length := sound_leAt 2 b offset

theorem sound_u32At (b : List UInt8) (offset : ℕ) :
    Sound (u32At b offset) fun v => v < 2 ^ 32 ∧ offset + 4 ≤ b.length := sound_leAt 4 b offset

theorem sound_u64At (b : List UInt8) (offset : ℕ) :
    Sound (u64At b offset) fun v => v < 2 ^ 64 ∧ offset + 8 ≤ b.length := sound_leAt 8 b offset

theorem sound_parse (b : List UInt8) {offset : ℕ} (h : offset < 2 ^ 63) :
    Sound (DbRecord.parse b offset) fun _ => True := by
  apply (sound_add (by omega)).bind
  rintro at₁ rfl
  apply (sound_u16At _ _).bind
  rintro depth -
  apply (sound_add (by omega)).bind
  rintro at₂ rfl
  apply (sound_u64At _ _).bind
  rintro entries -
  apply (sound_add (by omega)).bind
  rintro at₃ rfl
  apply (sound_u64At _ _).bind
  rintro root -
  exact sound_pure trivial

theorem sound_readExactAt (file : DbFile) (offset n : ℕ) (text : String) :
    Sound (context (file.readExactAt offset n) text) fun b => b.length = n := by
  apply sound_context
  intro b hb
  rw [DbFile.readExactAt] at hb
  split at hb
  case isTrue h =>
    cases hb
    rw [List.length_take, List.length_drop]
    omega
  case isFalse => cases hb

/-! ## Opening -/

theorem sound_hasLmdbMagic (head : List UInt8) : Sound (hasLmdbMagic head) fun _ => True := by
  rw [hasLmdbMagic]
  split
  case isTrue h =>
    apply (sound_slice (by omega) h).bind
    rintro magic -
    exact sound_pure trivial
  case isFalse => exact sound_pure trivial

theorem sound_metaPage (file : DbFile) {pageSize slot : ℕ} (pages : ℕ)
    (best : Option (ℕ × DbRecord)) (hsize : pageSize ≤ 65536) (hslot : slot < 2) :
    Sound (metaPage file pageSize pages best slot) fun _ => True := by
  have hoffset : slot * pageSize < 2 ^ 64 := by
    calc slot * pageSize ≤ 2 * 65536 := Nat.mul_le_mul (by omega) hsize
      _ < 2 ^ 64 := by norm_num
  apply (sound_mul hoffset).bind
  rintro offset -
  apply (sound_readExactAt _ _ _ _).bind
  rintro page -
  split
  · exact sound_pure trivial
  · apply (sound_u64At _ _).bind
    rintro lastPg -
    apply (sound_u64At _ _).bind
    rintro txnid -
    split
    · exact sound_pure trivial
    · apply (sound_parse _ (by decide)).bind
      rintro main -
      split
      · exact sound_pure trivial
      · split <;> exact sound_pure trivial

theorem sound_open (file : DbFile) : Sound (Lmdb.open file) fun _ => True := by
  apply (sound_readExactAt _ _ _ _).bind
  rintro first -
  apply (sound_hasLmdbMagic _).bind
  rintro magic -
  apply (sound_refuse _ _).bind
  rintro _ -
  apply (sound_u32At _ _).bind
  rintro pageSize -
  split
  case isTrue h =>
    apply (sound_refuse _ _).bind
    rintro _ -
    apply (sound_metaPage _ _ _ h.2.1 (by decide)).bind
    rintro best -
    apply (sound_metaPage _ _ _ h.2.1 (by decide)).bind
    rintro best' -
    apply (sound_context _ _ fun _ _ => trivial).bind (P := fun _ => True)
    rintro found -
    exact sound_pure trivial
  case isFalse => exact sound_bail _

/-! ## Pages -/

namespace Lmdb

variable (db : Lmdb)

theorem pages_lt : db.pages < 2 ^ 52 := by
  have hlt := db.file.length_lt
  have hsize := db.pageSize_ge
  rw [pages, Nat.div_lt_iff_lt_mul (by omega)]
  calc db.file.bytes.length < 2 ^ 52 * 4096 := by omega
    _ ≤ 2 ^ 52 * db.pageSize := Nat.mul_le_mul_left _ hsize

theorem pages_mul_le : db.pages * db.pageSize ≤ db.file.bytes.length := Nat.div_mul_le_self _ _

/-- A page of the file is in the file. -/
theorem page_le {pgno n : ℕ} (h : pgno + n ≤ db.pages) :
    pgno * db.pageSize + n * db.pageSize ≤ db.file.bytes.length := by
  rw [← Nat.add_mul]
  exact le_trans (Nat.mul_le_mul_right _ h) db.pages_mul_le

theorem offset_lt {pgno : ℕ} (h : pgno < db.pages) :
    pgno * db.pageSize + db.pageSize < 2 ^ 64 := by
  have hle : pgno * db.pageSize + 1 * db.pageSize ≤ db.file.bytes.length := db.page_le h
  have hlt := db.file.length_lt
  omega

end Lmdb

/-! ## The walk -/

section walk

variable {σ : Type} (db : Lmdb) (U : σ → Prop)

/-- The counter of the walk, `due` pages ahead of what was read but for `slack`, and below the
limit; and what the callback keeps. -/
structure Counted (slack due : ℕ) (s : Walking σ) : Prop where
  read : s.read + due ≤ s.visited + slack
  visited : s.visited ≤ db.pages
  deepest : s.deepest ≤ MAX_DEPTH
  user : U s.user

/-- What holds of a walk that was stopped by an error. -/
structure Stopped (s : Walking σ) : Prop where
  read : s.read ≤ db.pages + 1
  deepest : s.deepest ≤ MAX_DEPTH

/-- A callback that does not panic, whatever key and value it is called with. -/
def Calm (f : Visit σ) : Prop :=
  ∀ key data nflags, (∀ d ∈ data, d.length ≤ MAX_VALUE_BYTES) →
    Safe U (f key data nflags) (fun _ => U) fun _ => True

variable {db U} {slack due : ℕ}

theorem Counted.stopped {s : Walking σ} (h : Counted db U slack due s) (hslack : slack ≤ 1) :
    Stopped db s := by
  have hread := h.read
  have hvisited := h.visited
  exact ⟨by omega, h.deepest⟩

theorem safe_noteRead {n : ℕ} :
    Safe (Counted db U slack due) (noteRead n) (fun _ => Counted db U (slack + n) due)
      (Stopped db) := by
  apply safe_modify
  intro s hs
  have hread := hs.read
  refine ⟨?_, hs.visited, hs.deepest, hs.user⟩
  show s.read + n + due ≤ s.visited + (slack + n)
  omega

/-- What is due is read. -/
theorem safe_noteRead_due {n : ℕ} (hn : n ≤ due) :
    Safe (Counted db U slack due) (noteRead n) (fun _ => Counted db U slack (due - n))
      (Stopped db) := by
  apply safe_modify
  intro s hs
  have hread := hs.read
  refine ⟨?_, hs.visited, hs.deepest, hs.user⟩
  show s.read + n + (due - n) ≤ s.visited + slack
  omega

theorem safe_count {n : ℕ} (hslack : slack ≤ 1) (hn : slack ≤ n) (hlt : n < 2 ^ 32) :
    Safe (Counted db U slack 0) (db.count n) (fun _ => Counted db U 0 (n - slack))
      (Stopped db) := by
  intro s hs
  have hread := hs.read
  have hvisited := hs.visited
  have hpages := db.pages_lt
  have hadd : add s.visited n = .ok (s.visited + n) := by rw [add, if_pos (by omega)]
  have hrun : db.count n s =
      if db.pages < s.visited + n then
        (.error (.err "tree visits more pages than the file holds"),
          { s with visited := s.visited + n })
      else (.ok (), { s with visited := s.visited + n }) := by
    rw [Lmdb.count, Proc.bind_ok (rfl : Proc.get s = (.ok s, s)), Proc.lift_bind_ok hadd]
    show (refuse _ _, _) = _
    rw [refuse]
    split <;> rfl
  rw [hrun]
  split
  case h_1 _ s' h =>
    split at h
    · cases h
    · cases h
      refine ⟨?_, ?_, hs.deepest, hs.user⟩
      · -- a header that was read is one of the pages that are counted now
        show s.read + (n - slack) ≤ s.visited + n + 0
        omega
      · show s.visited + n ≤ db.pages
        omega
  case h_2 _ s' h =>
    split at h
    · cases h
      exact ⟨by show s.read ≤ _; omega, hs.deepest⟩
    · cases h
  case h_3 _ s' h =>
    split at h <;> cases h

theorem safe_enter {depth : ℕ} (h : depth ≤ MAX_DEPTH) :
    Safe (Counted db U slack due) (enter depth) (fun _ => Counted db U slack due)
      (Stopped db) := by
  apply safe_modify
  intro s hs
  exact ⟨hs.read, hs.visited, max_le hs.deepest h, hs.user⟩

theorem safe_call {f : Visit σ} (hf : Calm U f) {key : List UInt8} {data : Option (List UInt8)}
    {nflags : ℕ} (hdata : ∀ d ∈ data, d.length ≤ MAX_VALUE_BYTES) :
    Safe (Counted db U 0 due) (call (f key data nflags)) (fun _ => Counted db U 0 due)
      (Stopped db) := by
  apply safe_on (hf key data nflags hdata) fun s hs => hs.user
  · -- the callback does not see the counters
    exact fun s _ user hs huser => ⟨hs.read, hs.visited, hs.deepest, huser⟩
  · exact fun s user hs _ => ⟨(hs.stopped (by omega)).read, hs.deepest⟩

/-- What does not touch the counters. -/
theorem safe_step {α β : Type} {r : Res α} {A : α → Prop} {f : α → Proc (Walking σ) β}
    {Q : β → Walking σ → Prop} (h : Sound r A) (hslack : slack ≤ 1)
    (hf : ∀ a, A a → Safe (Counted db U slack due) (f a) Q (Stopped db)) :
    Safe (Counted db U slack due) ((monadLift r : Proc (Walking σ) α) >>= f) Q (Stopped db) :=
  safe_lift_bind h (fun _ hs => hs.stopped hslack) hf

theorem safe_readPage (pgno : ℕ) :
    Safe (Counted db U 0 1) (db.readPage pgno)
      (fun page s => page.length = db.pageSize ∧ Counted db U 0 0 s) (Stopped db) := by
  apply safe_step (sound_refuse _ _) (by omega)
  intro _ hpgno
  have hlt := db.offset_lt (not_le.mp hpgno)
  apply safe_step (sound_mul (by omega)) (by omega)
  rintro offset rfl
  apply (safe_noteRead_due (by omega)).bind
  intro _
  apply safe_step (sound_readExactAt _ _ _ _) (by omega)
  intro page hpage
  apply safe_step (sound_u64At _ _) (by omega)
  intro own _
  apply safe_step (sound_refuse _ _) (by omega)
  intro _ _
  exact safe_pure fun s hs => ⟨hpage, hs⟩

/-- The header of an overflow page is read before its pages are counted. -/
theorem safe_readOverflow (pgno dsize : ℕ) :
    Safe (Counted db U 0 0) (db.readOverflow pgno dsize)
      (fun data s => (∀ d ∈ data, d.length ≤ MAX_VALUE_BYTES) ∧ Counted db U 0 0 s)
      (Stopped db) := by
  apply safe_step (sound_refuse _ _) (by omega)
  intro _ hpgno
  have hlt := db.offset_lt (not_le.mp hpgno)
  have hsize := db.pageSize_ge
  apply safe_step (sound_mul (by omega)) (by omega)
  rintro offset rfl
  apply safe_noteRead.bind
  intro _
  apply safe_step (sound_readExactAt _ _ _ _) (by omega)
  intro head _
  apply safe_step (sound_u64At _ _) (by omega)
  intro own _
  apply safe_step (sound_u16At _ _) (by omega)
  intro flags _
  apply safe_step (sound_refuse _ _) (by omega)
  intro _ _
  apply safe_step (sound_u32At _ _) (by omega)
  rintro n ⟨hn, -⟩
  have hspan : Sound (context (checkedMul n db.pageSize) "overflow span overflow")
      (· = n * db.pageSize) := by
    apply sound_context
    intro span hspan
    rw [checkedMul] at hspan
    split at hspan
    · exact (Option.some.inj hspan).symm
    · cases hspan
  apply safe_step hspan (by omega)
  rintro span rfl
  apply safe_step (sound_refuse _ _) (by omega)
  intro _ hpos
  apply safe_step (sound_refuse _ _) (by omega)
  intro _ _
  -- there is a header to take off
  have hheader : PAGE_HEADER ≤ n * db.pageSize := by
    calc PAGE_HEADER ≤ 1 * db.pageSize := by rw [PAGE_HEADER]; omega
      _ ≤ n * db.pageSize := Nat.mul_le_mul_right _ (by omega)
  apply safe_step (sound_sub hheader) (by omega)
  rintro room rfl
  apply safe_step (sound_refuse _ _) (by omega)
  intro _ _
  apply (safe_count (by omega) (by omega) hn).bind
  intro _
  split
  case isTrue =>
    exact safe_pure fun s hs =>
      ⟨nofun, hs.read.trans' (by omega), hs.visited, hs.deepest, hs.user⟩
  case isFalse hvalue =>
    apply safe_step (sound_add (by rw [PAGE_HEADER]; omega)) (by omega)
    intro dataAt _
    apply (safe_noteRead_due le_rfl).bind
    intro _
    apply safe_step (sound_readExactAt _ _ _ _) (by omega)
    intro data hdata
    apply safe_pure
    intro s hs
    rw [Nat.sub_self] at hs
    refine ⟨?_, hs⟩
    rintro d ⟨⟩
    rw [hdata]
    exact not_lt.mp hvalue

theorem sound_nodeAt (page : List UInt8) {i : ℕ} (hi : i < 2 ^ 32) :
    Sound (db.nodeAt page i) fun node => node.ptr < 2 ^ 16 ∧ node.lo < 2 ^ 16 ∧
      node.hi < 2 ^ 16 ∧ node.ksize < 2 ^ 16 := by
  apply (sound_mul (by omega)).bind
  rintro twice rfl
  apply (sound_add (by rw [PAGE_HEADER]; omega)).bind
  rintro slot -
  apply (sound_u16At _ _).bind
  rintro ptr ⟨hptr, -⟩
  apply (sound_add (by rw [NODE_HEADER]; omega)).bind
  rintro stop -
  apply (sound_refuse _ _).bind
  rintro _ -
  apply (sound_u16At _ _).bind
  rintro lo ⟨hlo, -⟩
  apply (sound_add (by omega)).bind
  rintro at₁ -
  apply (sound_u16At _ _).bind
  rintro hi' ⟨hhi, -⟩
  apply (sound_add (by omega)).bind
  rintro at₂ -
  apply (sound_u16At _ _).bind
  rintro nflags -
  apply (sound_add (by omega)).bind
  rintro at₃ -
  apply (sound_u16At _ _).bind
  rintro ksize ⟨hksize, -⟩
  exact sound_pure ⟨hptr, hlo, hhi, hksize⟩

theorem sound_pageHeader (page : List UInt8) :
    Sound (db.pageHeader page) fun x => x.2 < 2 ^ 32 := by
  apply (sound_u16At _ _).bind
  rintro flags -
  apply (sound_u16At _ _).bind
  rintro lower ⟨hlower, -⟩
  apply (sound_refuse _ _).bind
  rintro _ hbounds
  apply (sound_sub (by omega)).bind
  rintro used rfl
  apply (sound_refuse _ _).bind
  rintro _ -
  apply sound_pure
  show (lower - PAGE_HEADER) / 2 < 2 ^ 32
  omega

theorem dsize_lt {node : PageNode} (hlo : node.lo < 2 ^ 16) (hhi : node.hi < 2 ^ 16) :
    node.dsize < 2 ^ 32 := by
  apply Nat.or_lt_two_pow
  · omega
  · rw [Nat.shiftLeft_eq]
    omega

theorem safe_leafNode {f : Visit σ} (hf : Calm U f) {page : List UInt8}
    (hpage : page.length = db.pageSize) {node : PageNode} (hptr : node.ptr < 2 ^ 16)
    (hlo : node.lo < 2 ^ 16) (hhi : node.hi < 2 ^ 16) (hksize : node.ksize < 2 ^ 16) :
    Safe (Counted db U 0 0) (db.leafNode f page node) (fun _ => Counted db U 0 0)
      (Stopped db) := by
  have hdsize := dsize_lt hlo hhi
  apply safe_step (sound_refuse _ _) (by omega)
  intro _ _
  apply safe_step (sound_add (by rw [NODE_HEADER]; omega)) (by omega)
  rintro keyAt rfl
  apply safe_step (sound_add (by rw [NODE_HEADER]; omega)) (by omega)
  rintro dataAt rfl
  apply safe_step (sound_getRange _) (by omega)
  rintro key ⟨-, hkey, -⟩
  split
  · apply safe_step (sound_u64At _ _) (by omega)
    intro opg _
    -- the value is on overflow pages
    apply (safe_readOverflow _ _).bind_fact
    intro data hdata
    exact safe_call hf hdata
  · have hstop : Sound (context
        ((checkedAdd (node.ptr + NODE_HEADER + node.ksize) node.dsize).filter
          fun e => e ≤ db.pageSize) "value out of page") fun stop =>
          stop = node.ptr + NODE_HEADER + node.ksize + node.dsize ∧ stop ≤ db.pageSize := by
      apply sound_context
      intro stop hstop
      rw [Option.filter_eq_some_iff, decide_eq_true_eq, checkedAdd] at hstop
      obtain ⟨hadd, hle⟩ := hstop
      split at hadd
      · exact ⟨(Option.some.inj hadd).symm, hle⟩
      · cases hadd
    apply safe_step hstop (by omega)
    rintro stop ⟨rfl, hstop⟩
    apply safe_step (sound_slice (by omega) (by omega)) (by omega)
    intro value hvalue
    apply safe_call hf
    rintro d ⟨⟩
    -- no page is as large as a value may be
    have hsize := db.pageSize_le
    rw [hvalue, MAX_VALUE_BYTES]
    omega

/-- A walk that has `levels` to go. -/
theorem safe_walkPage {f : Visit σ} (hf : Calm U f) (levels depth pgno : ℕ)
    (hdepth : depth + levels ≤ MAX_DEPTH) :
    Safe (Counted db U 0 0) (db.walkPage f levels depth pgno) (fun _ => Counted db U 0 0)
      (Stopped db) := by
  induction levels generalizing depth pgno with
  | zero =>
    apply (safe_enter (by omega)).bind
    intro _
    -- deeper than declared
    exact safe_bail _ fun s hs => hs.stopped (by omega)
  | succ levels ih =>
    apply (safe_enter (by omega)).bind
    intro _
    apply (safe_count (by omega) (by omega) (by norm_num)).bind
    intro _
    apply (safe_readPage pgno).bind_fact
    intro page hpage
    apply safe_step (sound_pageHeader page) (by omega)
    rintro ⟨flags, count⟩ hcount
    -- what holds before a node holds behind it
    apply safe_forM
    intro i hi
    apply safe_step (sound_nodeAt page (by have := List.mem_range.mp hi; omega)) (by omega)
    rintro node ⟨hptr, hlo, hhi, hksize⟩
    split
    · exact ih (depth + 1) node.child (by omega)
    · split
      · exact safe_leafNode hf hpage hptr hlo hhi hksize
      · exact safe_bail _ fun s hs => hs.stopped (by omega)

theorem safe_walking {f : Visit σ} (hf : Calm U f) (record : DbRecord) :
    Safe (Counted db U 0 0) (db.walking record f) (fun _ => Counted db U 0 0) (Stopped db) := by
  rw [Lmdb.walking]
  split
  · exact safe_pure fun s hs => hs
  · have hdepth : record.depth.toNat < 2 ^ 16 := record.depth.toNat_lt
    apply safe_step (sound_add (by omega)) (by omega)
    intro declared _
    exact safe_walkPage hf _ 0 _ (by rw [Nat.zero_add]; exact min_le_right _ _)

theorem counted_start {user : σ} (huser : U user) : Counted db U 0 0 (Walking.start user) :=
  ⟨le_rfl, Nat.zero_le _, Nat.zero_le _, huser⟩

/-- A walk, from what its callback has at the start: it does not panic, it is not deeper than the
limit, and it reads as many pages as the file has, or the header of one more and fails. -/
structure Bounded (db : Lmdb) (record : DbRecord) (f : Visit σ) (user : σ) : Prop where
  no_panic : (db.walking record f (Walking.start user)).1 ≠ .error .panic
  deepest : (db.walking record f (Walking.start user)).2.deepest ≤ MAX_DEPTH
  read : (db.walking record f (Walking.start user)).2.read ≤ db.pages ∨
    (db.walking record f (Walking.start user)).2.read = db.pages + 1 ∧
      ∃ text, (db.walking record f (Walking.start user)).1 = .error (.err text)

theorem bounded {f : Visit σ} (hf : Calm U f) (record : DbRecord) {user : σ} (huser : U user) :
    Bounded db record f user := by
  have hstart : Counted db U 0 0 (Walking.start user) := counted_start huser
  have hsafe : Safe (Counted db U 0 0) (db.walking record f) (fun _ => Counted db U 0 0)
      (Stopped db) := safe_walking hf record
  obtain ⟨_, _, hs⟩ | ⟨text, hstop, hs⟩ := hsafe.run hstart
  · have hread := hs.read
    have hvisited := hs.visited
    exact ⟨hsafe.ne_panic hstart, hs.deepest, Or.inl (by omega)⟩
  · have hread := hs.read
    refine ⟨hsafe.ne_panic hstart, hs.deepest, ?_⟩
    rcases Nat.lt_or_eq_of_le hread with hlt | heq
    · exact Or.inl (Nat.le_of_lt_succ hlt)
    · exact Or.inr ⟨heq, text, hstop⟩

theorem safe_walk {f : Visit σ} (hf : Calm U f) (record : DbRecord) :
    Safe U (db.walk record f) (fun _ => U) fun _ => True :=
  safe_within (safe_walking hf record) (fun _ huser => counted_start huser)
    (fun _ _ hs => hs.user) fun _ _ => trivial

end walk

/-! ## Flatbuffers -/

theorem sound_fbField (buf : List UInt8) {slot : ℕ} (hslot : slot < 2 ^ 32) :
    Sound (fbField buf slot) fun field => ∀ x ∈ field, x < 2 ^ 33 := by
  apply (sound_u32At _ _).bind
  rintro root ⟨hroot, -⟩
  apply (sound_u32At _ _).bind
  rintro soffset ⟨hsoffset, -⟩
  -- the offset of the vtable has a sign
  have hsigned : -2 ^ 31 ≤ asI32 soffset := by
    rw [asI32]
    split <;> omega
  have hvtable : Sound (context (if 0 ≤ (root : ℤ) - asI32 soffset then
      some ((root : ℤ) - asI32 soffset).toNat else none) "bad flatbuffer vtable")
      fun vtable => vtable < 2 ^ 33 := by
    apply sound_context
    intro vtable h
    split at h
    · rw [← Option.some.inj h]
      omega
    · cases h
  apply hvtable.bind
  intro vtable hlt
  apply (sound_u16At _ _).bind
  rintro vsize -
  apply (sound_mul (by omega)).bind
  rintro twice rfl
  apply (sound_add (by omega)).bind
  rintro offset rfl
  apply (sound_add (by omega)).bind
  rintro stop -
  split
  · exact sound_pure nofun
  · apply (sound_add (by omega)).bind
    rintro at₁ -
    apply (sound_u16At _ _).bind
    rintro off ⟨hoff, -⟩
    split
    · exact sound_pure nofun
    · apply (sound_checkedAdd _).bind
      rintro field ⟨rfl, -⟩
      apply sound_pure
      rintro x ⟨⟩
      omega

theorem sound_fbU64 (buf : List UInt8) {slot : ℕ} (hslot : slot < 2 ^ 32) :
    Sound (fbU64 buf slot) fun _ => True := by
  apply (sound_fbField buf hslot).bind
  intro field _
  cases field with
  | none => exact sound_pure trivial
  | some offset => exact (sound_u64At buf offset).mono fun _ _ => trivial

theorem sound_fbBytes (buf : List UInt8) {slot : ℕ} (hslot : slot < 2 ^ 32) :
    Sound (fbBytes buf slot) fun bytes => bytes.length ≤ buf.length := by
  apply (sound_fbField buf hslot).bind
  intro field hfield
  cases field with
  | none => exact sound_pure (Nat.zero_le _)
  | some offset =>
    have hoffset := hfield offset rfl
    apply (sound_u32At _ _).bind
    rintro rel ⟨hrel, -⟩
    apply (sound_checkedAdd _).bind
    rintro vec ⟨rfl, -⟩
    apply (sound_u32At _ _).bind
    rintro len -
    apply (sound_add (by omega)).bind
    rintro start -
    apply (sound_checkedAdd _).bind
    rintro stop -
    apply (sound_getRange _).mono
    rintro bytes ⟨-, hstop, hlength⟩
    omega

/-! ## Tables -/

section tables

variable (db : Lmdb)

theorem calm_tableVisit (want : List UInt8) : Calm (fun _ => True) (tableVisit want) := by
  intro key data nflags _
  rw [tableVisit]
  split
  · apply safe_lift_bind (sound_context data _ fun _ _ => trivial) fun _ _ => trivial
    rintro bytes -
    apply safe_lift_bind (sound_parse bytes (by norm_num)) fun _ _ => trivial
    rintro record -
    exact fun _ _ => trivial
  · exact safe_pure fun _ _ => trivial

theorem sound_table (name : String) : Sound (db.table name) fun _ => True :=
  (safe_walk (calm_tableVisit _) db.main).collect trivial

theorem calm_metaVisit : Calm (fun _ => True) metaVisit := by
  intro key data nflags _
  apply Safe.bind (R := fun _ _ => True) (fun _ _ => trivial)
  intro seen
  split
  · exact safe_pure fun _ _ => trivial
  · apply Safe.bind (R := fun _ _ => True) (fun _ _ => trivial)
    rintro ⟨⟩
    apply safe_lift_bind (sound_context data _ fun _ _ => trivial) fun _ _ => trivial
    rintro bytes -
    apply safe_lift_bind (sound_fbU64 bytes (by norm_num)) fun _ _ => trivial
    rintro version -
    apply safe_lift_bind (sound_fbU64 bytes (by norm_num)) fun _ _ => trivial
    rintro endianness -
    apply safe_lift_bind (sound_refuse _ _) fun _ _ => trivial
    rintro _ -
    exact (safe_lift (sound_refuse _ _) fun _ _ => trivial).mono (fun _ hs => hs)
      (fun _ _ _ => trivial) fun _ hs => hs

theorem sound_checkMeta : Sound db.checkMeta fun _ => True := by
  apply (sound_table db _).bind
  rintro found -
  cases found with
  | none => exact sound_bail _
  | some record =>
    apply ((safe_walk calm_metaVisit record).collect trivial).bind
    rintro seen -
    exact (sound_refuse _ _).mono fun _ _ => trivial

/-- The dictionaries that are kept are not too large together. -/
theorem calm_dictVisit : Calm (fun s : Dicts => s.total ≤ MAX_DICT_BYTES) dictVisit := by
  intro key data nflags hdata
  apply safe_lift_bind (sound_u64At _ _) fun _ _ => trivial
  rintro id -
  split
  · exact safe_pure fun _ hs => hs
  · cases data with
    | none => exact safe_pure fun _ hs => hs
    | some bytes =>
      have hbytes := hdata bytes rfl
      apply safe_lift_bind (sound_fbBytes bytes (by norm_num)) fun _ _ => trivial
      intro dict hdict
      apply safe_get_bind
      intro s hs
      -- no value is too large for the sum
      have htotal : s.total + dict.length < 2 ^ 64 := by
        rw [MAX_VALUE_BYTES] at hbytes
        rw [MAX_DICT_BYTES] at hs
        omega
      apply safe_lift_bind (sound_add htotal) fun _ _ => trivial
      rintro total rfl
      apply safe_set_bind
      apply safe_lift_bind (sound_refuse _ _) fun _ _ => trivial
      intro _ hsmall
      apply safe_set
      exact not_lt.mp fun hlarge => hsmall (Or.inr hlarge)

theorem sound_dictionaries : Sound db.dictionaries fun _ => True := by
  apply (sound_table db _).bind
  rintro found -
  cases found with
  | none => exact sound_pure trivial
  | some record =>
    apply ((safe_walk calm_dictVisit record).collect (Nat.zero_le _)).bind
    rintro s -
    exact sound_pure trivial

theorem calm_eventVisit {σ : Type} {z : Zstd} {f : Payload → Proc σ Unit}
    (hf : ∀ p user, (f p user).1 ≠ .error .panic) (dicts : Finmap fun _ : ℕ => List UInt8)
    (maxJson : ℕ) : Calm (fun _ => True) (eventVisit (z := z) dicts maxJson f) := by
  -- neither the callback nor what is around it panics
  have hf' : ∀ p, Safe (fun _ => True) (f p) (fun _ _ => True) fun _ => True := by
    intro p user _
    have hrun := hf p user
    cases hresult : f p user with
    | mk r user' =>
      rw [hresult] at hrun
      cases r with
      | ok => trivial
      | error stop =>
        cases stop with
        | err => trivial
        | panic => exact hrun rfl
  have hemit : ∀ p, Safe (fun _ => True) (emit f p : Proc (Decoding z σ) Unit) (fun _ _ => True)
      fun _ => True := fun p =>
    safe_on (hf' p) (fun _ _ => trivial) (fun _ _ _ _ _ => trivial) fun _ _ _ _ => trivial
  have hinflate : ∀ id decoder frame, Safe (fun _ => True)
      (inflate f maxJson id decoder frame : Proc (Decoding z σ) Unit) (fun _ _ => True)
      fun _ => True := by
    intro id decoder frame
    apply Safe.bind (R := fun _ _ => True) (fun _ _ => trivial)
    intro _
    split
    · exact hemit _
    · exact hemit _
  intro key data nflags _
  cases data with
  | none => exact hemit _
  | some raw =>
    cases raw with
    | nil => exact hemit _
    | cons tag rest =>
      rw [eventVisit]
      split
      · exact hemit _
      · split
        -- a frame has its tag, and the id of a dictionary, in front
        case isTrue hframe =>
          apply safe_lift_bind (sound_slice (by omega) hframe.2) fun _ _ => trivial
          rintro head -
          apply safe_lift_bind (sound_slice hframe.2 le_rfl) fun _ _ => trivial
          rintro frame -
          apply Safe.bind (R := fun _ _ => True) (fun _ _ => trivial)
          intro s
          split
          · exact hinflate _ _ _
          · split
            · exact hinflate _ _ _
            · exact hemit _
        case isFalse => exact hemit _

theorem safe_forEachEvent {σ : Type} (z : Zstd) (maxJson : ℕ) {f : Payload → Proc σ Unit}
    (hf : ∀ p user, (f p user).1 ≠ .error .panic) :
    Safe (fun _ => True) (db.forEachEvent z maxJson f) (fun _ _ => True) fun _ => True := by
  apply safe_lift_bind (sound_checkMeta db) fun _ _ => trivial
  rintro _ -
  apply safe_lift_bind (sound_dictionaries db) fun _ _ => trivial
  rintro dicts -
  apply safe_lift_bind (sound_table db _) fun _ _ => trivial
  rintro found -
  cases found with
  | none => exact safe_bail _ fun _ _ => trivial
  | some record =>
    exact safe_within (safe_walk (calm_eventVisit hf dicts maxJson) record) (fun _ _ => trivial)
      (fun _ _ _ => trivial) fun _ _ => trivial

/-- No file makes the reader panic, and each of its walks is bounded, of whatever record. -/
theorem reader_safe (file : DbFile) {σ : Type} (z : Zstd) (maxJson : ℕ)
    {f : Payload → Proc σ Unit} (hf : ∀ p user, (f p user).1 ≠ .error .panic) :
    Lmdb.open file ≠ .error .panic ∧
      ∀ db, Lmdb.open file = .ok db →
        db.checkMeta ≠ .error .panic ∧ db.dictionaries ≠ .error .panic ∧
        (∀ user, (db.forEachEvent z maxJson f user).1 ≠ .error .panic) ∧
        ∀ record,
          (∀ want, Bounded db record (tableVisit want) none) ∧
          Bounded db record metaVisit false ∧
          Bounded db record dictVisit { dicts := ∅, total := 0 } ∧
          ∀ dicts user, Bounded db record (eventVisit (z := z) dicts maxJson f)
            { decoders := ∅, user } := by
  refine ⟨(sound_open file).ne_panic, ?_⟩
  intro db _
  refine ⟨(sound_checkMeta db).ne_panic, (sound_dictionaries db).ne_panic, ?_, ?_⟩
  · intro user
    exact (safe_forEachEvent db z maxJson hf).ne_panic trivial
  · intro record
    refine ⟨?_, ?_, ?_, ?_⟩
    · intro want
      exact bounded (calm_tableVisit want) record trivial
    · exact bounded calm_metaVisit record trivial
    · exact bounded calm_dictVisit record (Nat.zero_le _)
    · intro dicts user
      exact bounded (calm_eventVisit hf dicts maxJson) record trivial

/-- A meta page, whose main tree has its root on page 2. -/
def sharedMeta : List UInt8 :=
  List.replicate 16 0 ++ toLE LMDB_MAGIC 4 ++ List.replicate 20 0 ++ toLE 4096 4 ++
    List.replicate 50 0 ++ toLE 1 2 ++ List.replicate 24 0 ++ toLE 4 8 ++ toLE 2 8 ++
    toLE 2 8 ++ toLE 1 8 ++ List.replicate 3944 0

/-- Page 1, an overflow page. -/
def sharedOverflow : List UInt8 :=
  toLE 1 8 ++ toLE 0 2 ++ toLE P_OVERFLOW 2 ++ toLE 1 4 ++ List.replicate 4080 7

/-- Page 2, a leaf whose four pointers are to one node, with a value on page 1. -/
def sharedLeaf : List UInt8 :=
  toLE 2 8 ++ toLE 0 2 ++ toLE P_LEAF 2 ++ toLE 24 2 ++ toLE 4096 2 ++
    toLE 24 2 ++ toLE 24 2 ++ toLE 24 2 ++ toLE 24 2 ++
    toLE 1 2 ++ toLE 0 2 ++ toLE F_BIGDATA 2 ++ toLE 0 2 ++ toLE 1 8 ++ List.replicate 4056 0

/-- A file of three pages, one of which is the value of four nodes. -/
def sharedFile : DbFile where
  bytes := sharedMeta ++ sharedOverflow ++ sharedLeaf
  length_lt := by
    simp only [sharedMeta, sharedOverflow, sharedLeaf, List.length_append, List.length_replicate,
      length_toLE]
    norm_num

/-- What is computed of the main tree of the file. -/
theorem open_sharedFile (P : Lmdb → Prop) [DecidablePred P]
    (h : (Lmdb.open sharedFile).toOption.any (decide <| P ·) = true) :
    ∃ db, Lmdb.open sharedFile = .ok db ∧ P db := by
  cases hopen : Lmdb.open sharedFile with
  | ok db =>
    rw [hopen] at h
    exact ⟨db, rfl, of_decide_eq_true h⟩
  | error stop =>
    rw [hopen] at h
    cases h

/-- The walk for the `Meta` table reads its root, the overflow page twice with all it holds, and the
header of that page once more, before it finds that this is too much. -/
theorem header_past_limit :
    ∃ db, Lmdb.open sharedFile = .ok db ∧
      db.pages < (db.walking db.main (tableVisit (TABLE_PREFIX ++ "Meta").toUTF8.data.toList)
        (Walking.start none)).2.read :=
  open_sharedFile (fun db => db.pages < (db.walking db.main
    (tableVisit (TABLE_PREFIX ++ "Meta").toUTF8.data.toList) (Walking.start none)).2.read)
    (by decide +kernel)

/-- Without a dictionary no frame is decompressed. -/
def noDictionary : Zstd where
  Decoder := Unit
  withDictionary := fun _ => none
  decompress := fun decoder _ _ => (none, decoder)

/-- With a count of the payloads. -/
theorem sharedFile_safe :
    ∃ db, Lmdb.open sharedFile = .ok db ∧ db.checkMeta ≠ .error .panic ∧
      ∀ count, (db.forEachEvent noDictionary 65536 (fun _ => Proc.modify (· + 1)) count).1 ≠
        .error .panic := by
  obtain ⟨db, hopen, -⟩ := open_sharedFile (fun db => db.pages = 3) (by decide +kernel)
  have hsafe := reader_safe sharedFile noDictionary 65536
    (f := fun _ => Proc.modify (· + 1)) fun _ _ => nofun
  obtain ⟨hmeta, -, hevents, -⟩ := hsafe.2 db hopen
  exact ⟨db, hopen, hmeta, hevents⟩

end tables

end NostrSearch.Server.Strfry
