import NostrSearch.Server.Submit

/-!
# Lines from a reader

`next_line` reads from a `BufRead`, which has its bytes in pieces: what is in the buffer, and what
the source delivers when the buffer is empty, in portions of any size, with interruptions that
`read_until` ignores. What is read does not depend on the pieces (`nextLine_content`), and is one
item for each line of the stream (`framing_exact`).
-/

namespace NostrSearch.Server.LineFraming

open NostrSearch.Server.Submit

/-- What the source does when it is asked for bytes. -/
inductive Delivery
  /-- at least one byte -/
  | bytes (b : UInt8) (bs : List UInt8)
  | interrupted

/-- A `BufReader`: what is buffered, and what the source will deliver. -/
structure Source where
  buffered : List UInt8
  deliveries : List Delivery

/-- The bytes of a delivery. -/
def Delivery.content : Delivery → List UInt8
  | bytes b bs => b :: bs
  | interrupted => []

namespace Source

/-- The bytes that are left to read. -/
def content (src : Source) : List UInt8 := src.buffered ++ src.deliveries.flatMap Delivery.content

/-- The bytes and the deliveries that are left. -/
def size (src : Source) : ℕ := src.content.length + src.deliveries.length

def consume (n : ℕ) (src : Source) : Source := { src with buffered := src.buffered.drop n }

end Source

/-- What `take` lets through. `none` is a reader without a limit. -/
def limited (limit : Option ℕ) (bytes : List UInt8) : List UInt8 :=
  match limit with
  | none => bytes
  | some n => bytes.take n

/-- `fill_buf`, of the reader or of its `take`. The answer is `none` when it is interrupted. -/
def fillBuf (limit : Option ℕ) (src : Source) : Option (List UInt8) × Source :=
  if limit = some 0 then (some [], src)
  else if src.buffered ≠ [] then (some (limited limit src.buffered), src)
  else
    match src.deliveries with
    | [] => (some [], src)
    | .bytes b bs :: ds =>
      (some (limited limit (b :: bs)), { buffered := b :: bs, deliveries := ds })
    | .interrupted :: ds => (none, { src with deliveries := ds })

section FillBuf

variable {limit : Option ℕ} {src src' : Source} {available : List UInt8}

theorem limited_isPrefix (limit : Option ℕ) (bytes : List UInt8) : limited limit bytes <+: bytes := by
  cases limit with
  | none => exact List.prefix_rfl
  | some n => exact List.take_prefix n bytes

theorem limited_eq_nil {bytes : List UInt8} (hlimit : limit ≠ some 0)
    (h : limited limit bytes = []) : bytes = [] := by
  cases limit with
  | none => exact h
  | some n =>
    rw [limited, List.take_eq_nil_iff] at h
    exact h.resolve_left fun hn => hlimit (congrArg some hn)

/-- What is available is the start of what may be read. -/
theorem limited_append_isPrefix (limit : Option ℕ) (a b : List UInt8) :
    limited limit a <+: limited limit (a ++ b) := by
  cases limit with
  | none => exact List.prefix_append a b
  | some n =>
    rw [limited, limited, List.take_append]
    exact List.prefix_append _ _

theorem fillBuf_none (h : fillBuf limit src = (none, src')) :
    src'.content = src.content ∧ src'.size < src.size := by
  unfold fillBuf at h
  split at h
  · cases h
  · split at h
    · cases h
    · split at h
      · cases h
      · cases h
      case h_3 hbuffered ds hds =>
        rw [Prod.mk.injEq] at h
        have hcontent : src'.content = src.content := by
          rw [← h.2, Source.content, Source.content, hds]
          rfl
        refine ⟨hcontent, ?_⟩
        rw [Source.size, Source.size, hcontent, ← h.2, hds]
        exact Nat.add_lt_add_left (Nat.lt_succ_self ds.length) _

/-- What is available stands in the buffer, and there is nothing only if nothing may be read. -/
theorem fillBuf_some (h : fillBuf limit src = (some available, src')) :
    src'.content = src.content ∧ src'.size ≤ src.size ∧ available <+: src'.buffered ∧
      available <+: limited limit src.content ∧
      (available = [] → limited limit src.content = []) := by
  unfold fillBuf at h
  split at h
  case isTrue hlimit =>
    rw [Prod.mk.injEq, Option.some.injEq] at h
    rw [← h.1, ← h.2, hlimit]
    exact ⟨rfl, le_rfl, List.nil_prefix, List.nil_prefix, fun _ => rfl⟩
  case isFalse hlimit =>
    split at h
    case isTrue hbuffered =>
      rw [Prod.mk.injEq, Option.some.injEq] at h
      rw [← h.1, ← h.2]
      exact ⟨rfl, le_rfl, limited_isPrefix _ _, limited_append_isPrefix _ _ _,
        fun hnil => absurd (limited_eq_nil hlimit hnil) hbuffered⟩
    case isFalse hbuffered =>
      have hbuffered : src.buffered = [] := not_not.mp hbuffered
      split at h
      case h_1 hds =>
        have hcontent : src.content = [] := by rw [Source.content, hbuffered, hds]; rfl
        rw [Prod.mk.injEq, Option.some.injEq] at h
        rw [← h.1, ← h.2, hcontent]
        refine ⟨rfl, le_rfl, List.nil_prefix, List.nil_prefix, fun _ => ?_⟩
        exact List.prefix_nil.mp (limited_isPrefix limit [])
      case h_2 b bs ds hds =>
        have hcontent : src.content = b :: bs ++ ds.flatMap Delivery.content := by
          rw [Source.content, hbuffered, hds]
          rfl
        rw [Prod.mk.injEq, Option.some.injEq] at h
        rw [← h.1, ← h.2, Source.size, Source.size, hcontent, hds]
        refine ⟨rfl, ?_, limited_isPrefix _ _, limited_append_isPrefix _ _ _, fun hnil => ?_⟩
        · show (b :: bs ++ ds.flatMap Delivery.content).length + ds.length ≤ _
          rw [List.length_cons]
          omega
        · cases limited_eq_nil hlimit hnil
      · cases h

theorem content_consume {n : ℕ} (h : n ≤ src.buffered.length) :
    (src.consume n).content = src.content.drop n := by
  rw [Source.consume, Source.content, Source.content, List.drop_append_of_le_length h]

end FillBuf

/-- `read_until`, of the reader or of its `take`: what is appended to the buffer, and what is left
of the reader. -/
def readUntil (delim : UInt8) (limit : Option ℕ) (src : Source) : List UInt8 × Source :=
  match _h : fillBuf limit src with
  | (none, filled) => readUntil delim limit filled
  | (some available, filled) =>
    match available.idxOf? delim with
    | some i => (available.take (i + 1), filled.consume (i + 1))
    | none =>
      if _hnil : available = [] then ([], filled)
      else
        let used := available.length
        let (buf, rest) := readUntil delim (limit.map (· - used)) (filled.consume used)
        (available ++ buf, rest)
termination_by src.size
decreasing_by
  · exact (fillBuf_none _h).2
  · obtain ⟨-, hsize, hpre, -⟩ := fillBuf_some _h
    have hpos : 0 < available.length := List.length_pos_iff.mpr _hnil
    have hlen := hpre.length_le
    rw [Source.size, content_consume hlen, List.length_drop]
    have hcontent : available.length ≤ filled.content.length := by
      rw [Source.content, List.length_append]
      omega
    show filled.content.length - available.length + filled.deliveries.length < src.size
    rw [Source.size] at hsize
    omega

/-- `next_line`, and what is left of the reader. -/
def nextLine (src : Source) : Next × Source :=
  let (buf, rest) := readUntil 10 (some (MAX_LINE_BYTES + 1)) src
  if buf.length = 0 then (.eof, rest)
  else if buf.getLast? ≠ some 10 ∧ MAX_LINE_BYTES < buf.length then
    (.tooLong, (readUntil 10 none rest).2)
  else (.line buf, rest)

section ReadUntil

variable {delim : UInt8} {limit : Option ℕ} {src : Source}

/-- The delimiter is in the first part. -/
theorem readUntil_append_of_idxOf? {a : List UInt8} {i : ℕ} (h : a.idxOf? delim = some i)
    (b : List UInt8) : (Submit.readUntil delim (a ++ b)).1 = a.take (i + 1) := by
  induction a generalizing i with
  | nil => cases h
  | cons x a ih =>
    rw [List.cons_append, Submit.readUntil]
    rw [List.idxOf?_cons] at h
    by_cases hx : x = delim
    · rw [if_pos (beq_iff_eq.mpr hx), Option.some.injEq] at h
      rw [if_pos hx, ← h]
      rfl
    · rw [if_neg (by simpa using hx), Option.map_eq_some_iff] at h
      obtain ⟨j, hj, rfl⟩ := h
      rw [if_neg hx, List.take_succ_cons]
      show x :: (Submit.readUntil delim (a ++ b)).1 = _
      rw [ih hj]

/-- It is not. -/
theorem readUntil_append_of_notMem {a : List UInt8} (h : delim ∉ a) (b : List UInt8) :
    Submit.readUntil delim (a ++ b) =
      (a ++ (Submit.readUntil delim b).1, (Submit.readUntil delim b).2) := by
  induction a with
  | nil => rfl
  | cons x a ih =>
    rw [List.mem_cons, not_or] at h
    rw [List.cons_append, Submit.readUntil, if_neg fun hx => h.1 hx.symm, ih h.2]
    rfl

theorem limited_drop {a : List UInt8} (h : a <+: limited limit src.content) :
    limited limit src.content =
      a ++ limited (limit.map (· - a.length)) (src.content.drop a.length) := by
  obtain ⟨b, hb⟩ := h
  have hdrop : b = (limited limit src.content).drop a.length := by
    rw [← hb, List.drop_left]
  rw [← hb, hdrop]
  cases limit with
  | none => rfl
  | some n =>
    show a ++ (src.content.take n).drop a.length = a ++ (src.content.drop a.length).take _
    rw [List.drop_take]

/-- **The pieces do not matter**: what is read is what is read of all the bytes at once. -/
theorem readUntil_content (delim : UInt8) (limit : Option ℕ) (src : Source) :
    (readUntil delim limit src).1 = (Submit.readUntil delim (limited limit src.content)).1 ∧
      (readUntil delim limit src).2.content =
        src.content.drop (readUntil delim limit src).1.length := by
  induction limit, src using readUntil.induct delim with
  | case1 limit src filled h ih =>
    obtain ⟨hcontent, -⟩ := fillBuf_none h
    have hstep : readUntil delim limit src = readUntil delim limit filled := by
      rw [readUntil]
      split <;> simp_all
    rw [hstep, ← hcontent]
    exact ih
  | case2 limit src available filled h i hi =>
    obtain ⟨hcontent, -, hbuffered, ⟨rest, hrest⟩, -⟩ := fillBuf_some h
    have hstep : readUntil delim limit src =
        (available.take (i + 1), filled.consume (i + 1)) := by
      rw [readUntil]
      split <;> simp_all
    have hlt := (List.idxOf?_eq_some_iff.mp hi).1
    have hlen := hbuffered.length_le
    rw [hstep, ← hrest, readUntil_append_of_idxOf? hi, content_consume (by omega), hcontent,
      List.length_take, min_eq_left (by omega)]
    exact ⟨rfl, rfl⟩
  | case3 limit src filled h hi =>
    obtain ⟨hcontent, -, -, -, hnil⟩ := fillBuf_some h
    have hstep : readUntil delim limit src = ([], filled) := by
      rw [readUntil]
      split <;> simp_all
    rw [hstep, hnil rfl, hcontent]
    exact ⟨rfl, rfl⟩
  | case4 limit src available filled h hi hnil used buf rest hrest ih =>
    obtain ⟨hcontent, -, hbuffered, hpre, -⟩ := fillBuf_some h
    have hstep : readUntil delim limit src = (available ++ buf, rest) := by
      rw [readUntil]
      split
      case h_1 heq =>
        rw [h] at heq
        cases heq
      case h_2 heq =>
        rw [h] at heq
        cases heq
        simp only [hi, dif_neg hnil]
        exact congrArg (fun r => (available ++ r.1, r.2)) hrest
    have hconsumed : (filled.consume used).content = src.content.drop available.length := by
      rw [content_consume hbuffered.length_le, hcontent]
    have hmem : delim ∉ available := List.idxOf?_eq_none_iff.mp hi
    rw [hrest, hconsumed] at ih
    dsimp only at ih
    rw [hstep, limited_drop hpre, readUntil_append_of_notMem hmem]
    refine ⟨?_, ?_⟩
    · show available ++ buf = available ++ _
      rw [ih.1]
    · show rest.content = src.content.drop (available ++ buf).length
      rw [ih.2, List.drop_drop, List.length_append]

end ReadUntil

/-! ## One call -/

section NextLine

variable {body rest : List UInt8}

theorem readUntil_rest (delim : UInt8) (input : List UInt8) :
    (Submit.readUntil delim input).2 = input.drop (Submit.readUntil delim input).1.length := by
  induction input with
  | nil => rfl
  | cons b bs ih =>
    rw [Submit.readUntil]
    split
    · rfl
    · exact ih

theorem readUntil_of_notMem (h : 10 ∉ body) : Submit.readUntil 10 body = (body, []) := by
  have happend := readUntil_append_of_notMem h []
  rw [List.append_nil] at happend
  rw [happend]
  show (body ++ [], []) = (body, [])
  rw [List.append_nil]

theorem readUntil_newline (h : 10 ∉ body) :
    Submit.readUntil 10 (body ++ 10 :: rest) = (body ++ [10], rest) := by
  rw [readUntil_append_of_notMem h]
  rfl

/-- The next item does not depend on the pieces, nor does what is left. -/
theorem nextLine_content (src : Source) :
    (nextLine src).1 = (Submit.nextLine src.content).1 ∧
      (nextLine src).2.content = (Submit.nextLine src.content).2 := by
  have hread := readUntil_content 10 (some (MAX_LINE_BYTES + 1)) src
  unfold nextLine Submit.nextLine
  generalize readUntil 10 (some (MAX_LINE_BYTES + 1)) src = read at hread ⊢
  obtain ⟨buf, rest⟩ := read
  obtain ⟨hbuf, hrest⟩ := hread
  have hbuf : (Submit.readUntil 10 (src.content.take (MAX_LINE_BYTES + 1))).1 = buf := hbuf.symm
  rw [hbuf]
  dsimp only at hrest ⊢
  simp only [List.length_eq_zero_iff]
  split
  · exact ⟨rfl, hrest⟩
  · split
    · obtain ⟨hdiscarded, hleft⟩ := readUntil_content 10 none rest
      refine ⟨rfl, ?_⟩
      show (readUntil 10 none rest).2.content = _
      rw [hleft, hdiscarded, limited, hrest, ← readUntil_rest]
    · exact ⟨rfl, hrest⟩

/-- A line is given whole up to the limit. -/
theorem nextLine_of_length_le {ending : List UInt8} (hbody : 10 ∉ body) (hne : body ++ ending ≠ [])
    (hending : ending = [10] ∨ ending = [] ∧ rest = []) (hlen : body.length ≤ MAX_LINE_BYTES) :
    Submit.nextLine (body ++ ending ++ rest) = (.line (body ++ ending), rest) := by
  have hread : (Submit.readUntil 10 ((body ++ ending ++ rest).take (MAX_LINE_BYTES + 1))).1 =
      body ++ ending := by
    rcases hending with rfl | ⟨rfl, rfl⟩
    · rw [List.append_assoc, List.take_append, List.take_of_length_le (by omega),
        List.singleton_append, List.take_cons (by omega), readUntil_newline hbody]
    · rw [List.append_nil, List.append_nil, List.take_of_length_le (by omega),
        readUntil_of_notMem hbody]
  have hwhole : ¬((body ++ ending).getLast? ≠ some 10 ∧
      MAX_LINE_BYTES < (body ++ ending).length) := by
    rcases hending with rfl | ⟨rfl, -⟩
    · rw [List.getLast?_append]
      exact fun h => h.1 rfl
    · rw [List.append_nil]
      omega
  unfold Submit.nextLine
  rw [hread]
  dsimp only
  rw [if_neg hne, if_neg hwhole, List.drop_left]

/-- A longer one is dropped up to the end of the line. -/
theorem nextLine_of_lt_length {ending : List UInt8} (hbody : 10 ∉ body)
    (hending : ending = [10] ∨ ending = [] ∧ rest = []) (hlen : MAX_LINE_BYTES < body.length) :
    Submit.nextLine (body ++ ending ++ rest) = (.tooLong, rest) := by
  have htake : (body ++ ending ++ rest).take (MAX_LINE_BYTES + 1) =
      body.take (MAX_LINE_BYTES + 1) := by
    rw [List.append_assoc, List.take_append_of_le_length (by omega)]
  have hstart : 10 ∉ body.take (MAX_LINE_BYTES + 1) := fun h => hbody (List.mem_of_mem_take h)
  have hlength : (body.take (MAX_LINE_BYTES + 1)).length = MAX_LINE_BYTES + 1 := by
    rw [List.length_take]
    omega
  have hdrop : (body ++ ending ++ rest).drop (MAX_LINE_BYTES + 1) =
      body.drop (MAX_LINE_BYTES + 1) ++ (ending ++ rest) := by
    rw [List.append_assoc, List.drop_append_of_le_length (by omega)]
  have hremainder : 10 ∉ body.drop (MAX_LINE_BYTES + 1) := fun h => hbody (List.mem_of_mem_drop h)
  have hdiscarded : (Submit.readUntil 10 (body.drop (MAX_LINE_BYTES + 1) ++ (ending ++ rest))).2 =
      rest := by
    rcases hending with rfl | ⟨rfl, rfl⟩
    · rw [List.singleton_append, readUntil_newline hremainder]
    · rw [List.nil_append, List.append_nil, readUntil_of_notMem hremainder]
  have hlast : (body.take (MAX_LINE_BYTES + 1)).getLast? ≠ some 10 :=
    fun h => hstart (List.mem_of_getLast? h)
  unfold Submit.nextLine
  rw [htake, readUntil_of_notMem hstart]
  dsimp only
  rw [if_neg (List.ne_nil_of_length_eq_add_one hlength), hlength,
    if_pos ⟨hlast, Nat.lt_succ_self _⟩, hdrop, hdiscarded]

end NextLine

/-! ## The lines of a stream -/

/-- The lines of a stream, each with what ends it: a newline, or nothing at the end of the
stream. -/
inductive Lines : List UInt8 → List (List UInt8 × List UInt8) → Prop
  | nil : Lines [] []
  | last (body : List UInt8) : 10 ∉ body → body ≠ [] → Lines body [(body, [])]
  | cons (body rest : List UInt8) (lines : List (List UInt8 × List UInt8)) :
      10 ∉ body → Lines rest lines → Lines (body ++ [10] ++ rest) ((body, [10]) :: lines)

/-- Every stream has its lines. -/
theorem exists_lines (stream : List UInt8) : ∃ lines, Lines stream lines := by
  induction stream with
  | nil => exact ⟨[], .nil⟩
  | cons b bs ih =>
    obtain ⟨lines, h⟩ := ih
    by_cases hb : b = 10
    · rw [hb]
      exact ⟨([], [10]) :: lines, .cons [] bs lines List.not_mem_nil h⟩
    · have hmem {body : List UInt8} (hbody : 10 ∉ body) : 10 ∉ b :: body := by
        rw [List.mem_cons, not_or]
        exact ⟨fun h => hb h.symm, hbody⟩
      cases h with
      | nil => exact ⟨[([b], [])], .last [b] (hmem List.not_mem_nil) (List.cons_ne_nil _ _)⟩
      | last body hbody hne => exact ⟨_, .last (b :: bs) (hmem hbody) (List.cons_ne_nil _ _)⟩
      | cons body rest lines hbody h => exact ⟨_, .cons (b :: body) rest lines (hmem hbody) h⟩

/-- The bytes of some lines. -/
def bytesOf (lines : List (List UInt8 × List UInt8)) : List UInt8 :=
  (lines.map fun line => line.1 ++ line.2).flatten

theorem Lines.eq_bytesOf {stream : List UInt8} {lines : List (List UInt8 × List UInt8)}
    (h : Lines stream lines) : stream = bytesOf lines := by
  induction h with
  | nil => rfl
  | last body =>
    show body = body ++ [] ++ []
    rw [List.append_nil, List.append_nil]
  | cons body rest lines _ _ ih => exact congrArg (body ++ [10] ++ ·) ih

/-- What is given for a line: the line, if it is not too long. -/
def itemOf (line : List UInt8 × List UInt8) : Next :=
  if line.1.length ≤ MAX_LINE_BYTES then .line (line.1 ++ line.2) else .tooLong

/-- The item of a stream of lines is that of its first line, and the others are left. -/
theorem nextLine_of_lines {stream : List UInt8} {lines : List (List UInt8 × List UInt8)}
    (h : Lines stream lines) :
    (Submit.nextLine stream).1 = (lines.head?.map itemOf).getD .eof ∧
      Lines (Submit.nextLine stream).2 lines.tail := by
  cases h with
  | nil => exact ⟨rfl, .nil⟩
  | last body hbody hne =>
    have hstream : stream ++ [] ++ [] = stream := by rw [List.append_nil, List.append_nil]
    rcases le_or_gt stream.length MAX_LINE_BYTES with hlen | hlen
    · have hnext := nextLine_of_length_le hbody (by rwa [List.append_nil]) (.inr ⟨rfl, rfl⟩) hlen
      rw [hstream] at hnext
      rw [hnext]
      exact ⟨(if_pos hlen).symm, .nil⟩
    · have hnext := nextLine_of_lt_length hbody (.inr ⟨rfl, rfl⟩) hlen
      rw [hstream] at hnext
      rw [hnext]
      exact ⟨(if_neg (not_le.mpr hlen)).symm, .nil⟩
  | cons body rest lines hbody h =>
    rcases le_or_gt body.length MAX_LINE_BYTES with hlen | hlen
    · rw [nextLine_of_length_le hbody (by simp) (.inl rfl) hlen]
      exact ⟨(if_pos hlen).symm, h⟩
    · rw [nextLine_of_lt_length hbody (.inl rfl) hlen]
      exact ⟨(if_neg (not_le.mpr hlen)).symm, h⟩

/-! ## A job -/

/-- The reader after so many calls. -/
def after : ℕ → Source → Source
  | 0, src => src
  | k + 1, src => (nextLine (after k src)).2

/-- What `process` does first: it looks at the start of the upload and passes over `skip` items. -/
def skip : ℕ → Source → Source
  | 0, src => src
  | n + 1, src =>
    match nextLine src with
    | (.eof, rest) => rest
    | (_, rest) => skip n rest

def resume (cursor : ℕ) (src : Source) : Source := skip cursor (fillBuf none src).2

/-- Turns of the second loop of `process`, which counts the items in the cursor. -/
def reads : ℕ → Source → ℕ → Source × ℕ
  | 0, src, cursor => (src, cursor)
  | n + 1, src, cursor =>
    match nextLine src with
    | (.eof, rest) => (rest, cursor)
    | (_, rest) => reads n rest (cursor + 1)

/-- A job taken up from its cursor and stopped after so many turns. -/
def session (cursor turns : ℕ) (src : Source) : Source × ℕ := reads turns (resume cursor src) cursor

section Job

variable {src : Source} {lines : List (List UInt8 × List UInt8)}

theorem fillBuf_content (limit : Option ℕ) (src : Source) :
    (fillBuf limit src).2.content = src.content := by
  rcases hfill : fillBuf limit src with ⟨available | available, filled⟩
  · exact (fillBuf_none hfill).1
  · exact (fillBuf_some hfill).1

theorem nextLine_lines (h : Lines src.content lines) :
    (nextLine src).1 = (lines.head?.map itemOf).getD .eof ∧
      Lines (nextLine src).2.content lines.tail := by
  rw [(nextLine_content src).1, (nextLine_content src).2]
  exact nextLine_of_lines h

theorem after_lines (h : Lines src.content lines) (k : ℕ) :
    Lines (after k src).content (lines.drop k) := by
  induction k with
  | zero => exact h
  | succ k ih =>
    rw [← List.tail_drop]
    exact (nextLine_lines ih).2

/-- A line is not the end. -/
theorem itemOf_ne_eof (line : List UInt8 × List UInt8) : itemOf line ≠ .eof := by
  unfold itemOf
  split <;> nofun

theorem skip_lines (n : ℕ) (h : Lines src.content lines) :
    Lines (skip n src).content (lines.drop n) := by
  induction n generalizing src lines with
  | zero => exact h
  | succ n ih =>
    obtain ⟨hitem, hrest⟩ := nextLine_lines h
    rw [skip]
    split
    case h_1 rest hnext =>
      rw [hnext] at hitem hrest
      cases lines with
      | nil => exact hrest
      | cons line lines => exact absurd hitem.symm (itemOf_ne_eof line)
    case h_2 rest hne hnext =>
      rw [hnext] at hrest
      rw [← List.drop_tail]
      exact ih hrest

/-- What is left are the lines that the cursor does not count. -/
theorem reads_lines (n cursor : ℕ) (h : Lines src.content lines) :
    (reads n src cursor).2 = cursor + min n lines.length ∧
      Lines (reads n src cursor).1.content (lines.drop n) := by
  induction n generalizing src lines cursor with
  | zero => exact ⟨by rw [Nat.zero_min]; rfl, h⟩
  | succ n ih =>
    obtain ⟨hitem, hrest⟩ := nextLine_lines h
    rw [reads]
    split
    case h_1 rest hnext =>
      rw [hnext] at hitem hrest
      cases lines with
      | nil => exact ⟨rfl, hrest⟩
      | cons line lines => exact absurd hitem.symm (itemOf_ne_eof line)
    case h_2 rest hne hnext =>
      rw [hnext] at hitem hrest
      cases lines with
      | nil => exact absurd hitem hne
      | cons line lines =>
        obtain ⟨hcursor, hleft⟩ := ih (cursor + 1) hrest
        refine ⟨?_, hleft⟩
        rw [hcursor, List.tail_cons, List.length_cons]
        omega

theorem resume_lines (cursor : ℕ) (h : Lines src.content lines) :
    Lines (resume cursor src).content (lines.drop cursor) := by
  refine skip_lines cursor ?_
  rw [fillBuf_content]
  exact h

/-- The reader of a job stands where its cursor says. -/
theorem session_lines (cursor turns : ℕ) (h : Lines src.content lines) :
    Lines (session cursor turns src).1.content (lines.drop (session cursor turns src).2) := by
  obtain ⟨hcursor, hleft⟩ := reads_lines turns cursor (resume_lines cursor h)
  rw [session, hcursor, List.length_drop]
  rw [List.drop_drop] at hleft
  rcases le_or_gt turns (lines.length - cursor) with hle | hgt
  · rwa [min_eq_left hle]
  · rw [min_eq_right hgt.le]
    rw [List.drop_of_length_le (by omega)] at hleft ⊢
    exact hleft

end Job

/-- The items of a stream as `process` is given them. -/
theorem linesOf_of_lines {stream : List UInt8} {lines : List (List UInt8 × List UInt8)}
    (h : Lines stream lines) :
    linesOf stream = lines.map fun line =>
      if line.1.length ≤ MAX_LINE_BYTES then .line (line.1 ++ line.2) else .tooLong := by
  induction lines generalizing stream with
  | nil =>
    obtain ⟨hitem, -⟩ := nextLine_of_lines h
    exact linesOf_eof (Prod.ext hitem rfl)
  | cons line lines ih =>
    obtain ⟨hitem, hrest⟩ := nextLine_of_lines h
    have hitem : (Submit.nextLine stream).1 = itemOf line := hitem
    rw [List.map_cons, ← ih hrest]
    unfold itemOf at hitem
    split at hitem
    · rw [if_pos ‹_›, linesOf_line (Prod.ext hitem rfl)]
    · rw [if_neg ‹_›, linesOf_tooLong (Prod.ext hitem rfl)]

/-- **Framing is exact.** However a stream comes in pieces, there is an item for each of its lines
and then no more, and a job that is taken up again goes on after the items that were counted. -/
theorem framing_exact (src : Source) :
    ∃ lines, Lines src.content lines ∧
      (∀ k, (nextLine (after k src)).1 = (lines[k]?.map itemOf).getD .eof ∧
        (after k src).content = bytesOf (lines.drop k)) ∧
      ∀ (cursor turns : ℕ) (again : Source), again.content = src.content →
        (session cursor turns src).1.content =
            bytesOf (lines.drop (session cursor turns src).2) ∧
          (resume (session cursor turns src).2 again).content =
            (session cursor turns src).1.content := by
  obtain ⟨lines, h⟩ := exists_lines src.content
  refine ⟨lines, h, fun k => ⟨?_, (after_lines h k).eq_bytesOf⟩,
    fun cursor turns again hagain => ?_⟩
  · rw [(nextLine_lines (after_lines h k)).1, List.head?_drop]
  · have hstopped := (session_lines cursor turns h).eq_bytesOf
    rw [← hagain] at h
    rw [(resume_lines _ h).eq_bytesOf, hstopped]
    exact ⟨rfl, rfl⟩

end NostrSearch.Server.LineFraming
