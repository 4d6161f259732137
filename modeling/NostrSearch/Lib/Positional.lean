import NostrSearch.Lib.LittleEndian

/-!
# Positional formats

A format that writes its fields one behind the other, with no names and no types: numbers of a fixed
width, a byte before what is optional, a length before what has many. `Reads d bytes a` says that
the decoder `d` takes these bytes for `a`, whatever is behind them, and `Short d` that it wants more
than nothing. A record that ends where a field is missing is not read (`deserialize_short`), and
what is behind a record is not looked at (`deserialize_reads`).
-/

namespace NostrSearch.Lib.Positional

variable {α β : Type}

/-- Takes a value off the front of the input. -/
abbrev Decoder (α : Type) := StateT (List UInt8) Option α

/-- Decode a record. What is left over is ignored. -/
def deserialize (d : Decoder α) (bytes : List UInt8) : Option α := (d.run bytes).map Prod.fst

/-! ## Decoders and what they read -/

/-- The next `n` bytes. -/
def take (n : ℕ) : Decoder (List UInt8) := fun bytes =>
  if n ≤ bytes.length then some (bytes.take n, bytes.drop n) else none

/-- A number of `w` bytes. -/
def uint (w : ℕ) : Decoder ℕ := do
  let bytes ← take w
  return ofLE bytes

/-- One byte, `0` or `1`. -/
def bool : Decoder Bool := do
  match ← uint 1 with
  | 0 => return false
  | 1 => return true
  | _ => failure

/-- A tag, and the value if there is one. -/
def option (d : Decoder α) : Decoder (Option α) := do
  match ← uint 1 with
  | 0 => return none
  | 1 => return some (← d)
  | _ => failure

def times (d : Decoder α) : ℕ → Decoder (List α)
  | 0 => return []
  | n + 1 => do
    let a ← d
    let as ← times d n
    return a :: as

/-- A length, and as many values. -/
def many (d : Decoder α) : Decoder (List α) := do
  let n ← uint 8
  times d n

/-- A length, and as many bytes of UTF-8. -/
def str : Decoder String := do
  let n ← uint 8
  let bytes ← take n
  match String.fromUTF8? bytes.toByteArray with
  | some s => return s
  | none => failure

/-- A block of `n` bytes. -/
def block (n : ℕ) : Decoder (Vector UInt8 n) := do
  let bytes ← take n
  return Vector.ofFn fun i => byteAt bytes i

/-- The decoder takes the bytes for the value, and nothing of what is behind them. -/
def Reads (d : Decoder α) (bytes : List UInt8) (a : α) : Prop :=
  ∀ rest, d.run (bytes ++ rest) = some (a, rest)

/-- The decoder fails at the end of the input. -/
def Short (d : Decoder α) : Prop := d.run [] = none

/-- Whatever value the decoder takes off an input, it is such a value. -/
def Yields (d : Decoder α) (p : α → Prop) : Prop := ∀ bytes a rest, d.run bytes = some (a, rest) → p a

section rules

variable {d : Decoder α} {f : α → Decoder β} {bytes more : List UInt8} {a : α} {b : β}

theorem Reads.pure (a : α) : Reads (Pure.pure a) [] a := fun _ => rfl

theorem Reads.bind (h : Reads d bytes a) (hf : Reads (f a) more b) :
    Reads (d >>= f) (bytes ++ more) b := by
  intro rest
  rw [StateT.run_bind, List.append_assoc, h]
  exact hf rest

/-- The last field of a record. -/
theorem Reads.last (h : Reads d bytes a) (hf : Reads (f a) [] b) : Reads (d >>= f) bytes b := by
  have hbind := h.bind hf
  rw [List.append_nil] at hbind
  exact hbind

theorem Short.bind (h : Short d) : Short (d >>= f) := by
  rw [Short] at h
  rw [Short, StateT.run_bind, h]
  rfl

theorem deserialize_reads (h : Reads d bytes a) : deserialize d bytes = some a := by
  have hrun := h []
  rw [List.append_nil] at hrun
  rw [deserialize, hrun]
  rfl

/-- A record that ends before a field. -/
theorem deserialize_short (h : Reads d bytes a) (hf : Short (f a)) :
    deserialize (d >>= f) bytes = none := by
  have hrun := h []
  rw [List.append_nil] at hrun
  rw [Short] at hf
  rw [deserialize, StateT.run_bind, hrun, Option.bind_eq_bind, Option.bind_some, hf,
    Option.map_none]

theorem Yields.of_forall {p : α → Prop} (h : ∀ a, p a) : Yields d p := fun _ a _ _ => h a

theorem Yields.pure {p : α → Prop} (h : p a) : Yields (Pure.pure a) p := by
  intro bytes a' rest hrun
  obtain ⟨rfl, -⟩ := Prod.mk.inj (Option.some.inj hrun)
  exact h

theorem Yields.bind {p : α → Prop} {q : β → Prop} (h : Yields d p)
    (hf : ∀ a, p a → Yields (f a) q) : Yields (d >>= f) q := by
  intro bytes b rest hrun
  rw [StateT.run_bind, Option.bind_eq_bind, Option.bind_eq_some_iff] at hrun
  obtain ⟨⟨a, more⟩, ha, hb⟩ := hrun
  exact hf a (h _ _ _ ha) _ _ _ hb

theorem Yields.deserialize {p : α → Prop} (h : Yields d p)
    (hread : deserialize d bytes = some a) : p a := by
  rw [Positional.deserialize, Option.map_eq_some_iff] at hread
  obtain ⟨⟨a', rest⟩, hrun, rfl⟩ := hread
  exact h _ _ _ hrun

/-- What is not read at all is not read with further fields. -/
theorem deserialize_bind_none (h : deserialize d bytes = none) :
    deserialize (d >>= f) bytes = none := by
  rw [deserialize, Option.map_eq_none_iff] at h
  rw [deserialize, StateT.run_bind, h]
  rfl

end rules

/-! ## Encoders -/

def putBool (b : Bool) : List UInt8 := toLE (if b then 1 else 0) 1

def putOption (put : α → List UInt8) : Option α → List UInt8
  | none => toLE 0 1
  | some a => toLE 1 1 ++ put a

def putMany (put : α → List UInt8) (as : List α) : List UInt8 :=
  toLE as.length 8 ++ as.flatMap put

def putStr (s : String) : List UInt8 := toLE s.utf8ByteSize 8 ++ s.toUTF8.data.toList

theorem reads_take (bytes : List UInt8) : Reads (take bytes.length) bytes bytes := by
  intro rest
  show (if bytes.length ≤ (bytes ++ rest).length then _ else none) = _
  rw [if_pos (by rw [List.length_append]; omega), List.take_left, List.drop_left]

theorem short_take {n : ℕ} (hn : 0 < n) : Short (take n) := by
  show (if n ≤ ([] : List UInt8).length then _ else none) = _
  rw [if_neg (by rw [List.length_nil]; omega)]

theorem yields_uint (w : ℕ) : Yields (uint w) fun n => n < 256 ^ w := by
  refine Yields.bind (p := fun bytes => bytes.length = w) ?_ fun bytes hlen => Yields.pure ?_
  · intro bytes out rest hrun
    rw [StateT.run, take, Option.ite_none_right_eq_some] at hrun
    obtain ⟨hle, hout⟩ := hrun
    rw [← (Prod.mk.inj (Option.some.inj hout)).1, List.length_take, min_eq_left hle]
  · rw [← hlen]
    exact ofLE_lt bytes

theorem reads_uint {n w : ℕ} (hn : n < 256 ^ w) : Reads (uint w) (toLE n w) n := by
  have htake := reads_take (toLE n w)
  rw [length_toLE] at htake
  apply htake.last
  rw [ofLE_toLE, Nat.mod_eq_of_lt hn]
  exact Reads.pure n

theorem short_uint {w : ℕ} (hw : 0 < w) : Short (uint w) := (short_take hw).bind

theorem reads_bool (b : Bool) : Reads bool (putBool b) b := by
  cases b with
  | false => exact (reads_uint (by norm_num)).last (Reads.pure false)
  | true => exact (reads_uint (by norm_num)).last (Reads.pure true)

variable {d : Decoder α} {put : α → List UInt8}

theorem yields_option {p : α → Prop} (h : Yields d p) : Yields (option d) fun o => ∀ a ∈ o, p a := by
  refine (yields_uint 1).bind fun n _ => ?_
  split
  · refine Yields.pure ?_
    rintro a ⟨⟩
  · refine h.bind fun a ha => Yields.pure ?_
    rintro _ ⟨⟩
    exact ha
  · intro bytes a rest hrun
    cases hrun

theorem reads_option {o : Option α} (h : ∀ a ∈ o, Reads d (put a) a) :
    Reads (option d) (putOption put o) o := by
  cases o with
  | none => exact (reads_uint (by norm_num)).last (Reads.pure none)
  | some a =>
    apply (reads_uint (by norm_num)).bind
    exact (h a rfl).last (Reads.pure (some a))

theorem reads_times {as : List α} (h : ∀ a ∈ as, Reads d (put a) a) :
    Reads (times d as.length) (as.flatMap put) as := by
  induction as with
  | nil => exact Reads.pure []
  | cons a as ih =>
    rw [List.flatMap_cons]
    apply (h a List.mem_cons_self).bind
    exact (ih fun b hb => h b (List.mem_cons_of_mem a hb)).last (Reads.pure (a :: as))

theorem reads_many {as : List α} (hlength : as.length < 2 ^ 64)
    (h : ∀ a ∈ as, Reads d (put a) a) : Reads (many d) (putMany put as) as :=
  (reads_uint (by omega)).bind (reads_times h)

theorem short_many : Short (many d) := (short_uint (by omega)).bind

theorem reads_str {s : String} (hsize : s.utf8ByteSize < 2 ^ 64) : Reads str (putStr s) s := by
  apply (reads_uint (by omega)).bind
  have hlength : s.toUTF8.data.toList.length = s.utf8ByteSize := rfl
  have htake := reads_take s.toUTF8.data.toList
  rw [hlength] at htake
  apply htake.last
  -- the bytes of a string are valid, and spell it
  have hbytes : s.toUTF8.data.toList.toByteArray = s.toByteArray := by
    apply ByteArray.ext
    rw [List.data_toByteArray, Array.toArray_toList]
    rfl
  have hread : String.fromUTF8? s.toByteArray = some s := by
    rw [String.fromUTF8?, dif_pos s.isValidUTF8]
    rfl
  rw [hbytes, hread]
  exact Reads.pure s

theorem reads_block {n : ℕ} (v : Vector UInt8 n) : Reads (block n) v.toList v := by
  have htake := reads_take v.toList
  rw [Vector.length_toList] at htake
  apply htake.last
  have hv : (Vector.ofFn fun i : Fin n => byteAt v.toList i) = v := by
    ext i hi
    simp [byteAt]
  rw [hv]
  exact Reads.pure v

end NostrSearch.Lib.Positional
