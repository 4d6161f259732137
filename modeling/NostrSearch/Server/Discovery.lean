import NostrSearch.Server.ShardRegistry

/-!
# What a registry remembers

Months appear under the root while the registry is open. The month it remembers as the oldest is the
one it found when it last looked, and a search looks again only if it has nothing to search from: no
reader is open, and the month remembered has no index. What holds of the month remembered all along
is that it is on disk once a reader has been opened.
-/

namespace NostrSearch.Server

open NostrSearch.Core

/-! ## The root and what is on it -/

namespace Root

variable {root : Root} {id : ShardId}

/-- `create_dir_all` of a month, without an index yet. -/
def mkdir (root : Root) (id : ShardId) : Root :=
  if id ∈ root.months then root else root ++ [(id, none)]

/-- The writer commits: from now on the month's index holds these documents. -/
def commit (root : Root) (id : ShardId) (docs : List Document) : Root :=
  root.map fun e => if e.1 = id then (id, some docs) else e

/-- The oldest month on disk, or the default. -/
def oldest (root : Root) : ShardId := root.months.min?.getD ShardRegistry.genesis

theorem mem_months_of_openReader (h : (root.openReader id).isSome) : id ∈ root.months := by
  unfold openReader at h
  cases hl : root.lookup id with
  | none =>
    rw [hl] at h
    cases h
  | some index =>
    obtain ⟨l₁, l₂, hroot, -⟩ := List.lookup_eq_some_iff.mp hl
    rw [months, hroot]
    simp

theorem docs_of_notMem (h : id ∉ root.months) : root.docs id = [] := by
  have hnone : root.openReader id = none := by
    by_contra hsome
    exact h (mem_months_of_openReader (Option.isSome_iff_ne_none.mpr hsome))
  rw [docs, hnone, Option.getD_none]

theorem mem_months_mkdir {id' : ShardId} :
    id' ∈ (root.mkdir id).months ↔ id' ∈ root.months ∨ id' = id := by
  unfold mkdir
  by_cases h : id ∈ root.months
  · rw [if_pos h]
    constructor
    · exact Or.inl
    · rintro (h' | rfl)
      · exact h'
      · exact h
  · rw [if_neg h]
    simp [months]

theorem months_commit (docs : List Document) : (root.commit id docs).months = root.months := by
  unfold commit months
  rw [List.map_map]
  apply List.map_congr_left
  intro e _
  show (if e.1 = id then (id, some docs) else e).1 = e.1
  by_cases h : e.1 = id
  · rw [if_pos h, h]
  · rw [if_neg h]

theorem oldest_valid (h : ∀ id ∈ root.months, id.Valid) : root.oldest.Valid := by
  unfold oldest
  cases hmin : root.months.min? with
  | none => decide
  | some m => exact h m (List.min?_eq_some_iff.mp hmin).1

theorem oldest_le (h : id ∈ root.months) : root.oldest ≤ id := by
  unfold oldest
  cases hmin : root.months.min? with
  | none =>
    rw [List.min?_eq_none_iff] at hmin
    rw [hmin] at h
    cases h
  | some m => exact (List.min?_eq_some_iff.mp hmin).2 id h

end Root

/-! ## What the registry remembers -/

namespace ShardRegistry

variable {root : Root} {reg : ShardRegistry}

/-- A search looks at the root again: no reader is open, and the month it remembers does not
open. -/
def Rediscovers (root : Root) (reg : ShardRegistry) : Prop :=
  reg.readers.shards = [] ∧ root.openReader reg.earliest = none

instance (root : Root) (reg : ShardRegistry) : Decidable (reg.Rediscovers root) :=
  decidable_of_iff (reg.readers.shards = [] ∧ (root.openReader reg.earliest).isNone) (by
    rw [Option.isNone_iff_eq_none, Rediscovers])

/-- The month remembered is one of the twelve of its year, and it is on disk if a reader is open. -/
structure Known (root : Root) (reg : ShardRegistry) : Prop where
  valid : reg.earliest.Valid
  mem_of_open : reg.readers.shards ≠ [] → reg.earliest ∈ root.months

theorem earliest_discover :
    (reg.discover root).earliest = root.months.min?.getD reg.earliest := by
  unfold discover
  cases root.months.min? with
  | none => rfl
  | some m => rfl

theorem readers_discover : (reg.discover root).readers = reg.readers := by
  unfold discover
  cases root.months.min? with
  | none => rfl
  | some m => rfl

theorem known_discover (hroot : ∀ id ∈ root.months, id.Valid) (h : reg.Known root) :
    (reg.discover root).Known root := by
  unfold discover
  cases hmin : root.months.min? with
  | none => exact h
  | some m =>
    have hmem : m ∈ root.months := (List.min?_eq_some_iff.mp hmin).1
    exact ⟨hroot m hmem, fun _ => hmem⟩

/-- Opening one reader, from none. -/
theorem shard_of_openReader_none {o : OpenShards} {maxOpen : ℕ} {id : ShardId} (ho : o.shards = [])
    (h : root.openReader id = none) : o.shard root maxOpen id = (o, none) := by
  rw [OpenShards.shard, OpenShards.cached, ho, if_neg List.not_mem_nil, h]

theorem anchor_of_known (h : ¬ reg.Rediscovers root) :
    (reg.anchor root).2 = true ∧ (reg.anchor root).1.earliest = reg.earliest := by
  unfold anchor
  by_cases hopen : reg.readers.shards = []
  · rw [if_neg (not_not.mpr hopen)]
    have hsome : (reg.readers.shard root reg.maxOpen reg.earliest).2.isSome = true := by
      rw [OpenShards.shard_snd, OpenShards.cachedOrTransient, OpenShards.cached, hopen,
        if_neg List.not_mem_nil]
      exact Option.isSome_iff_ne_none.mpr fun hnone => h ⟨hopen, hnone⟩
    rcases hshard : reg.readers.shard root reg.maxOpen reg.earliest with ⟨readers, opened⟩
    rw [hshard] at hsome
    cases opened with
    | none => cases hsome
    | some docs => exact ⟨rfl, rfl⟩
  · rw [if_pos hopen]
    exact ⟨rfl, rfl⟩

theorem anchor_of_rediscovers (h : reg.Rediscovers root) :
    (reg.anchor root).2 = (root.openReader (reg.discover root).earliest).isSome ∧
      (reg.anchor root).1.earliest = (reg.discover root).earliest := by
  unfold anchor
  rw [if_neg (not_not.mpr h.1), shard_of_openReader_none h.1 h.2]
  dsimp only
  refine ⟨?_, rfl⟩
  rw [OpenShards.shard_snd, OpenShards.cachedOrTransient, OpenShards.cached, readers_discover, h.1,
    if_neg List.not_mem_nil]
  rfl

/-- The month a search starts from is one of the twelve, and on disk if there is anything to search
from. -/
theorem anchor_spec (hroot : ∀ id ∈ root.months, id.Valid) (h : reg.Known root) :
    (reg.anchor root).1.earliest.Valid ∧
      ((reg.anchor root).2 = true → (reg.anchor root).1.earliest ∈ root.months) := by
  by_cases hre : reg.Rediscovers root
  · obtain ⟨hfound, hearliest⟩ := anchor_of_rediscovers hre
    rw [hearliest, hfound]
    exact ⟨(known_discover hroot h).valid, Root.mem_months_of_openReader⟩
  · rw [(anchor_of_known hre).2]
    refine ⟨h.valid, fun _ => ?_⟩
    by_cases hopen : reg.readers.shards = []
    · exact Root.mem_months_of_openReader
        (Option.isSome_iff_ne_none.mpr fun hnone => hre ⟨hopen, hnone⟩)
    · exact h.mem_of_open hopen

/-- With nothing to search from, nothing is open. -/
theorem readers_anchor (h : (reg.anchor root).2 = false) :
    (reg.anchor root).1.readers.shards = [] := by
  have hre : reg.Rediscovers root := by
    by_contra hre
    rw [(anchor_of_known hre).1] at h
    cases h
  have hnone : root.openReader (reg.discover root).earliest = none := by
    rw [(anchor_of_rediscovers hre).1] at h
    exact Option.isSome_eq_false_iff.mp h |> Option.isNone_iff_eq_none.mp
  have hnil : (reg.discover root).readers.shards = [] := readers_discover.symm ▸ hre.1
  unfold anchor
  rw [if_neg (not_not.mpr hre.1), shard_of_openReader_none hre.1 hre.2]
  dsimp only
  rw [shard_of_openReader_none hnil hnone]
  exact hnil

theorem known_anchor (hroot : ∀ id ∈ root.months, id.Valid) (h : reg.Known root) :
    (reg.anchor root).1.Known root := by
  obtain ⟨hvalid, hmem⟩ := anchor_spec hroot h
  refine ⟨hvalid, fun hopen => ?_⟩
  cases hfound : (reg.anchor root).2 with
  | true => exact hmem hfound
  | false => exact absurd (readers_anchor hfound) hopen

/-! ## A registry just opened -/

theorem known_open (hroot : ∀ id ∈ root.months, id.Valid) (maxOpen : ℕ) :
    (openWithCapacity root maxOpen).Known root :=
  known_discover hroot ⟨show genesis.Valid by decide, fun h => absurd rfl h⟩

theorem anchor_open (root : Root) (maxOpen : ℕ) :
    ((openWithCapacity root maxOpen).anchor root).2 = (root.openReader root.oldest).isSome ∧
      ((openWithCapacity root maxOpen).anchor root).1.earliest = root.oldest := by
  have hearliest : (openWithCapacity root maxOpen).earliest = root.oldest := earliest_discover
  by_cases hre : (openWithCapacity root maxOpen).Rediscovers root
  · obtain ⟨hfound, hnow⟩ := anchor_of_rediscovers hre
    have hsame : ((openWithCapacity root maxOpen).discover root).earliest = root.oldest := by
      rw [earliest_discover, hearliest, Root.oldest]
      cases root.months.min? with
      | none => rfl
      | some m => rfl
    rw [hfound, hnow, hsame]
    exact ⟨rfl, rfl⟩
  · obtain ⟨hfound, hnow⟩ := anchor_of_known hre
    rw [hfound, hnow, hearliest]
    refine ⟨?_, rfl⟩
    have hopen : (openWithCapacity root maxOpen).readers.shards = [] := by
      rw [openWithCapacity, readers_discover]
    rw [← hearliest]
    exact (Option.isSome_iff_ne_none.mpr fun hnone => hre ⟨hopen, hnone⟩).symm

end ShardRegistry

end NostrSearch.Server
