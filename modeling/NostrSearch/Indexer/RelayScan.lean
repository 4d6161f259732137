import NostrSearch.Core.RelayUrl
import NostrSearch.Core.Schema
import NostrSearch.Core.ShardNames
import NostrSearch.Lib.Buckets
import NostrSearch.Lib.Ranking

/-!
# Relays from the index

`discover_relays` opens every shard under the index root and reads the relay lists that are stored
there, a document each. A relay counts once for each hash of an author who lists it. Which entry of
the root comes first does not matter (`scan_exact`), nor does the order in which the map is walked
(`discoverRelays_of_walk`).

A directory that no index opens in is passed over; an index that opens and cannot be read is not.
-/

namespace NostrSearch.Indexer

open NostrSearch.Core NostrSearch.Lib

def KIND_RELAY_LIST : ℕ := 10002

/-- What the scan takes from elsewhere. -/
structure ScanRules where
  toLowercase : List Char → List Char
  isIp : List Char → Bool
  /-- `DefaultHasher` -/
  hash : List Char → UInt64

/-- What `read_dir` comes upon. -/
inductive RootEntry
  | failed
  /-- the index that opens there, if one does: its documents, if they can be read -/
  | dir (name : List Char) (index : Option (Option (List Document)))

inductive IndexRoot
  | absent
  | unreadable
  | dir (entries : List RootEntry)

/-- The hashes of those who list a relay. -/
abbrev Advertisers := Finmap fun _ : List Char => Finset UInt64

section defs

variable (p : ScanRules)

def pkHash (d : Document) : UInt64 := ((d.text .pubkey).head?.map p.hash).getD 0

/-- One turn of the loop over the URLs of a document. -/
def scanUrl (d : Document) (authors : Advertisers) (v : List Char) : Advertisers :=
  match normalizeRelayUrl p.toLowercase p.isIp v with
  | some u => atEntry authors u ∅ (insert (pkHash p d))
  | none => authors

/-- One turn of the loop over the relay lists of a shard. -/
def scanDoc (authors : Advertisers) (d : Document) : Advertisers :=
  (d.text .tagUrl).foldl (scanUrl p d) authors

/-- The relay lists of a shard. -/
def scanShard (authors : Advertisers) (docs : List Document) : Advertisers :=
  (docs.filter fun d => decide (d.kind = KIND_RELAY_LIST)).foldl (scanDoc p) authors

/-- One turn of the loop over the root. -/
def scanEntry (authors : Advertisers) : RootEntry → Option Advertisers
  | .failed => none
  | .dir name index =>
    if (ShardId.parse name).isNone then some authors
    else index.elim (some authors) fun docs => docs.map (scanShard p authors)

/-- `discover_relays`. -/
def discoverRelays : IndexRoot → Option (List (List Char × ℕ))
  | .absent => some []
  | .unreadable => none
  | .dir entries => (entries.foldlM (scanEntry p) ∅).map fun authors =>
    ranking authors fun s => s.card % 2 ^ 32

end defs

/-- The hash map is walked in any order. -/
theorem discoverRelays_of_walk (p : ScanRules) {entries : List RootEntry} {authors : Advertisers}
    (hread : entries.foldlM (scanEntry p) ∅ = some authors)
    {walk : List (List Char × Finset UInt64)} (h : IsWalk authors walk) :
    discoverRelays p (.dir entries) =
      some ((walk.map fun e => (e.1, e.2.card % 2 ^ 32)).insertionSort Ranks) := by
  have hsort : (walk.map fun e => (e.1, e.2.card % 2 ^ 32)).insertionSort Ranks =
      ranking authors fun s => s.card % 2 ^ 32 :=
    @sort_walk _ _ _ _ _ (fun s => s.card % 2 ^ 32) _ h
  rw [discoverRelays, hread, hsort]
  rfl

/-! ## What is read -/

/-- The documents of the shard that an entry is, where there is one. -/
def RootEntry.docs : RootEntry → List Document
  | .failed => []
  | .dir name index => if (ShardId.parse name).isNone then [] else index.join.getD []

/-- The scan ends here. -/
def RootEntry.Broken : RootEntry → Prop
  | .failed => True
  | .dir name index => (ShardId.parse name).isSome ∧ index = some none

/-- A document lists a relay, for an author with this hash. -/
def Lists (p : ScanRules) (d : Document) (u : List Char) (h : UInt64) : Prop :=
  d.kind = KIND_RELAY_LIST ∧ pkHash p d = h ∧
    ∃ v ∈ d.text .tagUrl, normalizeRelayUrl p.toLowercase p.isIp v = some u

/-- What a map holds after some documents. -/
structure Scanned (p : ScanRules) (docs : List Document) (m : Advertisers) : Prop where
  nonempty : ∀ u s, m.lookup u = some s → s.Nonempty
  mem : ∀ u h, h ∈ (m.lookup u).getD ∅ ↔ ∃ d ∈ docs, Lists p d u h

variable {p : ScanRules} {docs : List Document} {m : Advertisers}

theorem exists_mem_snoc {d : Document} {P : Document → Prop} :
    (∃ d' ∈ docs ++ [d], P d') ↔ (∃ d' ∈ docs, P d') ∨ P d := by
  simp only [List.mem_append, List.mem_singleton, or_and_right, exists_or, exists_eq_left]

theorem scanned_empty : Scanned p [] ∅ where
  nonempty u s h := by
    rw [Finmap.lookup_empty] at h
    cases h
  mem u h := by
    rw [Finmap.lookup_empty, Option.getD_none]
    exact iff_of_false (Finset.notMem_empty h) fun hd => by
      obtain ⟨d, hd, -⟩ := hd
      exact List.not_mem_nil hd

/-- What is held depends on which documents were read, and on nothing else. -/
theorem Scanned.congr {docs' : List Document} (hm : Scanned p docs m)
    (h : ∀ d, d ∈ docs' ↔ d ∈ docs) : Scanned p docs' m where
  nonempty := hm.nonempty
  mem u k := by
    rw [hm.mem]
    exact exists_congr fun d => and_congr_left' (h d).symm

theorem Scanned.unique {m' : Advertisers} (hm : Scanned p docs m) (hm' : Scanned p docs m') :
    m = m' := by
  refine Finmap.ext_lookup fun u => ?_
  have hset : (m.lookup u).getD ∅ = (m'.lookup u).getD ∅ := by
    ext h
    rw [hm.mem, hm'.mem]
  cases hu : m.lookup u with
  | none =>
    cases hu' : m'.lookup u with
    | none => rfl
    | some s' =>
      rw [hu, hu', Option.getD_none, Option.getD_some] at hset
      exact absurd hset.symm (hm'.nonempty u s' hu').ne_empty
  | some s =>
    cases hu' : m'.lookup u with
    | none =>
      rw [hu, hu', Option.getD_none, Option.getD_some] at hset
      exact absurd hset (hm.nonempty u s hu).ne_empty
    | some s' =>
      rw [hu, hu', Option.getD_some, Option.getD_some] at hset
      rw [hset]

/-- One URL adds the author to its relay. -/
theorem getD_scanUrl (d : Document) (m : Advertisers) (v u : List Char) (h : UInt64) :
    h ∈ ((scanUrl p d m v).lookup u).getD ∅ ↔
      h ∈ (m.lookup u).getD ∅ ∨
        normalizeRelayUrl p.toLowercase p.isIp v = some u ∧ pkHash p d = h := by
  unfold scanUrl
  cases normalizeRelayUrl p.toLowercase p.isIp v with
  | none =>
    refine (or_iff_left ?_).symm
    rintro ⟨⟨⟩, -⟩
  | some w =>
    by_cases hu : u = w
    · rw [hu]
      show h ∈ ((atEntry m w ∅ (insert (pkHash p d))).lookup w).getD ∅ ↔ _
      rw [lookup_atEntry_self, Option.getD_some, Finset.mem_insert, or_comm]
      exact or_congr_right ⟨fun heq => ⟨rfl, heq.symm⟩, fun heq => heq.2.symm⟩
    · show h ∈ ((atEntry m w ∅ (insert (pkHash p d))).lookup u).getD ∅ ↔ _
      rw [lookup_atEntry_of_ne hu]
      refine (or_iff_left ?_).symm
      rintro ⟨heq, -⟩
      exact hu (Option.some.inj heq).symm

theorem nonempty_scanUrl {d : Document} (v : List Char)
    (hm : ∀ u s, m.lookup u = some s → s.Nonempty) :
    ∀ u s, (scanUrl p d m v).lookup u = some s → s.Nonempty := by
  unfold scanUrl
  cases normalizeRelayUrl p.toLowercase p.isIp v with
  | none => exact hm
  | some w =>
    intro u s hs
    by_cases hu : u = w
    · rw [hu] at hs
      have heq : some (insert (pkHash p d) ((m.lookup w).getD ∅)) = some s := by
        rw [← hs]
        exact lookup_atEntry_self.symm
      rw [← Option.some.inj heq]
      exact Finset.insert_nonempty _ _
    · exact hm u s ((lookup_atEntry_of_ne hu).symm.trans hs)

theorem getD_scanUrls (d : Document) (urls : List (List Char)) (m : Advertisers) (u : List Char)
    (h : UInt64) :
    h ∈ ((urls.foldl (scanUrl p d) m).lookup u).getD ∅ ↔
      h ∈ (m.lookup u).getD ∅ ∨
        (∃ v ∈ urls, normalizeRelayUrl p.toLowercase p.isIp v = some u) ∧ pkHash p d = h := by
  induction urls generalizing m with
  | nil =>
    refine (or_iff_left ?_).symm
    rintro ⟨⟨v, hv, -⟩, -⟩
    exact List.not_mem_nil hv
  | cons v urls ih =>
    rw [List.foldl_cons, ih, getD_scanUrl, List.exists_mem_cons_iff, or_and_right, or_assoc]

theorem nonempty_scanUrls {d : Document} (urls : List (List Char))
    (hm : ∀ u s, m.lookup u = some s → s.Nonempty) :
    ∀ u s, (urls.foldl (scanUrl p d) m).lookup u = some s → s.Nonempty := by
  induction urls generalizing m with
  | nil => exact hm
  | cons v urls ih => exact ih (nonempty_scanUrl v hm)

/-- One relay list. -/
theorem Scanned.doc (hm : Scanned p docs m) {d : Document} (hd : d.kind = KIND_RELAY_LIST) :
    Scanned p (docs ++ [d]) (scanDoc p m d) where
  nonempty := nonempty_scanUrls (d.text .tagUrl) hm.nonempty
  mem u h := by
    rw [scanDoc, getD_scanUrls, hm.mem, exists_mem_snoc, Lists, and_iff_right hd, and_comm]

/-- A document that is no relay list. -/
theorem Scanned.other (hm : Scanned p docs m) {d : Document} (hd : d.kind ≠ KIND_RELAY_LIST) :
    Scanned p (docs ++ [d]) m where
  nonempty := hm.nonempty
  mem u h := by
    rw [hm.mem, exists_mem_snoc]
    refine (or_iff_left ?_).symm
    rintro ⟨hkind, -⟩
    exact hd hkind

theorem Scanned.shard (hm : Scanned p docs m) (more : List Document) :
    Scanned p (docs ++ more) (scanShard p m more) := by
  unfold scanShard
  induction more generalizing docs m with
  | nil => rwa [List.append_nil]
  | cons d more ih =>
    rw [List.append_cons]
    by_cases hd : d.kind = KIND_RELAY_LIST
    · rw [List.filter_cons, if_pos (decide_eq_true hd), List.foldl_cons]
      exact ih (hm.doc hd)
    · rw [List.filter_cons, if_neg (by rwa [decide_eq_true_eq])]
      exact ih (hm.other hd)

/-- One entry: the scan ends, or its documents are read. -/
theorem scanEntry_spec (hm : Scanned p docs m) (e : RootEntry) :
    (e.Broken ∧ scanEntry p m e = none) ∨
      ¬ e.Broken ∧ ∃ m', scanEntry p m e = some m' ∧ Scanned p (docs ++ e.docs) m' := by
  cases e with
  | failed => exact Or.inl ⟨trivial, rfl⟩
  | dir name index =>
    rw [scanEntry, RootEntry.Broken, RootEntry.docs]
    cases hname : ShardId.parse name with
    | none =>
      refine Or.inr ⟨fun h => Bool.false_ne_true h.1, m, rfl, ?_⟩
      rwa [Option.isNone_none, if_pos rfl, List.append_nil]
    | some id =>
      rw [Option.isNone_some, if_neg Bool.false_ne_true, if_neg Bool.false_ne_true]
      cases index with
      | none =>
        refine Or.inr ⟨?_, m, rfl, by rwa [Option.join_none, Option.getD_none, List.append_nil]⟩
        rintro ⟨-, ⟨⟩⟩
      | some found =>
        cases found with
        | none => exact Or.inl ⟨⟨rfl, rfl⟩, rfl⟩
        | some more =>
          refine Or.inr ⟨?_, _, rfl, hm.shard more⟩
          rintro ⟨-, ⟨⟩⟩

theorem scanEntries_spec (hm : Scanned p docs m) (entries : List RootEntry) :
    ((∃ e ∈ entries, e.Broken) ∧ entries.foldlM (scanEntry p) m = none) ∨
      (¬ ∃ e ∈ entries, e.Broken) ∧ ∃ m', entries.foldlM (scanEntry p) m = some m' ∧
        Scanned p (docs ++ entries.flatMap RootEntry.docs) m' := by
  induction entries generalizing docs m with
  | nil =>
    refine Or.inr ⟨?_, m, rfl, by rwa [List.flatMap_nil, List.append_nil]⟩
    rintro ⟨e, he, -⟩
    exact List.not_mem_nil he
  | cons e entries ih =>
    rw [List.foldlM_cons, List.exists_mem_cons_iff, List.flatMap_cons, ← List.append_assoc]
    rcases scanEntry_spec hm e with ⟨hbroken, hnone⟩ | ⟨hok, m', hsome, hm'⟩
    · rw [hnone]
      exact Or.inl ⟨Or.inl hbroken, rfl⟩
    · rw [hsome, or_iff_right hok]
      exact ih hm'

/-- The index root is scanned to its end, or something in it is broken. -/
theorem discoverRelays_spec (p : ScanRules) (entries : List RootEntry) :
    ((∃ e ∈ entries, e.Broken) ∧ discoverRelays p (.dir entries) = none) ∨
      (¬ ∃ e ∈ entries, e.Broken) ∧ ∃ m, Scanned p (entries.flatMap RootEntry.docs) m ∧
        discoverRelays p (.dir entries) = some (ranking m fun s => s.card % 2 ^ 32) := by
  rcases scanEntries_spec (p := p) scanned_empty entries with ⟨h, hnone⟩ | ⟨h, m, hsome, hm⟩
  · exact Or.inl ⟨h, by rw [discoverRelays, hnone]; rfl⟩
  · exact Or.inr ⟨h, m, hm, by rw [discoverRelays, hsome]; rfl⟩

theorem mem_scanned_ranking (hm : Scanned p docs m) {u : List Char} {n : ℕ} :
    (u, n) ∈ ranking m (fun s => s.card % 2 ^ 32) ↔
      ∃ authors : Finset UInt64, authors.Nonempty ∧
        (∀ h, h ∈ authors ↔ ∃ d ∈ docs, Lists p d u h) ∧ n = authors.card % 2 ^ 32 := by
  rw [mem_ranking]
  constructor
  · rintro ⟨s, hs, rfl⟩
    refine ⟨s, hm.nonempty u s hs, fun h => ?_, rfl⟩
    rw [← hm.mem, hs, Option.getD_some]
  · rintro ⟨s, ⟨h, hmem⟩, hs, rfl⟩
    have hset : (m.lookup u).getD ∅ = s := by
      ext h
      rw [hm.mem, hs]
    cases hu : m.lookup u with
    | none =>
      rw [hu, Option.getD_none] at hset
      rw [← hset] at hmem
      exact absurd hmem (Finset.notMem_empty h)
    | some s' =>
      rw [hu, Option.getD_some] at hset
      exact ⟨s', rfl, by rw [hset]⟩

/-! ## Indexed events -/

theorem kind_addTexts (d : Document) (f : Field) (vs : List (List Char)) :
    (d.addTexts f vs).kind = d.kind := by
  unfold Document.addTexts
  induction vs generalizing d with
  | nil => rfl
  | cons v vs ih => exact ih _

theorem kind_addUrls (rules : TextRules) (urls : List (List Char)) (d : Document) :
    (addUrls rules urls d).kind = d.kind := by
  unfold addUrls
  induction urls generalizing d with
  | nil => rfl
  | cons v urls ih => rw [List.foldl_cons, ih, kind_addTexts]; rfl

theorem kind_toDocument (rules : TextRules) (ev : NostrEvent) (wotTier : ℕ)
    (lang : Option (List Char)) : (toDocument rules ev wotTier lang).kind = ev.kind := by
  unfold toDocument
  simp only [kind_addTexts, kind_addUrls]
  cases (if ev.kind = 0 then rules.profile ev.content else none) with
  | none =>
    simp only [kind_addTexts]
    cases ev.isTextKind <;> rfl
  | some q =>
    simp only [addProfile, kind_addTexts]
    cases ev.isTextKind <;> rfl

theorem tagUrl_toDocument (rules : TextRules) (ev : NostrEvent) (wotTier : ℕ)
    (lang : Option (List Char)) :
    (toDocument rules ev wotTier lang).text .tagUrl = ev.tagChars "r" ++ ev.tagChars "u" := by
  unfold toDocument
  cases (if ev.kind = 0 then rules.profile ev.content else none) with
  | none =>
    cases ev.isTextKind <;> simp [Document.text_addTexts, Document.text_addText, text_addUrls]
  | some q =>
    cases ev.isTextKind <;>
      simp [Document.text_addTexts, Document.text_addText, text_addUrls, text_addProfile]

/-- The document of an event lists what the event lists, for its author. -/
theorem lists_toDocument (p : ScanRules) (rules : TextRules) (ev : NostrEvent) (wotTier : ℕ)
    (lang : Option (List Char)) (u : List Char) (h : UInt64) :
    Lists p (toDocument rules ev wotTier lang) u h ↔
      ev.kind = KIND_RELAY_LIST ∧ p.hash (normalizeHex ev.pubkey.toList) = h ∧
        ∃ v ∈ ev.tagChars "r" ++ ev.tagChars "u",
          normalizeRelayUrl p.toLowercase p.isIp v = some u := by
  rw [Lists, kind_toDocument, tagUrl_toDocument, pkHash, (text_toDocument rules ev wotTier lang).1]
  rfl

end NostrSearch.Indexer
