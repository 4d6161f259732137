import NostrSearch.Core.Lowercase
import NostrSearch.Core.Nip19Slices
import NostrSearch.Core.Tokenizer
import NostrSearch.Lib.Recipes
import NostrSearch.Lib.Totals
import NostrSearch.Stats.Clients

/-!
# The buckets of the clients

Every event is counted in one bucket, and there are never more than `MAX_CLIENTS` buckets and that
of `OTHER_CLIENT`, in whatever way reports are folded and merged. The names of the buckets are what
`normalize` makes of a tag. It keeps a handler coordinate whole, whatever its length, and cuts any
other name at `MAX_CLIENT_LEN` bytes; a name is normalized again to itself, unless the cut left a
blank at its end.
-/

namespace NostrSearch.Core

/-- A string that is cut where a character begins. -/
theorem truncate_append (a b : List Char) : truncate (byteLen a) (a ++ b) = a := by
  have hlt : ∀ (pos : ℕ) (s : List Char), ∀ x ∈ charIndices pos s,
      pos ≤ x.1 ∧ x.1 < pos + byteLen s := by
    intro pos s
    induction s generalizing pos with
    | nil =>
      intro x hx
      cases hx
    | cons c s ih =>
      intro x hx
      have hpos := c.utf8Size_pos
      rw [byteLen_cons]
      rcases List.mem_cons.mp hx with rfl | hx
      · show pos ≤ pos ∧ pos < _
        omega
      · have hrest := ih _ x hx
        omega
  have ha : (charIndices 0 a).filter (fun x => x.1 < byteLen a) = charIndices 0 a := by
    rw [List.filter_eq_self]
    intro x hx
    simpa using (hlt 0 a x hx).2
  have hb : (charIndices (0 + byteLen a) b).filter (fun x => x.1 < byteLen a) = [] := by
    rw [List.filter_eq_nil_iff]
    intro x hx
    have hge := (hlt _ b x hx).1
    simpa using hge
  rw [truncate, charIndices_append, List.filter_append, ha, hb, List.append_nil,
    map_snd_charIndices]

/-- Where a character begins, so does the rest of the string. -/
theorem exists_append_of_mem_charIndices {pos : ℕ} {s : List Char} {x : ℕ × Char}
    (h : x ∈ charIndices pos s) : ∃ a b, s = a ++ b ∧ pos + byteLen a = x.1 := by
  induction s generalizing pos with
  | nil => cases h
  | cons c s ih =>
    rcases List.mem_cons.mp h with rfl | h
    · exact ⟨[], c :: s, rfl, rfl⟩
    · obtain ⟨a, b, rfl, hx⟩ := ih h
      refine ⟨c :: a, b, rfl, ?_⟩
      rw [byteLen_cons]
      omega

end NostrSearch.Core

namespace NostrSearch.Stats

open NostrSearch.Core NostrSearch.Lib

namespace Clients

/-! ## Names -/

section Names

variable {lower : List Char → List Char}

/-- The prefix of a handler coordinate. -/
def coordinate : List Char := "31990:".toList

/-- What the name of a client is made from. -/
def baseOf (c : List Char) : List Char :=
  trim (beforeFirst "@".toList (beforeFirst " - ".toList c))

/-- The longest part of at most `MAX_CLIENT_LEN` bytes and one character. -/
def cut (out : List Char) : List Char :=
  truncate ((((charIndices 0 out).takeWhile fun x => x.1 ≤ MAX_CLIENT_LEN).getLast?.map
    Prod.fst).getD 0) out

theorem normalize_eq (lower : List Char → List Char) (client : String) :
    (normalize lower client).toList =
      if coordinate <+: trim client.toList then lower (trim client.toList)
      else if MAX_CLIENT_LEN < byteLen (lower (baseOf (trim client.toList))) then
        cut (lower (baseOf (trim client.toList)))
      else lower (baseOf (trim client.toList)) := by
  unfold normalize coordinate baseOf cut
  simp only [List.isPrefixOf_iff_prefix]
  split_ifs <;> exact String.toList_ofList

/-- The cut ends where a character begins, not behind `MAX_CLIENT_LEN`. -/
theorem cut_spec (out : List Char) : cut out <+: out ∧ byteLen (cut out) ≤ MAX_CLIENT_LEN := by
  rw [cut]
  cases hlast : ((charIndices 0 out).takeWhile fun x => x.1 ≤ MAX_CLIENT_LEN).getLast? with
  | none =>
    have hnil : truncate 0 out = [] := truncate_append [] out
    rw [Option.map_none, Option.getD_none, hnil]
    exact ⟨List.nil_prefix, Nat.zero_le _⟩
  | some x =>
    have hmem := List.mem_of_getLast? hlast
    have hle : decide (x.1 ≤ MAX_CLIENT_LEN) = true :=
      List.mem_takeWhile_imp (p := fun x : ℕ × Char => decide (x.1 ≤ MAX_CLIENT_LEN)) hmem
    have hle : x.1 ≤ MAX_CLIENT_LEN := of_decide_eq_true hle
    have hindex : x ∈ charIndices 0 out := (List.takeWhile_prefix _).subset hmem
    obtain ⟨a, b, rfl, hx⟩ := exists_append_of_mem_charIndices hindex
    rw [Nat.zero_add] at hx
    rw [Option.map_some, Option.getD_some, ← hx, truncate_append]
    rw [← hx] at hle
    exact ⟨List.prefix_append a b, hle⟩

/-- What a bucket is called, but for the reserved names. -/
structure IsName (lower : List Char → List Char) (name : String) : Prop where
  short : coordinate <+: name.toList ∨ byteLen name.toList ≤ MAX_CLIENT_LEN
  fixed : trim name.toList = name.toList → normalize lower name = name

theorem coordinate_caseless : ∀ d ∈ coordinate, caseless d = true :=
  List.all_eq_true.mp (by decide)

theorem beforeFirst_baseOf_isPrefix (c : List Char) :
    beforeFirst "@".toList (beforeFirst " - ".toList c) <+: c :=
  (beforeFirst_prefix_self _ _).trans (beforeFirst_prefix_self _ _)

theorem baseOf_isInfix (c : List Char) :
    baseOf c <:+: beforeFirst "@".toList (beforeFirst " - ".toList c) := by
  obtain ⟨a, b, heq, -, -⟩ := exists_trim (beforeFirst "@".toList (beforeFirst " - ".toList c))
  exact ⟨a, b, heq.symm⟩

/-- Nothing in front comes off text that begins without a blank. -/
theorem baseOf_isPrefix {c : List Char} (hc : trim c = c) : baseOf c <+: c := by
  obtain ⟨a, b, heq, ha, -⟩ := exists_trim (beforeFirst "@".toList (beforeFirst " - ".toList c))
  obtain ⟨rest, hrest⟩ := beforeFirst_baseOf_isPrefix c
  cases a with
  | nil =>
    refine ⟨b ++ rest, ?_⟩
    rw [← List.append_assoc]
    rw [List.nil_append] at heq
    rw [baseOf, ← heq, hrest]
  | cons d a =>
    -- `c` would begin with a blank
    have hhead : c.head? = some d := by
      rw [← hrest, heq]
      rfl
    have hnot := (trim_eq_self_iff.mp hc).1 d hhead
    rw [ha d List.mem_cons_self] at hnot
    cases hnot

/-- Part of what stood before the separators has none of them. -/
theorem baseOf_no_sep (c : List Char) :
    ¬ " - ".toList <:+: baseOf c ∧ ¬ "@".toList <:+: baseOf c := by
  constructor
  · intro h
    have hpre := beforeFirst_prefix_self "@".toList (beforeFirst " - ".toList c)
    exact not_infix_beforeFirst (by decide) c
      ((h.trans (baseOf_isInfix c)).trans hpre.isInfix)
  · intro h
    exact not_infix_beforeFirst (by decide) _ (h.trans (baseOf_isInfix c))

/-- A short start of a name, if it does not end in a blank, is normalized to itself. -/
theorem normalize_of_prefix (h : Lowercases lower) {c : List Char} {name : String}
    (hc : trim c = c) (hcoordinate : ¬ coordinate <+: c)
    (hpre : name.toList <+: lower (baseOf c)) (htrim : trim name.toList = name.toList)
    (hlen : byteLen name.toList ≤ MAX_CLIENT_LEN) : normalize lower name = name := by
  have hinf := hpre.isInfix
  obtain ⟨hdash, hat⟩ := baseOf_no_sep c
  have hnot : ¬ coordinate <+: name.toList := by
    intro hmem
    have hbase := (h.prefix_iff coordinate_caseless).mp (hmem.trans hpre)
    exact hcoordinate (hbase.trans (baseOf_isPrefix hc))
  have hdash' : ¬ " - ".toList <:+: name.toList := fun hmem =>
    hdash (h.infix_of_infix (List.all_eq_true.mp (by decide)) (by decide) (hmem.trans hinf))
  have hat' : ¬ "@".toList <:+: name.toList := fun hmem =>
    hat (h.infix_of_infix (List.all_eq_true.mp (by decide)) (by decide) (hmem.trans hinf))
  have hbase : baseOf name.toList = name.toList := by
    rw [baseOf, beforeFirst_eq_self hdash', beforeFirst_eq_self hat', htrim]
  rw [← String.toList_inj, normalize_eq, htrim, if_neg hnot, hbase, h.lower_of_prefix hpre,
    if_neg (Nat.not_lt.mpr hlen)]

theorem isName_normalize (h : Lowercases lower) (client : String) :
    IsName lower (normalize lower client) := by
  have hc := trim_trim client.toList
  have hname := normalize_eq lower client
  by_cases hcoordinate : coordinate <+: trim client.toList
  · rw [if_pos hcoordinate] at hname
    have hkept : coordinate <+: (normalize lower client).toList := by
      rw [hname, h.prefix_iff coordinate_caseless]
      exact hcoordinate
    have htrim : trim (normalize lower client).toList = (normalize lower client).toList := by
      rw [hname, h.trim_lower hc]
    refine ⟨Or.inl hkept, fun _ => ?_⟩
    rw [← String.toList_inj, normalize_eq lower (normalize lower client), htrim, if_pos hkept,
      hname, h.lower_of_prefix List.prefix_rfl]
  · rw [if_neg hcoordinate] at hname
    have hpre : (normalize lower client).toList <+: lower (baseOf (trim client.toList)) ∧
        byteLen (normalize lower client).toList ≤ MAX_CLIENT_LEN := by
      rw [hname]
      split
      · exact cut_spec _
      case isFalse hle => exact ⟨List.prefix_rfl, Nat.not_lt.mp hle⟩
    exact ⟨Or.inr hpre.2, fun htrim =>
      normalize_of_prefix h hc hcoordinate hpre.1 htrim hpre.2⟩

end Names

/-! ## Events -/

/-- What the totals of a bucket say of its events. The counters have 64 bits. -/
structure Sums (b : ClientStats) (evs : Multiset NostrEvent) : Prop where
  sum : b.sum = evs.card % 2 ^ 64
  lastNote : b.lastNote = (evs.map (·.createdAt)).sup
  kinds : ∀ kind, (b.kinds.lookup kind).getD 0 = (evs.map (·.kind)).count kind % 2 ^ 64
  mem_kinds : ∀ kind ∈ evs.map (·.kind), kind ∈ b.kinds

section Sums

variable {b os : ClientStats} {evs evs' : Multiset NostrEvent}

theorem sums_default : Sums ClientStats.default 0 where
  sum := rfl
  lastNote := rfl
  kinds _ := rfl
  mem_kinds _ h := absurd h (Multiset.notMem_zero _)

theorem Sums.addEvent (h : Sums b evs) (ev : NostrEvent) :
    Sums (b.addEvent ev) (evs + {ev}) := by
  constructor
  · rw [Multiset.card_add, Multiset.card_singleton, ClientStats.addEvent, h.sum, wrapAdd,
      Nat.mod_add_mod]
  · rw [Multiset.map_add, Multiset.sup_add, Multiset.map_singleton, Multiset.sup_singleton,
      ← h.lastNote]
    rfl
  · intro kind
    have hkind := h.kinds kind
    show ((atEntry b.kinds ev.kind 0 fun n => wrapAdd n 1).lookup kind).getD 0 = _
    rw [Multiset.map_add, Multiset.count_add, Multiset.map_singleton, Multiset.count_singleton]
    by_cases hk : kind = ev.kind
    · rw [hk, lookup_atEntry_self, Option.getD_some, if_pos rfl, ← hk, hkind, wrapAdd,
        Nat.mod_add_mod]
    · rw [lookup_atEntry_of_ne hk, if_neg hk, hkind, Nat.add_zero]
  · intro kind hkind
    show kind ∈ atEntry b.kinds ev.kind 0 _
    rw [mem_atEntry]
    rw [Multiset.map_add, Multiset.mem_add, Multiset.map_singleton, Multiset.mem_singleton] at hkind
    exact hkind.symm.imp id (h.mem_kinds kind)

theorem Sums.merge (h : Sums b evs) (h' : Sums os evs') : Sums (b.merge os) (evs + evs') := by
  constructor
  · rw [Multiset.card_add, ClientStats.merge, h.sum, h'.sum, wrapAdd, Nat.add_mod_mod,
      Nat.mod_add_mod]
  · rw [Multiset.map_add, Multiset.sup_add, ← h.lastNote, ← h'.lastNote]
    rfl
  · intro kind
    have hkind := h.kinds kind
    have hkind' := h'.kinds kind
    show ((absorb b.kinds 0 wrapAdd os.kinds).lookup kind).getD 0 = _
    rw [Multiset.map_add, Multiset.count_add, lookup_absorb]
    cases hos : os.kinds.lookup kind with
    | none =>
      rw [hos, Option.getD_none] at hkind'
      show (b.kinds.lookup kind).getD 0 = _
      rw [hkind, ← Nat.add_mod_mod, ← hkind', Nat.add_zero]
    | some n =>
      rw [hos, Option.getD_some] at hkind'
      show wrapAdd ((b.kinds.lookup kind).getD 0) n = _
      rw [hkind, hkind', wrapAdd, Nat.add_mod_mod, Nat.mod_add_mod]
  · intro kind hkind
    rw [Multiset.map_add, Multiset.mem_add] at hkind
    rw [← Finmap.mem_keys]
    show kind ∈ (absorb b.kinds 0 wrapAdd os.kinds).keys
    rw [keys_absorb, Finset.mem_union, Finmap.mem_keys, Finmap.mem_keys]
    exact hkind.imp (h.mem_kinds kind) (h'.mem_kinds kind)

end Sums

/-! ## Buckets -/

/-- The client of an event. -/
def clientOf (lower : List Char → List Char) (ev : NostrEvent) : String :=
  match (ev.tagValues "client").head?.map (normalize lower) with
  | some c => if c.isEmpty then NO_CLIENT else c
  | none => NO_CLIENT

/-- The clients, and the events that each bucket has counted. -/
structure Ledger where
  clients : Clients
  events : String → Multiset NostrEvent

namespace Ledger

def default : Ledger := { clients := Clients.default, events := fun _ => 0 }

/-- Events that a bucket counts. -/
def count (l : Ledger) (key : String) (evs : Multiset NostrEvent) : String → Multiset NostrEvent :=
  Function.update l.events key (l.events key + evs)

def observe (lower : List Char → List Char) (l : Ledger) (ev : NostrEvent) : Ledger :=
  { clients := (Clients.observe lower ev l.clients).1
    events := l.count (l.clients.keyFor (clientOf lower ev)) {ev} }

def mergeEntry (other l : Ledger) (client : String) (os : ClientStats) : Ledger :=
  { clients := l.clients.mergeEntry client os
    events := l.count (l.clients.keyFor client) (other.events client) }

def mergeIn (other l : Ledger) (order : List String) : Ledger :=
  order.foldl
    (fun l client => (other.clients.data.lookup client).elim l (other.mergeEntry l client)) l

/-- `Clients.Merges`, with the events. -/
def Merges (l other l' : Ledger) : Prop :=
  ∃ order : List String, order.Nodup ∧ (∀ client, client ∈ order ↔ client ∈ other.clients.data) ∧
    l' = other.mergeIn l order

theorem mergeIn_clients (other l : Ledger) (order : List String) :
    (other.mergeIn l order).clients = Clients.mergeIn other.clients l.clients order := by
  induction order generalizing l with
  | nil => rfl
  | cons client order ih =>
    show (other.mergeIn ((other.clients.data.lookup client).elim l _) order).clients =
      Clients.mergeIn other.clients ((other.clients.data.lookup client).elim l.clients _) order
    rw [ih]
    cases other.clients.data.lookup client <;> rfl

/-- Every run has a ledger. -/
theorem exists_yields {lower : List Char → List Char} {r : Recipe NostrEvent} {s : Clients}
    (h : r.Yields Clients.default (fun s ev => (Clients.observe lower ev s).1) Clients.Merges s) :
    ∃ l : Ledger, l.clients = s ∧ r.Yields default (observe lower) Merges l := by
  induction h with
  | new => exact ⟨default, rfl, .new⟩
  | fold ev _ ih =>
    obtain ⟨l, rfl, hl⟩ := ih
    exact ⟨l.observe lower ev, rfl, .fold ev hl⟩
  | merge _ _ hmerge ihr iht =>
    obtain ⟨l, rfl, hl⟩ := ihr
    obtain ⟨l', rfl, hl'⟩ := iht
    obtain ⟨order, hnodup, hmem, rfl⟩ := hmerge
    exact ⟨l'.mergeIn l order, mergeIn_clients l' l order,
      .merge hl hl' ⟨order, hnodup, hmem, rfl⟩⟩

end Ledger

/-- Every event is in one bucket, and the buckets are few and named. -/
structure Balanced (lower : List Char → List Char) (l : Ledger) (items : Multiset NostrEvent) :
    Prop where
  sums : ∀ key b, l.clients.data.lookup key = some b → Sums b (l.events key)
  events_eq_zero : ∀ key, key ∉ l.clients.data → l.events key = 0
  divided : ∑ key ∈ l.clients.data.keys, l.events key = items
  bounded : l.clients.data.keys.card ≤ MAX_CLIENTS ∨
    l.clients.data.keys.card = MAX_CLIENTS + 1 ∧ OTHER_CLIENT ∈ l.clients.data
  names : ∀ key ∈ l.clients.data, key = NO_CLIENT ∨ key = OTHER_CLIENT ∨ IsName lower key

section Balanced

variable {lower : List Char → List Char} {l : Ledger} {items evs : Multiset NostrEvent}

theorem keyFor_eq (s : Clients) (client : String) :
    s.keyFor client = client ∨ s.keyFor client = OTHER_CLIENT := by
  rw [keyFor]
  split
  · exact Or.inr rfl
  · exact Or.inl rfl

/-- A further key, of a map that is kept in bounds. -/
theorem card_insert_keyFor (s : Clients) (client : String)
    (h : s.data.keys.card ≤ MAX_CLIENTS ∨
      s.data.keys.card = MAX_CLIENTS + 1 ∧ OTHER_CLIENT ∈ s.data) :
    (insert (s.keyFor client) s.data.keys).card ≤ MAX_CLIENTS ∨
      (insert (s.keyFor client) s.data.keys).card = MAX_CLIENTS + 1 ∧
        (OTHER_CLIENT = s.keyFor client ∨ OTHER_CLIENT ∈ s.data) := by
  by_cases hmem : s.keyFor client ∈ s.data.keys
  · rw [Finset.insert_eq_of_mem hmem]
    exact h.imp id (And.imp_right Or.inr)
  · rw [Finset.card_insert_of_notMem hmem]
    rw [Finmap.mem_keys] at hmem
    unfold keyFor at hmem ⊢
    split at hmem
    case isTrue hfull =>
      -- there is no bucket for the others yet
      rw [if_pos hfull]
      have hle := h.resolve_right fun hother => hmem hother.2
      right
      exact ⟨by omega, Or.inl rfl⟩
    case isFalse hfree =>
      left
      have hlt : ¬ MAX_CLIENTS ≤ s.data.keys.card := fun hfull => hfree ⟨hfull, hmem⟩
      omega

/-- Events go to the bucket of a client. -/
theorem Balanced.count (h : Balanced lower l items) {client : String} {l' : Ledger}
    {f : ClientStats → ClientStats}
    (hclient : client = NO_CLIENT ∨ client = OTHER_CLIENT ∨ IsName lower client)
    (hf : ∀ b e, Sums b e → Sums (f b) (e + evs))
    (hdata : l'.clients.data =
      atEntry l.clients.data (l.clients.keyFor client) ClientStats.default f)
    (hevents : l'.events = l.count (l.clients.keyFor client) evs) :
    Balanced lower l' (items + evs) := by
  have hbound := card_insert_keyFor l.clients client h.bounded
  have hkey := keyFor_eq l.clients client
  generalize l.clients.keyFor client = key at *
  have hkeys : l'.clients.data.keys = insert key l.clients.data.keys := by rw [hdata, keys_atEntry]
  constructor
  · intro k b hb
    rw [hevents, Ledger.count]
    by_cases hk : k = key
    · subst hk
      rw [hdata, lookup_atEntry_self, Option.some.injEq] at hb
      rw [← hb, Function.update_self]
      apply hf
      cases hold : l.clients.data.lookup k with
      | none =>
        rw [h.events_eq_zero k (Finmap.lookup_eq_none.mp hold)]
        exact sums_default
      | some b₀ => exact h.sums k b₀ hold
    · rw [hdata, lookup_atEntry_of_ne hk] at hb
      rw [Function.update_of_ne hk]
      exact h.sums k b hb
  · intro k hk
    rw [hdata, mem_atEntry, not_or] at hk
    rw [hevents, Ledger.count, Function.update_of_ne hk.1]
    exact h.events_eq_zero k hk.2
  · rw [hkeys, hevents, Ledger.count, ← h.divided]
    -- the bucket that is new had no events
    apply sum_insert_update
    intro hk
    exact h.events_eq_zero key fun hmem => hk (Finmap.mem_keys.mpr hmem)
  · rw [hkeys, hdata]
    simp only [mem_atEntry]
    exact hbound
  · intro k hk
    rw [hdata, mem_atEntry] at hk
    rcases hk with rfl | hk
    · rcases hkey with hkey | hkey
      · rw [hkey]
        exact hclient
      · exact Or.inr (Or.inl hkey)
    · exact h.names k hk

theorem clientOf_name (h : Lowercases lower) (ev : NostrEvent) :
    clientOf lower ev = NO_CLIENT ∨ clientOf lower ev = OTHER_CLIENT ∨
      IsName lower (clientOf lower ev) := by
  unfold clientOf
  cases (ev.tagValues "client").head? with
  | none => exact Or.inl rfl
  | some client =>
    rw [Option.map_some]
    dsimp only
    split
    · exact Or.inl rfl
    · exact Or.inr (Or.inr (isName_normalize h client))

theorem Balanced.observe (hlower : Lowercases lower) (h : Balanced lower l items)
    (ev : NostrEvent) : Balanced lower (l.observe lower ev) (items + {ev}) :=
  h.count (clientOf_name hlower ev) (fun _ _ hb => hb.addEvent ev) rfl rfl

theorem Balanced.mergeIn {other : Ledger} {items' : Multiset NostrEvent}
    (h' : Balanced lower other items') (h : Balanced lower l items) (order : List String) :
    Balanced lower (other.mergeIn l order) (items + (order.map other.events).sum) := by
  induction order generalizing l items with
  | nil =>
    rw [List.map_nil, List.sum_nil, add_zero]
    exact h
  | cons client order ih =>
    show Balanced lower (other.mergeIn ((other.clients.data.lookup client).elim l _) order) _
    rw [List.map_cons, List.sum_cons, ← add_assoc]
    apply ih
    cases hos : other.clients.data.lookup client with
    | none =>
      rw [h'.events_eq_zero client (Finmap.lookup_eq_none.mp hos), add_zero]
      exact h
    | some os =>
      have hname := h'.names client (Finmap.mem_of_lookup_eq_some hos)
      exact h.count hname (fun _ _ hb => hb.merge (h'.sums client os hos)) rfl rfl

theorem balanced_of_yields (hlower : Lowercases lower) {r : Recipe NostrEvent}
    (h : r.Yields Ledger.default (Ledger.observe lower) Ledger.Merges l) :
    Balanced lower l r.items := by
  induction h with
  | new =>
    constructor
    · intro key b hb
      cases hb
    · intro key _
      rfl
    · rfl
    · exact Or.inl (Nat.zero_le _)
    · intro key hkey
      exact absurd hkey (Finmap.notMem_empty)
  | fold ev _ ih =>
    rw [Recipe.items, ← Multiset.coe_add, Multiset.coe_singleton]
    exact ih.observe hlower ev
  | @merge r t l other l' _ _ hmerge ihr iht =>
    obtain ⟨order, hnodup, hmem, rfl⟩ := hmerge
    have hmerged := iht.mergeIn ihr order
    have horder : order.toFinset = other.clients.data.keys := by
      ext client
      rw [List.mem_toFinset, hmem, Finmap.mem_keys]
    rw [← List.sum_toFinset _ hnodup, horder, iht.divided] at hmerged
    exact hmerged

end Balanced

/-! ## Conservation -/

/-- What the report says of the events. Its counters are of 64 bits. -/
structure Conserved (lower : List Char → List Char) (l : Ledger) (items : List NostrEvent) :
    Prop where
  divided : ∑ key ∈ l.clients.data.keys, l.events key = items
  sum_eq : items.length < 2 ^ 64 → total l.clients.data ClientStats.sum = items.length
  sum_eq_kinds : items.length < 2 ^ 64 →
    ∀ key b, l.clients.data.lookup key = some b → b.sum = total b.kinds id
  lastNote_eq : ∀ key b, l.clients.data.lookup key = some b →
    b.lastNote = ((l.events key).map (·.createdAt)).sup
  card_le : l.clients.data.keys.card ≤ MAX_CLIENTS + 1
  names : ∀ key ∈ l.clients.data, key = NO_CLIENT ∨ key = OTHER_CLIENT ∨ IsName lower key

/-- No counter of a bucket has wrapped around. -/
theorem Balanced.card_mod {lower : List Char → List Char} {l : Ledger}
    {items : Multiset NostrEvent} (h : Balanced lower l items) (hlen : items.card < 2 ^ 64)
    {key : String} (hkey : key ∈ l.clients.data) :
    (l.events key).card % 2 ^ 64 = (l.events key).card := by
  have hle : l.events key ≤ items := by
    rw [← h.divided]
    exact Finset.single_le_sum_of_canonicallyOrdered (Finmap.mem_keys.mpr hkey)
  exact Nat.mod_eq_of_lt ((Multiset.card_le_card hle).trans_lt hlen)

/-- The kinds of a bucket add up to its events. -/
theorem Sums.total_kinds {b : ClientStats} {evs : Multiset NostrEvent} (h : Sums b evs)
    (hmod : evs.card % 2 ^ 64 = evs.card) : total b.kinds id = evs.card := by
  have hkind : ∀ kind ∈ b.kinds.keys, (b.kinds.lookup kind).elim 0 id =
      (evs.map (·.kind)).count kind := by
    intro kind _
    have hle := Multiset.count_le_card kind (evs.map (·.kind))
    rw [Multiset.card_map] at hle
    have heq := h.kinds kind
    rw [Nat.mod_eq_of_lt (by omega)] at heq
    rw [← heq]
    cases b.kinds.lookup kind <;> rfl
  rw [total, Finset.sum_congr rfl hkind, Multiset.sum_count_eq_card, Multiset.card_map]
  intro kind hmem
  exact Finmap.mem_keys.mpr (h.mem_kinds kind hmem)

/-- **Client statistics conserve events**, in buckets that are few and named. -/
theorem events_conserved {lower : List Char → List Char} (hlower : Lowercases lower)
    {r : Recipe NostrEvent} {l : Ledger}
    (h : r.Yields Ledger.default (Ledger.observe lower) Ledger.Merges l) :
    Conserved lower l r.items := by
  have hbal := balanced_of_yields hlower h
  have hsum : r.items.length < 2 ^ 64 → ∀ key b, l.clients.data.lookup key = some b →
      b.sum = (l.events key).card := by
    intro hlen key b hb
    rw [(hbal.sums key b hb).sum, hbal.card_mod hlen (Finmap.mem_of_lookup_eq_some hb)]
  constructor
  · exact hbal.divided
  · intro hlen
    rw [← Multiset.coe_card, ← hbal.divided, Multiset.card_sum, total]
    apply Finset.sum_congr rfl
    intro key hkey
    obtain ⟨b, hb⟩ := Finmap.mem_iff.mp (Finmap.mem_keys.mp hkey)
    rw [hb]
    exact hsum hlen key b hb
  · intro hlen key b hb
    rw [hsum hlen key b hb]
    exact ((hbal.sums key b hb).total_kinds
      (hbal.card_mod hlen (Finmap.mem_of_lookup_eq_some hb))).symm
  · intro key b hb
    exact (hbal.sums key b hb).lastNote
  · have hbound := hbal.bounded
    omega
  · exact hbal.names

/-- The coordinate of a handler, of 74 bytes. -/
def handler : String :=
  "31990:aaaaaaaaaaaaaaaaaaaaaaaaaaaaaaaaaaaaaaaaaaaaaaaaaaaaaaaaaaaaaaaa:app"

def handlerNote : NostrEvent :=
  { id := "", pubkey := "", createdAt := 1700000000, kind := 1, tags := [["client", handler]]
    content := "", sig := "" }

theorem handlerNote_name : clientOf asciiLower handlerNote = handler := by decide +kernel

/-- Two reports of a note each, merged. -/
theorem handlerNote_conserved : ∃ l, Conserved asciiLower l [handlerNote, handlerNote] := by
  refine ⟨_, events_conserved asciiLower_lowercases (r := .merge (.fold .new handlerNote)
    (.fold .new handlerNote)) (.merge (.fold _ .new) (.fold _ .new) ⟨[handler], ?_, ?_, rfl⟩)⟩
  · exact List.nodup_singleton handler
  · intro client
    show client ∈ [handler] ↔
      client ∈ atEntry ∅ (keyFor Clients.default (clientOf asciiLower handlerNote)) _ _
    rw [handlerNote_name, mem_atEntry, List.mem_singleton]
    exact (or_iff_left Finmap.notMem_empty).symm

/-- A handler coordinate is not cut. -/
theorem handler_kept_whole :
    ¬ ∀ l, (Recipe.new.fold handlerNote).Yields Ledger.default (Ledger.observe asciiLower)
        Ledger.Merges l → ∀ key ∈ l.clients.data, key = NO_CLIENT ∨ key = OTHER_CLIENT ∨
          byteLen key.toList ≤ MAX_CLIENT_LEN ∧ normalize asciiLower key = key := by
  intro hall
  have hmem : handler ∈ (Ledger.default.observe asciiLower handlerNote).clients.data := by
    show handler ∈ atEntry ∅ (keyFor Clients.default (clientOf asciiLower handlerNote)) _ _
    rw [handlerNote_name, mem_atEntry]
    exact Or.inl rfl
  have hname := hall _ (.fold _ .new) handler hmem
  have hnot : ¬ (handler = NO_CLIENT ∨ handler = OTHER_CLIENT ∨
      byteLen handler.toList ≤ MAX_CLIENT_LEN ∧ normalize asciiLower handler = handler) := by
    decide +kernel
  exact hnot hname

end Clients

end NostrSearch.Stats
