import NostrSearch.Lib.Ranking
import NostrSearch.Lib.Recipes
import NostrSearch.Stats.Relays
import NostrSearch.Stats.Sketches

/-!
# Counting advertisers

What `relays` holds of a relay is a sketch of those who advertise it, the estimate of the sketch,
and the date of the newest list. All three are joins, so that neither the order of the lists nor the way
they are split over partial reports matters, as long as there is room (`counts_exact`). Where there
is none, it is the relays advertised first that are counted, and each of them in full
(`first_relays`).

`merge` goes through a hash map, in any order.
-/

namespace NostrSearch.Stats

open NostrSearch.Core NostrSearch.Lib

/-- What the `relays` report publishes per relay. -/
structure RelaySummary where
  advertisers : ℕ
  lastSeen : ℕ

/-- What the same relay in another report adds. -/
def RelayStats.absorb (p : RelayParsers) (e other : RelayStats) : RelayStats :=
  let hll := e.hll.merge other.hll
  { advertisers := p.len hll
    lastSeen := max e.lastSeen other.lastSeen
    hll := hll }

namespace Relays

section defs

variable (p : RelayParsers)

/-- One turn of the loop of `merge`. -/
def mergeOne (other s : Relays) (url : String) : Relays :=
  match other.data.lookup url with
  | none => s
  | some os =>
    if s.isFull url then s
    else { data := atEntry s.data url RelayStats.default fun e => e.absorb p os }

/-- `merge`, which goes through the other map in some order. -/
def Merges (s other v : Relays) : Prop :=
  ∃ order : List String, order.Nodup ∧ (∀ url, url ∈ order ↔ url ∈ other.data) ∧
    v = order.foldl (mergeOne p other) s

/-- The URL that a tag names. -/
def urlOf (raw : String) : Option String :=
  (normalizeRelayUrl p.toLowercase p.isIp raw.toList).map String.ofList

/-- The advertisements of a relay list. -/
def ads (h : Handed) : List (String × Handed) :=
  (advertised h.ev).filterMap fun raw => (urlOf p raw).map fun url => (url, h)

/-- One advertisement. -/
def take (s : Relays) (ad : String × Handed) : Relays :=
  if s.isFull ad.1 then s
  else { data := atEntry s.data ad.1 RelayStats.default (RelayStats.advertise p ad.2.ev ad.2.ctx) }

/-- What comes of folding relay lists and merging reports. -/
def Reports (r : Recipe Handed) (s : Relays) : Prop :=
  r.Yields default (fun s h => (observe p h.ev h.ctx s).1) (Merges p) s

end defs

/-- `ranked`. -/
def ranked (s : Relays) : List (String × ℕ) := ranking s.data RelayStats.advertisers

/-- `snapshot`: the sketch stays behind. -/
def snapshot (s : Relays) : Finmap fun _ : String => RelaySummary :=
  mapBuckets s.data { advertisers := 0, lastSeen := 0 } fun e =>
    { advertisers := e.advertisers, lastSeen := e.lastSeen }

/-- `ranked` goes through the hash map in any order. -/
theorem ranked_of_walk {s : Relays} {walk : List (String × RelayStats)} (h : IsWalk s.data walk) :
    (walk.map fun e => (e.1, e.2.advertisers)).insertionSort Ranks = s.ranked :=
  sort_walk h

variable {p : RelayParsers} {s t : Relays}

theorem observeTag_fst (h : Handed) (acc : Relays × Bool) (raw : String) :
    (observeTag p h.ev h.ctx acc raw).1 =
      ((urlOf p raw).map fun url => (url, h)).elim acc.1 (take p acc.1) := by
  unfold observeTag urlOf
  cases (normalizeRelayUrl p.toLowercase p.isIp raw.toList).map String.ofList with
  | none => rfl
  | some url =>
    show (if acc.1.isFull url then acc else _).1 = take p acc.1 (url, h)
    unfold take
    cases acc.1.isFull url <;> rfl

theorem observe_eq (h : Handed) (s : Relays) :
    (observe p h.ev h.ctx s).1 = (ads p h).foldl (take p) s := by
  have hloop : ∀ (tags : List String) (acc : Relays × Bool),
      (tags.foldl (observeTag p h.ev h.ctx) acc).1 =
        (tags.filterMap fun raw => (urlOf p raw).map fun url => (url, h)).foldl (take p) acc.1 := by
    intro tags
    induction tags with
    | nil => exact fun acc => rfl
    | cons raw tags ih =>
      intro acc
      rw [List.foldl_cons, ih, observeTag_fst, List.filterMap_cons]
      cases (urlOf p raw).map fun url => (url, h) with
      | none => rfl
      | some ad => rfl
  exact hloop _ _

/-! ## Levels -/

/-- The registers and the date of each relay, and nothing where there is none. -/
abbrev Levels := String → WithBot ((Fin REGISTERS → ℕ) × ℕ)

def level (s : Relays) : Levels := fun url =>
  (s.data.lookup url).elim ⊥ fun e => ((e.hll.reg, e.lastSeen) : (Fin REGISTERS → ℕ) × ℕ)

/-- What an advertisement raises. -/
def adLevel (ad : String × Handed) : Levels := fun url =>
  if url = ad.1 then ((Hll.keyReg ad.2.ctx.author, ad.2.ev.createdAt) : (Fin REGISTERS → ℕ) × ℕ)
  else ⊥

/-- The estimates are those of the sketches. -/
def Estimated (p : RelayParsers) (s : Relays) : Prop :=
  ∀ url e, s.data.lookup url = some e → e.advertisers = p.len e.hll

theorem mem_iff_level {url : String} : url ∈ s.data ↔ level s url ≠ ⊥ := by
  rw [level, ← Finmap.lookup_isSome]
  cases s.data.lookup url with
  | none => exact iff_of_false Bool.false_ne_true fun h => h rfl
  | some e => exact iff_of_true rfl WithBot.coe_ne_bot

theorem eq_of_level (hs : Estimated p s) (ht : Estimated p t) (h : level s = level t) : s = t := by
  cases s with | mk data =>
  cases t with | mk data' =>
  rw [Relays.mk.injEq]
  refine Finmap.ext_lookup fun url => ?_
  have hurl := congrFun h url
  unfold level at hurl
  cases hd : data.lookup url with
  | none =>
    cases hd' : data'.lookup url with
    | none => rfl
    | some e' =>
      rw [hd, hd'] at hurl
      exact absurd hurl WithBot.bot_ne_coe
  | some e =>
    cases hd' : data'.lookup url with
    | none =>
      rw [hd, hd'] at hurl
      exact absurd hurl WithBot.coe_ne_bot
    | some e' =>
      rw [hd, hd'] at hurl
      obtain ⟨hreg, hseen⟩ := Prod.mk.inj (WithBot.coe_injective hurl)
      have hhll := Hll.eq_of_reg hreg
      have hest := hs url e hd
      have hest' := ht url e' hd'
      cases e with | mk a l k =>
      cases e' with | mk a' l' k' =>
      dsimp only at hhll hseen hest hest'
      rw [hest, hest', hhll, hseen]

theorem level_default : level default = ⊥ := by
  funext url
  unfold level default
  rw [Finmap.lookup_empty]
  rfl

theorem estimated_default : Estimated p default := by
  intro url e h
  rw [default, Finmap.lookup_empty] at h
  cases h

/-- Nothing is below what an entry begins with. -/
theorem default_sup (x : (Fin REGISTERS → ℕ) × ℕ) :
    (RelayStats.default.hll.reg, RelayStats.default.lastSeen) ⊔ x = x := by
  refine sup_eq_right.mpr ⟨fun i => ?_, Nat.zero_le _⟩
  show Hll.default.reg i ≤ x.1 i
  rw [Hll.reg_default]
  exact Nat.zero_le _

/-- An entry that is made or changed, where there is room. -/
theorem level_atEntry (s : Relays) (url : String) (f : RelayStats → RelayStats)
    (x : (Fin REGISTERS → ℕ) × ℕ)
    (hf : ∀ e, ((f e).hll.reg, (f e).lastSeen) = (e.hll.reg, e.lastSeen) ⊔ x) :
    level { data := atEntry s.data url RelayStats.default f } =
      level s ⊔ fun u => if u = url then (x : WithBot ((Fin REGISTERS → ℕ) × ℕ)) else ⊥ := by
  funext u
  rw [Pi.sup_apply, level, level]
  by_cases hu : u = url
  · rw [hu, lookup_atEntry_self, Option.elim_some, if_pos rfl, hf, WithBot.coe_sup]
    cases s.data.lookup url with
    | none =>
      rw [Option.getD_none, Option.elim_none, bot_sup_eq, ← WithBot.coe_sup, default_sup]
    | some e => rfl
  · rw [lookup_atEntry_of_ne hu, if_neg hu, sup_bot_eq]

theorem estimated_atEntry (hs : Estimated p s) (url : String) {f : RelayStats → RelayStats}
    (hf : ∀ e, (f e).advertisers = p.len (f e).hll) :
    Estimated p { data := atEntry s.data url RelayStats.default f } := by
  intro u e he
  by_cases hu : u = url
  · rw [hu, lookup_atEntry_self, Option.some.injEq] at he
    rw [← he]
    exact hf _
  · rw [lookup_atEntry_of_ne hu] at he
    exact hs u e he

theorem level_take {ad : String × Handed} (h : s.isFull ad.1 = false) :
    level (take p s ad) = level s ⊔ adLevel ad := by
  rw [take, if_neg (by rw [h]; exact Bool.false_ne_true)]
  refine level_atEntry s ad.1 _ _ fun e => ?_
  rw [RelayStats.advertise, Prod.mk_sup_mk, Hll.reg_insert]

theorem level_mergeOne {other : Relays} {url : String} {os : RelayStats}
    (hos : other.data.lookup url = some os) (h : s.isFull url = false) :
    level (mergeOne p other s url) =
      level s ⊔ fun u => if u = url then level other url else ⊥ := by
  rw [mergeOne, hos]
  dsimp only
  rw [if_neg (by rw [h]; exact Bool.false_ne_true)]
  have hlevel := level_atEntry s url (fun e => e.absorb p os) (os.hll.reg, os.lastSeen)
    fun e => by rw [RelayStats.absorb, Prod.mk_sup_mk, Hll.reg_merge]
  rw [hlevel]
  unfold level
  rw [hos]
  rfl

theorem estimated_take (hs : Estimated p s) (ad : String × Handed) : Estimated p (take p s ad) := by
  unfold take
  split
  · exact hs
  · exact estimated_atEntry hs ad.1 fun e => rfl

theorem estimated_mergeOne (hs : Estimated p s) (other : Relays) (url : String) :
    Estimated p (mergeOne p other s url) := by
  unfold mergeOne
  split
  · exact hs
  · split
    · exact hs
    · exact estimated_atEntry hs url fun e => rfl

/-! ## Where there is room -/

section room

variable {U : Finset String}

theorem isFull_eq_false (hkeys : s.data.keys ⊆ U) (hU : U.card ≤ MAX_RELAYS) {url : String}
    (hurl : url ∈ U) : s.isFull url = false := by
  rw [isFull, decide_eq_false_iff_not]
  rintro ⟨hnew, hfull⟩
  have hlt : s.data.keys.card < U.card := by
    refine Finset.card_lt_card ((Finset.ssubset_iff_of_subset hkeys).mpr ⟨url, hurl, ?_⟩)
    rwa [Finmap.mem_keys]
  omega

theorem keys_take (s : Relays) (ad : String × Handed) :
    (take p s ad).data.keys ⊆ insert ad.1 s.data.keys := by
  unfold take
  split
  · exact Finset.subset_insert _ _
  · exact (keys_atEntry).subset

theorem keys_mergeOne (other s : Relays) (url : String) :
    (mergeOne p other s url).data.keys ⊆ insert url s.data.keys := by
  unfold mergeOne
  split
  · exact Finset.subset_insert _ _
  · split
    · exact Finset.subset_insert _ _
    · exact (keys_atEntry).subset

/-- Advertisements for which there is room. -/
theorem foldl_take (hU : U.card ≤ MAX_RELAYS) {ads : List (String × Handed)}
    (hads : ∀ ad ∈ ads, ad.1 ∈ U) (hkeys : s.data.keys ⊆ U) (hs : Estimated p s) :
    (ads.foldl (take p) s).data.keys ⊆ U ∧ Estimated p (ads.foldl (take p) s) ∧
      ∀ c, level (ads.foldl (take p) s) ≤ c ↔ level s ≤ c ∧ ∀ ad ∈ ads, adLevel ad ≤ c := by
  induction ads generalizing s with
  | nil => exact ⟨hkeys, hs, fun c => (and_iff_left (List.forall_mem_nil _)).symm⟩
  | cons ad ads ih =>
    obtain ⟨had, hads⟩ := List.forall_mem_cons.mp hads
    have hkeys' : (take p s ad).data.keys ⊆ U :=
      (keys_take s ad).trans (Finset.insert_subset had hkeys)
    obtain ⟨hsub, hest, hle⟩ := ih hads hkeys' (estimated_take hs ad)
    refine ⟨hsub, hest, fun c => ?_⟩
    rw [List.foldl_cons, hle, level_take (isFull_eq_false hkeys hU had), sup_le_iff,
      List.forall_mem_cons, and_assoc]

/-- Relays of another report for which there is room. -/
theorem foldl_mergeOne (hU : U.card ≤ MAX_RELAYS) {other : Relays} {order : List String}
    (horder : ∀ url ∈ order, url ∈ U ∧ url ∈ other.data) (hkeys : s.data.keys ⊆ U)
    (hs : Estimated p s) :
    (order.foldl (mergeOne p other) s).data.keys ⊆ U ∧
      Estimated p (order.foldl (mergeOne p other) s) ∧
      ∀ c, level (order.foldl (mergeOne p other) s) ≤ c ↔
        level s ≤ c ∧ ∀ url ∈ order, level other url ≤ c url := by
  induction order generalizing s with
  | nil => exact ⟨hkeys, hs, fun c => (and_iff_left (List.forall_mem_nil _)).symm⟩
  | cons url order ih =>
    obtain ⟨⟨hurl, hmem⟩, horder⟩ := List.forall_mem_cons.mp horder
    have hkeys' : (mergeOne p other s url).data.keys ⊆ U :=
      (keys_mergeOne other s url).trans (Finset.insert_subset hurl hkeys)
    obtain ⟨hsub, hest, hle⟩ := ih horder hkeys' (estimated_mergeOne hs other url)
    obtain ⟨os, hos⟩ := Finmap.mem_iff.mp hmem
    have hone : ∀ c : Levels, (fun u => if u = url then level other url else ⊥) ≤ c ↔
        level other url ≤ c url := by
      intro c
      constructor
      · intro h
        have hu := h url
        dsimp only at hu
        rwa [if_pos rfl] at hu
      · intro h u
        dsimp only
        split
        case isTrue hu => rwa [hu]
        case isFalse => exact bot_le
    refine ⟨hsub, hest, fun c => ?_⟩
    rw [List.foldl_cons, hle, level_mergeOne hos (isFull_eq_false hkeys hU hurl), sup_le_iff, hone,
      List.forall_mem_cons, and_assoc]

/-- A merge joins. -/
theorem merges_spec (hU : U.card ≤ MAX_RELAYS) {other v : Relays} (hkeys : s.data.keys ⊆ U)
    (hother : other.data.keys ⊆ U) (hs : Estimated p s) (h : Merges p s other v) :
    v.data.keys ⊆ U ∧ Estimated p v ∧ ∀ c, level v ≤ c ↔ level s ≤ c ∧ level other ≤ c := by
  obtain ⟨order, -, hmem, rfl⟩ := h
  have horder : ∀ url ∈ order, url ∈ U ∧ url ∈ other.data := fun url hurl =>
    ⟨hother (Finmap.mem_keys.mpr ((hmem url).mp hurl)), (hmem url).mp hurl⟩
  obtain ⟨hsub, hest, hle⟩ := foldl_mergeOne hU horder hkeys hs
  refine ⟨hsub, hest, fun c => ?_⟩
  rw [hle]
  refine and_congr_right fun _ => ⟨fun hall url => ?_, fun hall url _ => hall url⟩
  by_cases hurl : url ∈ other.data
  · exact hall url ((hmem url).mpr hurl)
  · rw [mem_iff_level, not_not] at hurl
    rw [hurl]
    exact bot_le

/-- What a report holds is the join of the advertisements, however it is put together. -/
theorem reports_spec (hU : U.card ≤ MAX_RELAYS) {r : Recipe Handed} {v : Relays}
    (h : Reports p r v) (hads : ∀ x ∈ r.items, ∀ ad ∈ ads p x, ad.1 ∈ U) :
    v.data.keys ⊆ U ∧ Estimated p v ∧
      ∀ c, level v ≤ c ↔ ∀ x ∈ r.items, ∀ ad ∈ ads p x, adLevel ad ≤ c := by
  induction h with
  | new =>
    refine ⟨Finset.empty_subset _, estimated_default, fun c => ?_⟩
    rw [level_default, Recipe.items]
    exact iff_of_true bot_le (List.forall_mem_nil _)
  | fold x hr ih =>
    rw [Recipe.items, List.forall_mem_append, List.forall_mem_singleton] at hads
    obtain ⟨hkeys, hest, hle⟩ := ih hads.1
    obtain ⟨hkeys', hest', hle'⟩ := foldl_take hU hads.2 hkeys hest
    rw [← observe_eq] at hkeys' hest' hle'
    refine ⟨hkeys', hest', fun c => ?_⟩
    rw [hle', hle, Recipe.items, List.forall_mem_append, List.forall_mem_singleton]
  | merge hr ht h ihr iht =>
    rw [Recipe.items, List.forall_mem_append] at hads
    obtain ⟨hkeys, hest, hle⟩ := ihr hads.1
    obtain ⟨hkeys', -, hle'⟩ := iht hads.2
    obtain ⟨hsub, hest', hjoin⟩ := merges_spec hU hkeys hkeys' hest h
    refine ⟨hsub, hest', fun c => ?_⟩
    rw [hjoin, hle, hle', Recipe.items, List.forall_mem_append]

end room

/-! ## What is held of a relay -/

theorem reg_foldl_insert (keys : List Hash32) (k : Hll) (c : Fin REGISTERS → ℕ) :
    (keys.foldl Hll.insert k).reg ≤ c ↔ k.reg ≤ c ∧ ∀ key ∈ keys, Hll.keyReg key ≤ c := by
  induction keys generalizing k with
  | nil => exact (and_iff_left (List.forall_mem_nil _)).symm
  | cons key keys ih =>
    rw [List.foldl_cons, ih, Hll.reg_insert, sup_le_iff, List.forall_mem_cons, and_assoc]

/-- An entry is made of these advertisements: their authors, and the newest of them. -/
structure Counts (p : RelayParsers) (own : List Handed) (e : RelayStats) : Prop where
  advertisers : e.advertisers = p.len e.hll
  hll : e.hll = (own.map fun x => x.ctx.author).foldl Hll.insert Hll.default
  lastSeen : IsGreatest {t | ∃ x ∈ own, x.ev.createdAt = t} e.lastSeen

/-- The advertisements of one relay. -/
def ownAds (all : List (String × Handed)) (url : String) : List Handed :=
  (all.filter fun ad => ad.1 = url).map Prod.snd

theorem mem_ownAds {all : List (String × Handed)} {url : String} {x : Handed} :
    x ∈ ownAds all url ↔ (url, x) ∈ all := by
  rw [ownAds, List.mem_map]
  constructor
  · rintro ⟨ad, had, rfl⟩
    obtain ⟨had, hurl⟩ := List.mem_filter.mp had
    rwa [← of_decide_eq_true hurl]
  · exact fun h => ⟨(url, x), List.mem_filter.mpr ⟨h, decide_eq_true rfl⟩, rfl⟩

section entry

variable {v : Relays} {all : List (String × Handed)} {url : String} {e : RelayStats}

/-- A relay has no more than what all of its own advertisements are below. -/
theorem entry_le (hle : ∀ c, level v ≤ c ↔ ∀ ad ∈ all, adLevel ad ≤ c)
    (he : v.data.lookup url = some e) {x : WithBot ((Fin REGISTERS → ℕ) × ℕ)}
    (hx : ∀ h ∈ ownAds all url,
      (((Hll.keyReg h.ctx.author, h.ev.createdAt) : (Fin REGISTERS → ℕ) × ℕ) :
        WithBot ((Fin REGISTERS → ℕ) × ℕ)) ≤ x) :
    (((e.hll.reg, e.lastSeen) : (Fin REGISTERS → ℕ) × ℕ) :
      WithBot ((Fin REGISTERS → ℕ) × ℕ)) ≤ x := by
  have hbound : ∀ ad ∈ all, adLevel ad ≤ Function.update (level v) url x := by
    intro ad had u
    by_cases hu : u = url
    · rw [hu, Function.update_self, adLevel]
      split
      case isTrue hurl => exact hx ad.2 (mem_ownAds.mpr (by rw [hurl]; exact had))
      case isFalse => exact bot_le
    · rw [Function.update_of_ne hu]
      exact (hle (level v)).mp le_rfl ad had u
  have hlevel := (hle _).mpr hbound url
  rwa [Function.update_self, level, he] at hlevel

/-- What a join of advertisements has of a relay is what its own come to. -/
theorem counts_of_level (hest : Estimated p v)
    (hle : ∀ c, level v ≤ c ↔ ∀ ad ∈ all, adLevel ad ≤ c) (he : v.data.lookup url = some e) :
    Counts p (ownAds all url) e := by
  have hown : ∀ h ∈ ownAds all url,
      Hll.keyReg h.ctx.author ≤ e.hll.reg ∧ h.ev.createdAt ≤ e.lastSeen := by
    intro h hh
    have hlevel := (hle (level v)).mp le_rfl (url, h) (mem_ownAds.mp hh) url
    rw [adLevel, if_pos rfl, level, he] at hlevel
    exact WithBot.coe_le_coe.mp hlevel
  refine ⟨hest url e he, Hll.eq_of_reg (le_antisymm ?_ ?_), ?_, ?_⟩
  · have hbound := entry_le hle he
      (x := (((ownAds all url).map fun x => x.ctx.author).foldl Hll.insert Hll.default |>.reg,
        e.lastSeen)) fun h hh => WithBot.coe_le_coe.mpr
          ⟨((reg_foldl_insert _ _ _).mp le_rfl).2 _ (List.mem_map_of_mem hh), (hown h hh).2⟩
    exact (WithBot.coe_le_coe.mp hbound).1
  · rw [reg_foldl_insert]
    refine ⟨fun i => ?_, fun key hkey => ?_⟩
    · rw [Hll.reg_default]
      exact Nat.zero_le _
    · obtain ⟨h, hh, rfl⟩ := List.mem_map.mp hkey
      exact (hown h hh).1
  · by_contra hnone
    have hlt : ∀ h ∈ ownAds all url, h.ev.createdAt < e.lastSeen := fun h hh =>
      lt_of_le_of_ne (hown h hh).2 fun heq => hnone ⟨h, hh, heq⟩
    cases hlist : ownAds all url with
    | nil =>
      -- an entry without advertisements would be none
      have hbot := entry_le hle he (x := ⊥) fun h hh => by rw [hlist] at hh; cases hh
      exact absurd (le_bot_iff.mp hbot) WithBot.coe_ne_bot
    | cons h hs =>
      have hbound := entry_le hle he (x := ((e.hll.reg, e.lastSeen - 1) : (Fin REGISTERS → ℕ) × ℕ))
        fun h hh => WithBot.coe_le_coe.mpr ⟨(hown h hh).1, Nat.le_sub_one_of_lt (hlt h hh)⟩
      have hle' : e.lastSeen ≤ e.lastSeen - 1 := (WithBot.coe_le_coe.mp hbound).2
      have hpos := hlt h (by rw [hlist]; exact List.mem_cons_self)
      omega
  · rintro t ⟨h, hh, rfl⟩
    exact (hown h hh).2

end entry

/-- The URLs of some advertisements. -/
def urls (all : List (String × Handed)) : Finset String := (all.map Prod.fst).toFinset

theorem mem_urls {all : List (String × Handed)} {url : String} :
    url ∈ urls all ↔ ∃ x, (url, x) ∈ all := by
  rw [urls, List.mem_toFinset, List.mem_map]
  constructor
  · rintro ⟨ad, had, rfl⟩
    exact ⟨ad.2, had⟩
  · rintro ⟨x, hx⟩
    exact ⟨(url, x), hx, rfl⟩

/-- While there is room, a report is the join of all advertisements. -/
theorem reports_join {r : Recipe Handed} {v : Relays} (h : Reports p r v)
    (hroom : (urls (r.items.flatMap (ads p))).card ≤ MAX_RELAYS) :
    v.data.keys = urls (r.items.flatMap (ads p)) ∧ Estimated p v ∧
      ∀ c, level v ≤ c ↔ ∀ ad ∈ r.items.flatMap (ads p), adLevel ad ≤ c := by
  have hads : ∀ x ∈ r.items, ∀ ad ∈ ads p x, ad.1 ∈ urls (r.items.flatMap (ads p)) :=
    fun x hx ad had => mem_urls.mpr ⟨ad.2, List.mem_flatMap.mpr ⟨x, hx, had⟩⟩
  obtain ⟨hkeys, hest, hle⟩ := reports_spec hroom h hads
  have hle' : ∀ c, level v ≤ c ↔ ∀ ad ∈ r.items.flatMap (ads p), adLevel ad ≤ c := by
    intro c
    rw [hle, List.forall_mem_flatMap]
  refine ⟨hkeys.antisymm fun url hurl => ?_, hest, hle'⟩
  obtain ⟨x, hx⟩ := mem_urls.mp hurl
  rw [Finmap.mem_keys, mem_iff_level]
  intro hbot
  have hlevel := (hle' (level v)).mp le_rfl _ hx url
  rw [hbot, adLevel, if_pos rfl] at hlevel
  exact WithBot.coe_ne_bot (le_bot_iff.mp hlevel)

/-- **Counting is a join.** As long as there is room for all relays, a report holds each that is
advertised, with exactly its advertisers and its newest list, and it does so however the lists are
ordered, repeated, split over partial reports and merged. -/
theorem counts_exact {r : Recipe Handed} {v : Relays} (h : Reports p r v)
    (hroom : (urls (r.items.flatMap (ads p))).card ≤ MAX_RELAYS) :
    v.data.keys = urls (r.items.flatMap (ads p)) ∧
      (∀ url e, v.data.lookup url = some e →
        Counts p (ownAds (r.items.flatMap (ads p)) url) e) ∧
      ∀ t w, Reports p t w → (∀ x, x ∈ t.items ↔ x ∈ r.items) → w = v := by
  obtain ⟨hkeys, hest, hle⟩ := reports_join h hroom
  refine ⟨hkeys, fun url e he => counts_of_level hest hle he, fun t w ht hitems => ?_⟩
  have hads : ∀ ad, ad ∈ t.items.flatMap (ads p) ↔ ad ∈ r.items.flatMap (ads p) := by
    intro ad
    rw [List.mem_flatMap, List.mem_flatMap]
    exact exists_congr fun x => and_congr_left' (hitems x)
  have hurls : urls (t.items.flatMap (ads p)) = urls (r.items.flatMap (ads p)) := by
    ext url
    rw [mem_urls, mem_urls]
    exact exists_congr fun x => hads (url, x)
  obtain ⟨-, hest', hle'⟩ := reports_join ht (by rwa [hurls])
  refine eq_of_level hest' hest (le_antisymm ?_ ?_)
  · exact (hle' _).mpr fun ad had => (hle (level v)).mp le_rfl ad ((hads ad).mp had)
  · exact (hle _).mpr fun ad had => (hle' (level w)).mp le_rfl ad ((hads ad).mpr had)

/-- Parsers of ASCII, and the number of registers that are set for an estimate. -/
private def asciiParsers : RelayParsers where
  toLowercase := List.map Char.toLower
  isIp := fun _ => false
  len := fun k => k.registers.toList.countP fun r => r ≠ 0

private def relayList : Handed where
  ev :=
    { id := "", pubkey := "", createdAt := 1700000000, kind := 10002
      tags := [["r", "wss://relay.damus.io"]], content := "", sig := "" }
  ctx :=
    { now := 1700000000, author := Vector.replicate 32 0, eventId := Vector.replicate 32 0
      world := World.empty }

/-- One list in two reports that are merged. -/
theorem list_counts_once :
    ∃ v, Reports asciiParsers (.merge (.fold (.fold .new relayList) relayList) .new) v ∧
      v.data.keys = urls ([relayList, relayList].flatMap (ads asciiParsers)) := by
  have hreport : Reports asciiParsers (.merge (.fold (.fold .new relayList) relayList) .new) _ :=
    .merge (.fold relayList (.fold relayList .new)) .new
      ⟨[], List.nodup_nil, fun url => iff_of_false List.not_mem_nil Finmap.notMem_empty, rfl⟩
  have hone : (ads asciiParsers relayList).length ≤ 1 := List.length_filterMap_le _ _
  refine ⟨_, hreport, (counts_exact hreport ?_).1⟩
  refine (List.toFinset_card_le _).trans ?_
  show (List.map Prod.fst (ads asciiParsers relayList ++ (ads asciiParsers relayList ++ []))).length
    ≤ MAX_RELAYS
  rw [List.length_map, List.length_append, List.append_nil, MAX_RELAYS]
  omega

/-! ## Where there is not -/

/-- A relay is advertised before others have taken all the room. -/
def Early (all : List (String × Handed)) (url : String) : Prop :=
  ∃ before x after, all = before ++ (url, x) :: after ∧ (urls before).card < MAX_RELAYS

/-- What holds after some advertisements. -/
structure Taken (p : RelayParsers) (all : List (String × Handed)) (s : Relays) : Prop where
  estimated : Estimated p s
  keys : s.data.keys ⊆ urls all
  all_of_lt : s.data.keys.card < MAX_RELAYS → s.data.keys = urls all
  card_le : s.data.keys.card ≤ MAX_RELAYS
  early : ∀ url, url ∈ s.data ↔ Early all url
  level : ∀ c, level s ≤ c ↔ ∀ ad ∈ all, ad.1 ∈ s.data → adLevel ad ≤ c

theorem urls_concat (all : List (String × Handed)) (ad : String × Handed) :
    urls (all ++ [ad]) = insert ad.1 (urls all) := by
  rw [urls, List.map_append, List.toFinset_append, Finset.union_comm]
  rfl

theorem early_concat {all : List (String × Handed)} {ad : String × Handed} {url : String} :
    Early (all ++ [ad]) url ↔
      Early all url ∨ url = ad.1 ∧ (urls all).card < MAX_RELAYS := by
  constructor
  · rintro ⟨before, x, after, heq, hlt⟩
    rcases List.eq_nil_or_concat after with rfl | ⟨after, last, rfl⟩
    · obtain ⟨rfl, had⟩ := List.append_inj' heq rfl
      cases had
      exact Or.inr ⟨rfl, hlt⟩
    · rw [List.concat_eq_append, ← List.cons_append, ← List.append_assoc] at heq
      obtain ⟨rfl, -⟩ := List.append_inj' heq rfl
      exact Or.inl ⟨before, x, after, rfl, hlt⟩
  · rintro (⟨before, x, after, rfl, hlt⟩ | ⟨rfl, hlt⟩)
    · exact ⟨before, x, after ++ [ad], by rw [List.append_assoc, List.cons_append], hlt⟩
    · exact ⟨all, ad.2, [], rfl, hlt⟩

theorem Taken.take {all : List (String × Handed)} (h : Taken p all s) (ad : String × Handed) :
    Taken p (all ++ [ad]) (take p s ad) := by
  cases hfull : s.isFull ad.1 with
  | true =>
    have hsame : Relays.take p s ad = s := by rw [Relays.take, if_pos hfull]
    rw [isFull, decide_eq_true_eq] at hfull
    obtain ⟨hnew, hcard⟩ := hfull
    have hmany : ¬ (urls all).card < MAX_RELAYS :=
      not_lt.mpr (hcard.trans (Finset.card_le_card h.keys))
    rw [hsame]
    refine ⟨h.estimated, ?_, fun hlt => absurd hlt (not_lt.mpr hcard), h.card_le, fun url => ?_,
      fun c => ?_⟩
    · rw [urls_concat]
      exact h.keys.trans (Finset.subset_insert _ _)
    · rw [h.early, early_concat]
      exact (or_iff_left fun hlast => hmany hlast.2).symm
    · rw [h.level, List.forall_mem_append, List.forall_mem_singleton]
      exact (and_iff_left fun hmem => absurd hmem hnew).symm
  | false =>
    have hmem : ∀ url, url ∈ (Relays.take p s ad).data ↔ url = ad.1 ∨ url ∈ s.data := by
      intro url
      rw [Relays.take, if_neg (by rw [hfull]; exact Bool.false_ne_true)]
      exact mem_atEntry
    have hkeys : (Relays.take p s ad).data.keys = insert ad.1 s.data.keys := by
      ext url
      rw [Finmap.mem_keys, hmem, Finset.mem_insert, Finmap.mem_keys]
    have hlevel : ∀ c, Relays.level (Relays.take p s ad) ≤ c ↔
        Relays.level s ≤ c ∧ adLevel ad ≤ c := fun c => by rw [level_take hfull, sup_le_iff]
    rw [isFull, decide_eq_false_iff_not, not_and_or, not_not, not_le] at hfull
    -- it is there, or all relays so far are
    have hold : ad.1 ∈ s.data ∨ s.data.keys = urls all ∧ s.data.keys.card < MAX_RELAYS :=
      hfull.imp id fun hlt => ⟨h.all_of_lt hlt, hlt⟩
    refine ⟨estimated_take h.estimated ad, ?_, fun hlt => ?_, ?_, fun url => ?_, fun c => ?_⟩
    · rw [hkeys, urls_concat]
      exact Finset.insert_subset_insert _ h.keys
    · rw [hkeys, urls_concat, h.all_of_lt (lt_of_le_of_lt (Finset.card_le_card ?_) hlt)]
      rw [hkeys]
      exact Finset.subset_insert _ _
    · rw [hkeys]
      rcases hold with hin | ⟨-, hlt⟩
      · rw [Finset.insert_eq_of_mem (Finmap.mem_keys.mpr hin)]
        exact h.card_le
      · exact (Finset.card_insert_le _ _).trans hlt
    · rw [hmem, early_concat, h.early]
      rcases hold with hin | ⟨hall, hlt⟩
      · rw [h.early] at hin
        constructor
        · rintro (rfl | hearly)
          · exact Or.inl hin
          · exact Or.inl hearly
        · rintro (hearly | ⟨rfl, -⟩)
          · exact Or.inr hearly
          · exact Or.inl rfl
      · rw [hall] at hlt
        rw [or_comm, and_iff_left hlt]
    · rw [hlevel, h.level, List.forall_mem_append, List.forall_mem_singleton]
      refine and_congr (forall₂_congr fun ad' had' => ?_) ⟨fun hc _ => hc, fun hc => hc ?_⟩
      · rw [hmem]
        refine imp_congr_left ⟨Or.inr, ?_⟩
        rintro (heq | hin)
        · rcases hold with hin | ⟨hall, -⟩
          · rwa [heq]
          · rw [← Finmap.mem_keys, hall]
            exact mem_urls.mpr ⟨ad'.2, had'⟩
        · exact hin
      · exact (hmem ad.1).mpr (Or.inl rfl)

theorem taken (all : List (String × Handed)) : Taken p all (all.foldl (Relays.take p) default) := by
  induction all using List.reverseRecOn with
  | nil =>
    refine ⟨estimated_default, Finset.empty_subset _, fun _ => rfl, Nat.zero_le _, fun url => ?_,
      fun c => ?_⟩
    · refine iff_of_false Finmap.notMem_empty ?_
      rintro ⟨before, x, after, heq, -⟩
      exact absurd heq.symm (List.append_ne_nil_of_right_ne_nil _ (List.cons_ne_nil _ _))
    · rw [List.foldl_nil, level_default]
      exact iff_of_true bot_le (List.forall_mem_nil _)
  | append_singleton all ad ih =>
    rw [List.foldl_append, List.foldl_cons, List.foldl_nil]
    exact ih.take ad

theorem foldl_observe (items : List Handed) (s : Relays) :
    items.foldl (fun s h => (observe p h.ev h.ctx s).1) s =
      (items.flatMap (ads p)).foldl (Relays.take p) s := by
  induction items generalizing s with
  | nil => rfl
  | cons h items ih => rw [List.foldl_cons, ih, observe_eq, List.flatMap_cons, List.foldl_append]

/-- **The relays advertised first.** Folded in one go, a report holds the relays that are advertised
before `MAX_RELAYS` others are, no more of them than that, and each is counted in full however much
is advertised later. -/
theorem first_relays (p : RelayParsers) (items : List Handed) :
    let v := items.foldl (fun s h => (observe p h.ev h.ctx s).1) default
    let all := items.flatMap (ads p)
    v.data.keys.card = min MAX_RELAYS (urls all).card ∧ (∀ url, url ∈ v.data ↔ Early all url) ∧
      ∀ url e, v.data.lookup url = some e → Counts p (ownAds all url) e := by
  intro v all
  have h : Taken p all v := by
    have htaken := taken (p := p) all
    rwa [← foldl_observe] at htaken
  refine ⟨?_, h.early, fun url e he => ?_⟩
  · rcases Nat.lt_or_ge v.data.keys.card MAX_RELAYS with hlt | hge
    · have hkeys := h.all_of_lt hlt
      rw [hkeys] at hlt ⊢
      exact (min_eq_right hlt.le).symm
    · have hle := Finset.card_le_card h.keys
      have hcard := h.card_le
      omega
  · have hle : ∀ c, level v ≤ c ↔
        ∀ ad ∈ all.filter fun ad => decide (ad.1 ∈ v.data), adLevel ad ≤ c := by
      intro c
      rw [h.level]
      simp only [List.mem_filter, decide_eq_true_eq, and_imp]
    have hcounts := counts_of_level h.estimated hle he
    have hurl : url ∈ v.data := Finmap.mem_of_lookup_eq_some he
    have hown : ownAds (all.filter fun ad => decide (ad.1 ∈ v.data)) url = ownAds all url := by
      rw [ownAds, ownAds, List.filter_filter]
      congr 1
      refine List.filter_congr fun ad _ => ?_
      by_cases heq : ad.1 = url
      · rw [heq, decide_eq_true hurl, Bool.and_true]
      · rw [decide_eq_false heq, Bool.false_and]
    rwa [hown] at hcounts

end Relays

end NostrSearch.Stats
