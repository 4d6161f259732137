import NostrSearch.Lib.Totals
import NostrSearch.Stats.NewUsers
import NostrSearch.Stats.Solo

/-!
# The histogram and the first-seen store

The counts of `new_users` are checkpointed with the analysis; the timestamps they count are written
through to the first-seen store. This file runs the two side by side through the life of a node.

`histogram_iff` says when the counts of an attached analysis are the histogram of the store in
every state of such a run. A restart is the only step that can break it: `attach` does not recount,
so the counts that come back are those of the store as it was when the checkpoint was written, and
none at all when the checkpoint cannot be used.
-/

namespace NostrSearch.Stats

open NostrSearch.Core NostrSearch.Lib

namespace FirstSeen

/-- How many pubkeys were first seen in the bucket of `key`. -/
def countIn (f : FirstSeen) (start : ℕ → ℕ) (key : ℕ) : ℕ :=
  (f.db.keys.filter fun pk => (f.get pk).any fun ts => start ts = key).card

/-- What a timestamp counts for under `key`. -/
def weight (start : ℕ → ℕ) (key ts : ℕ) : ℕ := if start ts = key then 1 else 0

theorem countIn_eq_total (f : FirstSeen) (start : ℕ → ℕ) (key : ℕ) :
    f.countIn start key = total f.db (weight start key) := by
  unfold countIn total
  rw [Finset.card_filter]
  apply Finset.sum_congr rfl
  intro pk _
  rw [get]
  cases f.db.lookup pk with
  | none => rfl
  | some ts => simp [weight]

@[simp] theorem countIn_empty (start : ℕ → ℕ) (key : ℕ) : empty.countIn start key = 0 := by
  rw [countIn_eq_total]
  exact total_empty _

/-- Storing a timestamp takes the old one of that pubkey out of its bucket. -/
theorem countIn_put (f : FirstSeen) (pk : Pubkey) (ts : ℕ) (start : ℕ → ℕ) (key : ℕ) :
    (f.put pk ts).countIn start key + (f.get pk).elim 0 (weight start key) =
      f.countIn start key + weight start key ts := by
  rw [countIn_eq_total, countIn_eq_total]
  exact total_insert f.db (weight start key) pk ts

/-- A stored timestamp counts. -/
theorem weight_le_countIn {f : FirstSeen} {pk : Pubkey} {ts : ℕ} (h : f.get pk = some ts)
    (start : ℕ → ℕ) (key : ℕ) : weight start key ts ≤ f.countIn start key := by
  have hput := f.countIn_put pk ts start key
  have hmem : pk ∈ f.db.keys := Finmap.mem_keys.mpr (Finmap.mem_of_lookup_eq_some h)
  by_cases hts : start ts = key
  · have hpos : 0 < f.countIn start key := by
      apply Finset.card_pos.mpr
      refine ⟨pk, Finset.mem_filter.mpr ⟨hmem, ?_⟩⟩
      rw [h, Option.any_some]
      exact decide_eq_true hts
    rw [weight, if_pos hts]
    exact hpos
  · rw [weight, if_neg hts]
    exact Nat.zero_le _

theorem clear_eq_empty (f : FirstSeen) : f.clear = empty := by
  rw [clear, foldl_erase_sortedKeys, empty]

end FirstSeen

namespace NewUsers

/-- The counts of a state are the histogram of the store. -/
structure Counts (s : NewUsers) (f : FirstSeen) : Prop where
  daily : ∀ day, (s.daily.lookup day).getD 0 = f.countIn dayStart day
  monthly : ∀ month, (s.monthly.lookup month).getD 0 = f.countIn monthStart month

/-- Counts with the store they belong to: without the store there is nothing to count. -/
structure Sound (s : NewUsers) (f : FirstSeen) : Prop where
  counts : s.Counts f
  detached : s.attached = false → f = FirstSeen.empty

theorem counts_default : default.Counts FirstSeen.empty := by
  constructor
  · intro day
    rw [FirstSeen.countIn_empty]
    rfl
  · intro month
    rw [FirstSeen.countIn_empty]
    rfl

/-- One side of a new pubkey. -/
theorem count_new {m : Finmap fun _ : ℕ => ℕ} {f : FirstSeen} {start : ℕ → ℕ} {pk : Pubkey}
    (hm : ∀ key, (m.lookup key).getD 0 = f.countIn start key) (hnone : f.get pk = none) (ts key : ℕ) :
    ((shiftSlot m (start ts) 1).lookup key).getD 0 = (f.put pk ts).countIn start key := by
  have hput := f.countIn_put pk ts start key
  rw [hnone, Option.elim_none, FirstSeen.weight] at hput
  by_cases hkey : key = start ts
  · subst hkey
    rw [if_pos rfl] at hput
    have hcount := hm (start ts)
    rw [lookup_shiftSlot_self, hcount]
    omega
  · rw [if_neg (Ne.symm hkey)] at hput
    rw [lookup_shiftSlot_of_ne hkey, hm]
    omega

/-- One side of a pubkey that is seen earlier. -/
theorem count_earlier {m : Finmap fun _ : ℕ => ℕ} {f : FirstSeen} {start : ℕ → ℕ} {pk : Pubkey}
    {prev : ℕ} (hm : ∀ key, (m.lookup key).getD 0 = f.countIn start key)
    (hsome : f.get pk = some prev) (ts key : ℕ) :
    ((shiftSlot (shiftSlot m (start prev) (-1)) (start ts) 1).lookup key).getD 0 =
      (f.put pk ts).countIn start key := by
  have hput := f.countIn_put pk ts start key
  have hle := FirstSeen.weight_le_countIn hsome start key
  rw [hsome, Option.elim_some] at hput
  -- what is left after the old timestamp is taken out
  have hout : ((shiftSlot m (start prev) (-1)).lookup key).getD 0 =
      f.countIn start key - FirstSeen.weight start key prev := by
    unfold FirstSeen.weight at hle ⊢
    by_cases hkey : key = start prev
    · subst hkey
      rw [if_pos rfl] at hle ⊢
      rw [lookup_shiftSlot_self, hm]
      omega
    · rw [if_neg (Ne.symm hkey), lookup_shiftSlot_of_ne hkey, hm, Nat.sub_zero]
  have hin : ((shiftSlot (shiftSlot m (start prev) (-1)) (start ts) 1).lookup key).getD 0 =
      f.countIn start key - FirstSeen.weight start key prev + FirstSeen.weight start key ts := by
    rw [← hout]
    unfold FirstSeen.weight
    by_cases hkey : key = start ts
    · subst hkey
      rw [if_pos rfl, lookup_shiftSlot_self]
      omega
    · rw [if_neg (Ne.symm hkey), lookup_shiftSlot_of_ne hkey, Nat.add_zero]
  omega

/-- `observe` keeps the counts those of the store. -/
theorem sound_observe {s : NewUsers} {f : FirstSeen} (h : s.Sound f) (ev : NostrEvent)
    (ctx : AnalysisCtx) :
    (observe ev ctx f s).1.Sound (observe ev ctx f s).2.1 := by
  unfold observe
  by_cases hthrow : ev.usesThrowawayKey = true
  · rw [if_pos hthrow]
    exact h
  rw [if_neg hthrow]
  by_cases hatt : s.attached = true
  · rw [if_pos hatt]
    dsimp only
    have hattached : ∀ f' : FirstSeen, s.attached = false → f' = FirstSeen.empty := by
      intro f' hdet
      rw [hatt] at hdet
      cases hdet
    cases hget : f.get ctx.author with
    | none =>
      refine ⟨⟨?_, ?_⟩, hattached _⟩
      · exact fun day => count_new h.counts.daily hget ev.createdAt day
      · exact fun month => count_new h.counts.monthly hget ev.createdAt month
    | some prev =>
      dsimp only
      split
      · exact h
      · refine ⟨⟨?_, ?_⟩, hattached _⟩
        · exact fun day => count_earlier h.counts.daily hget ev.createdAt day
        · exact fun month => count_earlier h.counts.monthly hget ev.createdAt month
  · rw [if_neg hatt]
    exact h

theorem sound_attach {s : NewUsers} {f : FirstSeen} (h : s.Counts f) : (attach f s).Sound f :=
  ⟨⟨h.daily, h.monthly⟩, fun hdet => by cases hdet⟩

theorem sound_reset {s : NewUsers} {f : FirstSeen} (h : s.Sound f) :
    default.Sound (onReset s f) := by
  have hempty : onReset s f = FirstSeen.empty := by
    unfold onReset
    cases hatt : s.attached with
    | true => exact f.clear_eq_empty
    | false => exact h.detached hatt
  rw [hempty]
  exact ⟨counts_default, fun _ => rfl⟩

/-! ## The life of a node -/

/-- The counts of an attached analysis are the histogram of the store. -/
def Agrees (n : Solo NewUsers FirstSeen) : Prop :=
  ∀ e ∈ n.reg.entries, e.state.attached = true → e.state.Counts n.reg.ext

/-- The store whose histogram a restart brings back: as it was when the checkpoint was written,
or empty when there is none to be used. -/
def broughtBack (n : Solo NewUsers FirstSeen) : FirstSeen :=
  if (usable analysis (n.store "new_users")).isSome then n.atPersist else FirstSeen.empty

/-- A restart brings back the histogram the store has. -/
def UpToDate (n : Solo NewUsers FirstSeen) : SoloAction → Prop
  | .restart _ =>
    (∀ day, (broughtBack n).countIn dayStart day = n.reg.ext.countIn dayStart day) ∧
      ∀ month, (broughtBack n).countIn monthStart month = n.reg.ext.countIn monthStart month
  | _ => True

structure Inv (n : Solo NewUsers FirstSeen) : Prop where
  runs : ∃ s, n.Runs analysis s ∧ s.Sound n.reg.ext
  saved : ∀ sv, n.store "new_users" = some sv → ∀ st, sv.state = some st → st.Counts n.atPersist

theorem Inv.agrees {n : Solo NewUsers FirstSeen} (h : Inv n) : Agrees n := by
  obtain ⟨s, hruns, hsound⟩ := h.runs
  intro e he _
  rw [hruns.eq_of_mem he]
  exact hsound.counts

/-- What a restart takes from the checkpoint counts the store it brings back. -/
theorem counts_broughtBack {n : Solo NewUsers FirstSeen} (hn : Inv n) :
    ((usable analysis (n.store "new_users")).getD default).Counts (broughtBack n) := by
  unfold broughtBack
  cases husable : usable analysis (n.store "new_users") with
  | none => exact counts_default
  | some st =>
    rw [Option.getD_some, Option.isSome_some, if_pos rfl]
    obtain ⟨sv, hsv, hst⟩ := Option.bind_eq_some_iff.mp husable
    split at hst
    · exact hn.saved sv hsv st hst
    · cases hst

theorem inv_fresh : Inv (Solo.fresh analysis FirstSeen.empty) := by
  refine ⟨⟨default, Solo.runs_fresh analysis FirstSeen.empty, counts_default, fun _ => rfl⟩, ?_⟩
  intro sv hsv
  cases hsv

theorem inv_step {n n' : Solo NewUsers FirstSeen} {a : SoloAction} (hn : Inv n)
    (hok : UpToDate n a) (h : n.step analysis a = some n') : Inv n' := by
  obtain ⟨s, hruns, hsound⟩ := hn.runs
  cases a with
  | observe ev ctx =>
    obtain ⟨hruns', hext, hstore, hpersist⟩ := hruns.observe h
    refine ⟨⟨_, hruns', ?_⟩, ?_⟩
    · rw [hext]
      -- the store is written through, and the checkpoint stays behind
      exact sound_observe hsound ev ctx
    · rw [hstore, hpersist]
      exact hn.saved
  | persist =>
    obtain ⟨hruns', hext, hpersist, sv, hsv, hstate⟩ := hruns.persist h
    refine ⟨⟨s, hruns', ?_⟩, ?_⟩
    · rw [hext]
      exact hsound
    · intro sv' hsv' st hst
      -- the checkpoint counts the store there is at this moment
      have hsame : sv = sv' := Option.some.inj (hsv.symm.trans hsv')
      rw [← hsame, hstate, Option.some.injEq] at hst
      rw [hpersist, ← hst]
      exact ⟨hsound.counts.daily, hsound.counts.monthly⟩
  | restart now =>
    obtain ⟨hruns', hext, hstore, hpersist⟩ := Solo.runs_restart h
    have hback := counts_broughtBack hn
    refine ⟨⟨_, hruns', ?_⟩, ?_⟩
    · rw [hext]
      apply sound_attach
      constructor
      -- the counts are those of the checkpoint, and the store has the same
      · exact fun day => (hback.daily day).trans (hok.1 day)
      · exact fun month => (hback.monthly month).trans (hok.2 month)
    · rw [hstore, hpersist]
      exact hn.saved
  | lose =>
    cases h
    refine ⟨⟨s, hruns, hsound⟩, ?_⟩
    intro sv hsv
    cases hsv
  | unreadable =>
    cases h
    refine ⟨⟨s, hruns, hsound⟩, ?_⟩
    intro sv hsv st hst
    obtain ⟨sv₀, -, rfl⟩ := Option.map_eq_some_iff.mp hsv
    cases hst
  | otherEpoch epoch =>
    cases h
    refine ⟨⟨s, hruns, hsound⟩, ?_⟩
    intro sv hsv st hst
    obtain ⟨sv₀, hsv₀, rfl⟩ := Option.map_eq_some_iff.mp hsv
    exact hn.saved sv₀ hsv₀ st hst
  | attach =>
    obtain ⟨hruns', hext, hstore, hpersist⟩ := hruns.attach h
    refine ⟨⟨_, hruns', ?_⟩, ?_⟩
    · rw [hext]
      exact sound_attach hsound.counts
    · rw [hstore, hpersist]
      exact hn.saved
  | reset =>
    obtain ⟨hruns', hext, hstore, hpersist⟩ := hruns.reset rfl h
    refine ⟨⟨_, hruns', ?_⟩, ?_⟩
    · rw [hext]
      exact sound_reset hsound
    · rw [hstore, hpersist]
      exact hn.saved

/-- A restart that brings back another histogram leaves counts that are not those of the store. -/
theorem not_agrees_of_behind {n n' : Solo NewUsers FirstSeen} {a : SoloAction} (hn : Inv n)
    (hbad : ¬ UpToDate n a) (h : n.step analysis a = some n') : ¬ Agrees n' := by
  cases a with
  | restart now =>
    obtain ⟨⟨e, he, -, -, hstate⟩, hext, -, -⟩ := Solo.runs_restart h
    have hback := counts_broughtBack hn
    intro hagrees
    apply hbad
    have hcounts := hagrees e (by rw [he]; exact List.mem_singleton_self e) (by rw [hstate]; rfl)
    rw [hstate, hext] at hcounts
    constructor
    -- had the counts been those of the store, the checkpoint would have had them too
    · exact fun day => (hback.daily day).symm.trans (hcounts.daily day)
    · exact fun month => (hback.monthly month).symm.trans (hcounts.monthly month)
  | observe | persist | lose | unreadable | otherEpoch | attach | reset => exact absurd trivial hbad

/-- Along any life of a node, an attached `new_users` has the histogram of the stored first-seen
timestamps in every state, if and only if every restart brings back the histogram the store
has. -/
theorem histogram_iff (as : List SoloAction) :
    (∀ n, Visited (Solo.step analysis) (Solo.fresh analysis FirstSeen.empty) as n → Agrees n) ↔
      Along (Solo.step analysis) UpToDate (Solo.fresh analysis FirstSeen.empty) as := by
  have hkinds : ∀ a ∈ as, True := fun _ _ => trivial
  have hstep : ∀ n a n', Inv n → True → UpToDate n a → n.step analysis a = some n' → Inv n' :=
    fun n a n' hn _ hok h => inv_step hn hok h
  have hbad : ∀ n a n', Inv n → True → ¬ UpToDate n a → n.step analysis a = some n' →
      ¬ Agrees n' := fun n a n' hn _ hok h => not_agrees_of_behind hn hok h
  exact visited_iff_along hstep (fun n hn => hn.agrees) hbad inv_fresh hkinds

/-! ### A user seen after the last checkpoint -/

private def firstNote : NostrEvent :=
  { id := "", pubkey := "", createdAt := 0, kind := 1, tags := [], content := "", sig := "" }

private def byUser (seed : UInt8) : AnalysisCtx :=
  { now := 0, author := Vector.replicate 32 seed, eventId := Vector.replicate 32 0
    world := World.empty }

private def crashAfterSecond : List SoloAction :=
  [.attach, .observe firstNote (byUser 0x11), .persist, .observe firstNote (byUser 0x22),
    .restart 0]

/-- A user stored after the last checkpoint is not counted after a crash. -/
theorem second_user_uncounted :
    ¬ ∀ (as : List SoloAction) (n : Solo NewUsers FirstSeen),
      Visited (Solo.step analysis) (Solo.fresh analysis FirstSeen.empty) as n → Agrees n := by
  intro h
  have hafter : ((run (Solo.step analysis) (Solo.fresh analysis FirstSeen.empty)
      crashAfterSecond).any fun n => n.reg.entries.any fun e =>
        e.state.attached && decide ((e.state.daily.lookup 0).getD 0 = 1 ∧
          n.reg.ext.countIn dayStart 0 = 2)) = true := by decide +kernel
  obtain ⟨n, hn⟩ : ∃ n, run (Solo.step analysis) (Solo.fresh analysis FirstSeen.empty)
      crashAfterSecond = some n := Option.isSome_iff_exists.mp (by decide +kernel)
  rw [hn, Option.any_some] at hafter
  obtain ⟨e, hmem, he⟩ := List.any_eq_true.mp hafter
  rw [Bool.and_eq_true] at he
  obtain ⟨hcount, hstored⟩ := of_decide_eq_true he.2
  have hagrees := h crashAfterSecond n ⟨crashAfterSecond, List.prefix_rfl, hn⟩ e hmem he.1
  have hday := hagrees.daily 0
  omega

end NewUsers

end NostrSearch.Stats
