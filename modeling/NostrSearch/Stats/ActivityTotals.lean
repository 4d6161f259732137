import NostrSearch.Lib.Checked
import NostrSearch.Lib.Totals
import NostrSearch.Stats.Activity

/-!
# Daily activity adds up

`activity` with overflow checks on. What an event adds to the bucket of its day is a list of
`additions`, each to a `Cell` of the bucket; a merge adds cell by cell. So a cell holds the sum of
what the events of its day added to it, as long as that fits.

An amount is bounded for one zap and not for a day. `conserved_iff` says that the totals of a
report that is folded and merged in any way are exact, and nothing overflows, if and only if for
every day the sum in each cell is below `2 ^ 64`.
-/

namespace NostrSearch.Stats

open NostrSearch.Core NostrSearch.Lib

/-! ## Counts -/

namespace TrustedCount

/-- One of the two counts. -/
def side (c : TrustedCount) (isTrusted : Bool) : ℕ := if isTrusted then c.trusted else c.untrusted

/-- `TrustedCount::total`. -/
def sum (c : TrustedCount) : ℕ := c.trusted + c.untrusted

/-- `incr`, with checks on. -/
def incrC (c : TrustedCount) (isTrusted : Bool) (amount : ℕ) : Res TrustedCount :=
  if isTrusted then do
    let trusted ← Res.add c.trusted amount
    return { c with trusted := trusted }
  else do
    let untrusted ← Res.add c.untrusted amount
    return { c with untrusted := untrusted }

/-- `merge`, with checks on. -/
def mergeC (c other : TrustedCount) : Res TrustedCount := do
  let trusted ← Res.add c.trusted other.trusted
  let untrusted ← Res.add c.untrusted other.untrusted
  return { trusted := trusted, untrusted := untrusted }

theorem checks_incr (c : TrustedCount) (t : Bool) (n : ℕ) :
    Checks (c.incrC t n) (c.side t + n < 2 ^ 64) (c.incr t n) := by
  cases t with
  | true => exact (checks_add c.trusted n).last fun m => { c with trusted := m }
  | false => exact (checks_add c.untrusted n).last fun m => { c with untrusted := m }

theorem checks_merge (c other : TrustedCount) :
    Checks (c.mergeC other) (∀ t, c.side t + other.side t < 2 ^ 64) (c.merge other) := by
  have huntrusted := (checks_add c.untrusted other.untrusted).last fun m : ℕ =>
    ({ trusted := wrapAdd c.trusted other.trusted, untrusted := m } : TrustedCount)
  apply ((checks_add c.trusted other.trusted).bind huntrusted).iff
  rw [Bool.forall_bool, and_comm]
  rfl

theorem side_incr {c : TrustedCount} {t : Bool} {n : ℕ} (h : c.side t + n < 2 ^ 64) (u : Bool) :
    (c.incr t n).side u = c.side u + if t = u then n else 0 := by
  have hadd : wrapAdd (c.side t) n = c.side t + n := Nat.mod_eq_of_lt h
  cases t <;> cases u <;> first | exact hadd | rfl

theorem side_merge {c other : TrustedCount} {t : Bool} (h : c.side t + other.side t < 2 ^ 64) :
    (c.merge other).side t = c.side t + other.side t := by
  cases t <;> exact Nat.mod_eq_of_lt h

end TrustedCount

/-! ## One day -/

/-- A number in the bucket of a day. -/
inductive Cell
  | sent (isTrusted : Bool)
  | received (isTrusted : Bool)
  | zaps
  | kind (kind : ℕ) (isTrusted : Bool)
deriving DecidableEq

namespace Activity

variable (z : ZapParsers)

/-- The amount of a zap, if the receipt has one that counts. -/
def zapMsats (ev : NostrEvent) : Option ℕ :=
  ((ev.tagValues "bolt11").head?.bind (parseInvoiceMsats z) <|>
    (zapRequest z ev).bind requestMsats).filter fun m => m ≤ MAX_ZAP_MSATS

/-- The sats of an event that is a counted zap. -/
def countedSats (ev : NostrEvent) : Option ℕ :=
  if ev.kind = ZAP_RECEIPT then (zapMsats z ev).map fun msats => msats / 1000 else none

/-- What a zap adds. -/
def zapAdditions (ev : NostrEvent) (ctx : AnalysisCtx) (sats : ℕ) : List (Cell × ℕ) :=
  let parties := zapParties ev (zapRequest z ev)
  [(.sent (parties.1.any ctx.isTrusted), sats), (.received (parties.2.any ctx.isTrusted), sats),
    (.zaps, 1)]

/-- What an event adds to the bucket of its day. -/
def additions (ev : NostrEvent) (ctx : AnalysisCtx) : List (Cell × ℕ) :=
  (.kind ev.kind ctx.authorTrusted, 1) :: (countedSats z ev).elim [] (zapAdditions z ev ctx)

/-- What it adds to one cell. -/
def weight (c : Cell) (x : Handed) : ℕ :=
  ((additions z x.ev x.ctx).map fun y => if y.1 = c then y.2 else 0).sum

/-- `addZap`, with checks on. -/
def addZapC (ev : NostrEvent) (ctx : AnalysisCtx) (bucket : DailyActivity) : Res DailyActivity :=
  match zapMsats z ev with
  | none => return bucket
  | some msats => do
    let sats := msats / 1000
    let parties := zapParties ev (zapRequest z ev)
    let sent ← bucket.zapsSentSats.incrC (parties.1.any ctx.isTrusted) sats
    let received ← bucket.zapsReceivedSats.incrC (parties.2.any ctx.isTrusted) sats
    let zapCount ← Res.add bucket.zapCount 1
    return { bucket with
      zapsSentSats := sent, zapsReceivedSats := received, zapCount := zapCount }

/-- `addEvent`, with checks on. -/
def addEventC (ev : NostrEvent) (ctx : AnalysisCtx) (bucket : DailyActivity) :
    Res DailyActivity := do
  let kinds ← atEntryC bucket.kinds ev.kind {} fun c => c.incrC ctx.authorTrusted 1
  let bucket := { bucket with kinds := kinds }
  if ev.kind = ZAP_RECEIPT then addZapC z ev ctx bucket else return bucket

end Activity

namespace DailyActivity

/-- The count of a kind, zero when there is none. -/
def kindCount (b : DailyActivity) (k : ℕ) : TrustedCount := (b.kinds.lookup k).getD {}

def cell (b : DailyActivity) : Cell → ℕ
  | .sent t => b.zapsSentSats.side t
  | .received t => b.zapsReceivedSats.side t
  | .zaps => b.zapCount
  | .kind k t => (b.kindCount k).side t

/-- `merge`, with checks on. -/
def mergeC (b other : DailyActivity) : Res DailyActivity := do
  let sent ← b.zapsSentSats.mergeC other.zapsSentSats
  let received ← b.zapsReceivedSats.mergeC other.zapsReceivedSats
  let zapCount ← Res.add b.zapCount other.zapCount
  let kinds ← absorbC b.kinds {} TrustedCount.mergeC other.kinds
  return {
    zapsSentSats := sent, zapsReceivedSats := received, zapCount := zapCount, kinds := kinds }

/-- The cells that `other` has something in. -/
def Has (other : DailyActivity) : Cell → Prop
  | .kind k _ => k ∈ other.kinds
  | _ => True

theorem checks_merge (b other : DailyActivity) :
    Checks (b.mergeC other) (∀ c, other.Has c → b.cell c + other.cell c < 2 ^ 64)
      (b.merge other) := by
  have hkinds := (checks_absorb TrustedCount.checks_merge b.kinds {} other.kinds).last
    fun kinds => ({ b.merge other with kinds := kinds } : DailyActivity)
  apply ((b.zapsSentSats.checks_merge other.zapsSentSats).bind
    ((b.zapsReceivedSats.checks_merge other.zapsReceivedSats).bind
      ((checks_add b.zapCount other.zapCount).bind hkinds))).iff
  constructor
  · rintro ⟨hsent, hreceived, hzaps, hkinds⟩ c hc
    cases c with
    | sent t => exact hsent t
    | received t => exact hreceived t
    | zaps => exact hzaps
    | kind k t =>
      obtain ⟨oc, hoc⟩ := Option.isSome_iff_exists.mp (Finmap.lookup_isSome.mpr hc)
      have hfit := hkinds k oc hoc t
      rw [cell, cell, kindCount, kindCount, hoc, Option.getD_some]
      exact hfit
  · intro h
    refine ⟨fun t => h (.sent t) trivial, fun t => h (.received t) trivial, h .zaps trivial, ?_⟩
    intro k oc hoc t
    have hfit := h (.kind k t) (Finmap.mem_of_lookup_eq_some hoc)
    rwa [cell, cell, kindCount, kindCount, hoc, Option.getD_some] at hfit

theorem cell_merge {b other : DailyActivity} {c : Cell}
    (h : b.cell c + other.cell c < 2 ^ 64) :
    (b.merge other).cell c = b.cell c + other.cell c := by
  cases c with
  | sent t => exact TrustedCount.side_merge h
  | received t => exact TrustedCount.side_merge h
  | zaps => exact Nat.mod_eq_of_lt h
  | kind k t =>
    have hkind : (b.merge other).kindCount k =
        ((other.kinds.lookup k).elim (b.kindCount k) fun oc => (b.kindCount k).merge oc) := by
      show ((absorb b.kinds {} TrustedCount.merge other.kinds).lookup k).getD {} = _
      rw [lookup_absorb]
      cases other.kinds.lookup k <;> rfl
    show ((b.merge other).kindCount k).side t = _
    rw [hkind, cell, cell]
    show _ = (b.kindCount k).side t + (other.kindCount k).side t
    have hother : other.kindCount k = (other.kinds.lookup k).getD {} := rfl
    cases hlookup : other.kinds.lookup k with
    | none =>
      rw [hother, hlookup]
      cases t <;> rfl
    | some oc =>
      have hoc : other.kindCount k = oc := by rw [hother, hlookup, Option.getD_some]
      rw [hoc]
      rw [cell, cell, hoc] at h
      exact TrustedCount.side_merge h

end DailyActivity

namespace Activity

variable (z : ZapParsers) (ev : NostrEvent) (ctx : AnalysisCtx) (b : DailyActivity)

/-- What a counted zap does to its bucket. -/
def addSats (sats : ℕ) : DailyActivity :=
  let parties := zapParties ev (zapRequest z ev)
  { b with
    zapsSentSats := b.zapsSentSats.incr (parties.1.any ctx.isTrusted) sats
    zapsReceivedSats := b.zapsReceivedSats.incr (parties.2.any ctx.isTrusted) sats
    zapCount := wrapAdd b.zapCount 1 }

theorem addZap_eq : addZap z ev ctx b =
    ((zapMsats z ev).map fun msats => msats / 1000).elim b (addSats z ev ctx b) := by
  show (match zapMsats z ev with | none => b | some msats => addSats z ev ctx b (msats / 1000)) = _
  cases zapMsats z ev <;> rfl

theorem addEvent_eq : addEvent z ev ctx b =
    let b := { b with kinds := atEntry b.kinds ev.kind {} fun c => c.incr ctx.authorTrusted 1 }
    (countedSats z ev).elim b (addSats z ev ctx b) := by
  unfold addEvent countedSats
  dsimp only
  split
  · rw [addZap_eq]
  · rfl

theorem checks_addSats (sats : ℕ) :
    Checks (do
      let parties := zapParties ev (zapRequest z ev)
      let sent ← b.zapsSentSats.incrC (parties.1.any ctx.isTrusted) sats
      let received ← b.zapsReceivedSats.incrC (parties.2.any ctx.isTrusted) sats
      let zapCount ← Res.add b.zapCount 1
      return { b with zapsSentSats := sent, zapsReceivedSats := received, zapCount := zapCount })
      (∀ y ∈ zapAdditions z ev ctx sats, b.cell y.1 + y.2 < 2 ^ 64) (addSats z ev ctx b sats) := by
  have hcount := (checks_add b.zapCount 1).last fun n : ℕ =>
    ({ addSats z ev ctx b sats with zapCount := n } : DailyActivity)
  apply ((b.zapsSentSats.checks_incr _ sats).bind
    ((b.zapsReceivedSats.checks_incr _ sats).bind hcount)).iff
  rw [zapAdditions, List.forall_mem_cons, List.forall_mem_cons, List.forall_mem_singleton]
  rfl

theorem checks_addZap :
    Checks (addZapC z ev ctx b)
      (∀ y ∈ ((zapMsats z ev).map fun msats => msats / 1000).elim [] (zapAdditions z ev ctx),
        b.cell y.1 + y.2 < 2 ^ 64) (addZap z ev ctx b) := by
  rw [addZap_eq]
  unfold addZapC
  cases zapMsats z ev with
  | none => exact (Checks.pure b).iff (iff_of_true trivial nofun)
  | some msats => exact checks_addSats z ev ctx b (msats / 1000)

variable {ev ctx} in
/-- A zap adds nothing to the counts by kind. -/
theorem cell_withKinds (kinds : Finmap fun _ : ℕ => TrustedCount) {sats : Option ℕ} {y : Cell × ℕ}
    (hy : y ∈ sats.elim [] (zapAdditions z ev ctx)) :
    { b with kinds := kinds }.cell y.1 = b.cell y.1 := by
  cases sats with
  | none => cases hy
  | some sats =>
    simp only [Option.elim_some, zapAdditions, List.mem_cons, List.not_mem_nil, or_false] at hy
    rcases hy with rfl | rfl | rfl <;> rfl

/-- An event fits its bucket where each of its additions does. -/
theorem checks_addEvent :
    Checks (addEventC z ev ctx b) (∀ y ∈ additions z ev ctx, b.cell y.1 + y.2 < 2 ^ 64)
      (addEvent z ev ctx b) := by
  let b' := { b with kinds := atEntry b.kinds ev.kind {} fun c => c.incr ctx.authorTrusted 1 }
  have hkind := checks_atEntry (fun c => c.checks_incr ctx.authorTrusted 1) b.kinds ev.kind {}
  have hzap : Checks (if ev.kind = ZAP_RECEIPT then addZapC z ev ctx b' else pure b')
      (∀ y ∈ (countedSats z ev).elim [] (zapAdditions z ev ctx), b.cell y.1 + y.2 < 2 ^ 64)
      (addEvent z ev ctx b) := by
    by_cases h : ev.kind = ZAP_RECEIPT
    · have hsats : countedSats z ev = (zapMsats z ev).map fun msats => msats / 1000 := if_pos h
      have hadd : addEvent z ev ctx b = addZap z ev ctx b' := if_pos h
      rw [if_pos h, hsats, hadd]
      exact (checks_addZap z ev ctx b').iff (forall₂_congr fun y hy => by
        rw [← cell_withKinds z b b'.kinds hy])
    · have hsats : countedSats z ev = none := if_neg h
      have hadd : addEvent z ev ctx b = b' := if_neg h
      rw [if_neg h, hsats, hadd]
      exact (Checks.pure b').iff (iff_of_true trivial nofun)
  apply (hkind.bind hzap).iff
  rw [additions, List.forall_mem_cons]
  rfl

variable {z ev ctx b}

theorem cell_addSats {sats : ℕ} (h : ∀ y ∈ zapAdditions z ev ctx sats, b.cell y.1 + y.2 < 2 ^ 64)
    (c : Cell) : (addSats z ev ctx b sats).cell c =
      b.cell c + ((zapAdditions z ev ctx sats).map fun y => if y.1 = c then y.2 else 0).sum := by
  rw [zapAdditions, List.forall_mem_cons, List.forall_mem_cons, List.forall_mem_singleton] at h
  obtain ⟨hsent, hreceived, hzaps⟩ := h
  cases c with
  | sent t =>
    simpa [zapAdditions, addSats, DailyActivity.cell] using TrustedCount.side_incr hsent t
  | received t =>
    simpa [zapAdditions, addSats, DailyActivity.cell] using TrustedCount.side_incr hreceived t
  | zaps =>
    have hcount : wrapAdd b.zapCount 1 = b.zapCount + 1 := Nat.mod_eq_of_lt hzaps
    simpa [zapAdditions, addSats, DailyActivity.cell] using hcount
  | kind k t => simp [zapAdditions, DailyActivity.cell, DailyActivity.kindCount, addSats]

/-- An event adds to each cell what it weighs there. -/
theorem cell_addEvent (h : ∀ y ∈ additions z ev ctx, b.cell y.1 + y.2 < 2 ^ 64) (c : Cell) :
    (addEvent z ev ctx b).cell c = b.cell c + weight z c { ev := ev, ctx := ctx } := by
  rw [additions, List.forall_mem_cons] at h
  obtain ⟨hkind, hzap⟩ := h
  have hside : (b.kindCount ev.kind).side ctx.authorTrusted + 1 < 2 ^ 64 := hkind
  -- the count of the event's kind, before its zap
  have hfirst : ({ b with kinds := atEntry b.kinds ev.kind {} fun c => c.incr ctx.authorTrusted 1 } :
      DailyActivity).cell c = b.cell c + if .kind ev.kind ctx.authorTrusted = c then 1 else 0 := by
    cases c with
    | sent t => simp [DailyActivity.cell]
    | received t => simp [DailyActivity.cell]
    | zaps => simp [DailyActivity.cell]
    | kind k t =>
      by_cases hk : k = ev.kind
      · subst hk
        simpa [DailyActivity.cell, DailyActivity.kindCount] using TrustedCount.side_incr hside t
      · simp [DailyActivity.cell, DailyActivity.kindCount, lookup_atEntry_of_ne hk, Ne.symm hk]
  rw [addEvent_eq, weight, additions, List.map_cons, List.sum_cons, ← Nat.add_assoc, ← hfirst]
  cases hsats : countedSats z ev with
  | none => rfl
  | some sats =>
    rw [hsats] at hzap
    apply cell_addSats
    intro y hy
    have hmem : y ∈ (some sats).elim [] (zapAdditions z ev ctx) := hy
    rw [cell_withKinds z b _ hmem]
    exact hzap y hmem

/-- No cell is added to twice. -/
theorem nodup_additions (z : ZapParsers) (ev : NostrEvent) (ctx : AnalysisCtx) :
    ((additions z ev ctx).map Prod.fst).Nodup := by
  unfold additions
  cases countedSats z ev with
  | none => simp
  | some sats => simp [zapAdditions]

/-! ## A report -/

/-- `observe`, with checks on. -/
def observeC (z : ZapParsers) (ev : NostrEvent) (ctx : AnalysisCtx) (s : Activity) :
    Res (Activity × Bool) := do
  let day := dayStart ev.createdAt
  let days ← atEntryC s.days day DailyActivity.default (addEventC z ev ctx)
  return ({ days := days, dirty := insert day s.dirty }, true)

/-- `merge`, with checks on. -/
def mergeC (s other : Activity) : Res Activity := do
  let days ← absorbC s.days DailyActivity.default DailyActivity.mergeC other.days
  return { days := days, dirty := s.dirty ∪ other.days.keys }

/-- The bucket of a day, empty when there is none. -/
def bucket (s : Activity) (day : ℕ) : DailyActivity :=
  (s.days.lookup day).getD DailyActivity.default

theorem checks_observe (z : ZapParsers) (ev : NostrEvent) (ctx : AnalysisCtx) (s : Activity) :
    Checks (observeC z ev ctx s)
      (∀ y ∈ additions z ev ctx, (s.bucket (dayStart ev.createdAt)).cell y.1 + y.2 < 2 ^ 64)
      (observe z ev ctx s) := by
  have hdays := checks_atEntry (checks_addEvent z ev ctx) s.days (dayStart ev.createdAt)
    DailyActivity.default
  exact hdays.last fun days =>
    (({ days := days, dirty := insert (dayStart ev.createdAt) s.dirty } : Activity), true)

theorem checks_merge (s other : Activity) :
    Checks (s.mergeC other) (∀ day ob, other.days.lookup day = some ob →
      ∀ c, ob.Has c → (s.bucket day).cell c + ob.cell c < 2 ^ 64) (s.merge other) := by
  have hdays := checks_absorb DailyActivity.checks_merge s.days DailyActivity.default other.days
  exact hdays.last fun days =>
    ({ days := days, dirty := s.dirty ∪ other.days.keys } : Activity)

theorem bucket_observe (z : ZapParsers) (ev : NostrEvent) (ctx : AnalysisCtx) (s : Activity)
    (day : ℕ) : (observe z ev ctx s).1.bucket day =
      if dayStart ev.createdAt = day then addEvent z ev ctx (s.bucket day) else s.bucket day := by
  show ((atEntry s.days (dayStart ev.createdAt) DailyActivity.default
    (addEvent z ev ctx)).lookup day).getD DailyActivity.default = _
  by_cases h : dayStart ev.createdAt = day
  · rw [if_pos h, ← h, lookup_atEntry_self]
    rfl
  · rw [if_neg h, lookup_atEntry_of_ne (Ne.symm h)]
    rfl

theorem bucket_merge (s other : Activity) (day : ℕ) : (s.merge other).bucket day =
    (other.days.lookup day).elim (s.bucket day) (s.bucket day).merge := by
  show ((absorb s.days DailyActivity.default DailyActivity.merge other.days).lookup day).getD
    DailyActivity.default = _
  rw [lookup_absorb]
  cases other.days.lookup day <;> rfl

/-- A report put together from parts. -/
def replay (z : ZapParsers) (r : Recipe Handed) : Activity :=
  r.eval default (fun s x => (observe z x.ev x.ctx s).1) merge

/-- The same with overflow checks on. -/
def replayC (z : ZapParsers) (r : Recipe Handed) : Res Activity :=
  r.evalC default
    (fun s x => do
      let folded ← observeC z x.ev x.ctx s
      return folded.1)
    mergeC

/-- Every addition of a report fits. -/
def Room (z : ZapParsers) (r : Recipe Handed) : Prop :=
  r.Fits
    (fun s x => ∀ y ∈ additions z x.ev x.ctx,
      (s.bucket (dayStart x.ev.createdAt)).cell y.1 + y.2 < 2 ^ 64)
    (fun s other => ∀ day ob, other.days.lookup day = some ob →
      ∀ c, ob.Has c → (s.bucket day).cell c + ob.cell c < 2 ^ 64)
    default (fun s x => (observe z x.ev x.ctx s).1) merge

theorem checks_replay (z : ZapParsers) (r : Recipe Handed) :
    Checks (replayC z r) (Room z r) (replay z r) := by
  unfold replayC Room replay
  apply Recipe.checks_eval
  · intro s x
    exact (checks_observe z x.ev x.ctx s).last fun folded => folded.1
  · exact checks_merge

/-- What the events of a day add to a cell of its bucket. -/
def exactTotal (z : ZapParsers) (items : List Handed) (day : ℕ) (c : Cell) : ℕ :=
  (items.map fun x => if dayStart x.ev.createdAt = day then weight z c x else 0).sum

/-- On every day every sum fits. -/
def Bounded (z : ZapParsers) (items : List Handed) : Prop :=
  ∀ day c, exactTotal z items day c < 2 ^ 64

theorem exactTotal_append (z : ZapParsers) (as bs : List Handed) (day : ℕ) (c : Cell) :
    exactTotal z (as ++ bs) day c = exactTotal z as day c + exactTotal z bs day c := by
  rw [exactTotal, List.map_append, List.sum_append]
  rfl

theorem exactTotal_singleton (z : ZapParsers) (x : Handed) (day : ℕ) (c : Cell) :
    exactTotal z [x] day c = if dayStart x.ev.createdAt = day then weight z c x else 0 := by
  rw [exactTotal, List.map_singleton, List.sum_singleton]

theorem cell_bucket_default (day : ℕ) (c : Cell) : (default.bucket day).cell c = 0 := by
  cases c with
  | sent t => cases t <;> rfl
  | received t => cases t <;> rfl
  | zaps => rfl
  | kind k t => cases t <;> rfl

/-- One more event fits where its additions do. -/
theorem bounded_append_singleton {z : ZapParsers} {items : List Handed} (x : Handed) :
    Bounded z (items ++ [x]) ↔ Bounded z items ∧ ∀ y ∈ additions z x.ev x.ctx,
      exactTotal z items (dayStart x.ev.createdAt) y.1 + y.2 < 2 ^ 64 := by
  have htotal : ∀ day c, exactTotal z (items ++ [x]) day c = exactTotal z items day c +
      if dayStart x.ev.createdAt = day then weight z c x else 0 := by
    intro day c
    rw [exactTotal_append, exactTotal_singleton]
  constructor
  · intro h
    have hitems : Bounded z items := by
      intro day c
      have hlt := h day c
      rw [htotal] at hlt
      omega
    refine ⟨hitems, (additions_lt_iff (nodup_additions z x.ev x.ctx) (hitems _)).mpr fun c => ?_⟩
    have hlt := h (dayStart x.ev.createdAt) c
    rwa [htotal, if_pos rfl] at hlt
  · rintro ⟨hitems, hadd⟩ day c
    rw [htotal]
    by_cases hday : dayStart x.ev.createdAt = day
    · rw [if_pos hday, ← hday]
      exact (additions_lt_iff (nodup_additions z x.ev x.ctx) (hitems _)).mp hadd c
    · rw [if_neg hday]
      exact hitems day c

/-- What a part that is merged in does not have is nothing. -/
theorem cell_of_not_has {s : Activity} {day : ℕ} {c : Cell}
    (h : ∀ ob, s.days.lookup day = some ob → ¬ ob.Has c) : (s.bucket day).cell c = 0 := by
  unfold bucket
  cases hday : s.days.lookup day with
  | none => exact cell_bucket_default day c
  | some ob =>
    have hnot := h ob hday
    rw [Option.getD_some]
    cases c with
    | sent t => exact absurd trivial hnot
    | received t => exact absurd trivial hnot
    | zaps => exact absurd trivial hnot
    | kind k t =>
      have hk : ob.kinds.lookup k = none := Finmap.lookup_eq_none.mpr hnot
      rw [DailyActivity.cell, DailyActivity.kindCount, hk]
      cases t <;> rfl

/-- A merge fits where the sums of all cells do. -/
theorem merge_fits_iff {s other : Activity} (hs : ∀ day c, (s.bucket day).cell c < 2 ^ 64) :
    (∀ day ob, other.days.lookup day = some ob →
        ∀ c, ob.Has c → (s.bucket day).cell c + ob.cell c < 2 ^ 64) ↔
      ∀ day c, (s.bucket day).cell c + (other.bucket day).cell c < 2 ^ 64 := by
  have hbucket : ∀ day ob, other.days.lookup day = some ob → other.bucket day = ob := by
    intro day ob h
    rw [bucket, h, Option.getD_some]
  constructor
  · intro h day c
    by_cases hhas : ∃ ob, other.days.lookup day = some ob ∧ ob.Has c
    · obtain ⟨ob, hob, hc⟩ := hhas
      rw [hbucket day ob hob]
      exact h day ob hob c hc
    · rw [cell_of_not_has fun ob hob hc => hhas ⟨ob, hob, hc⟩]
      exact hs day c
  · intro h day ob hob c _
    rw [← hbucket day ob hob]
    exact h day c

theorem cell_merge {s other : Activity} {day : ℕ} {c : Cell}
    (h : (s.bucket day).cell c + (other.bucket day).cell c < 2 ^ 64) :
    ((s.merge other).bucket day).cell c = (s.bucket day).cell c + (other.bucket day).cell c := by
  rw [bucket_merge]
  cases hday : other.days.lookup day with
  | none =>
    rw [cell_of_not_has (s := other) fun ob hob => by rw [hday] at hob; cases hob]
    rfl
  | some ob =>
    have hbucket : other.bucket day = ob := by rw [bucket, hday, Option.getD_some]
    rw [hbucket] at h ⊢
    exact DailyActivity.cell_merge h

/-- Every addition fits if and only if every sum does, and then every cell has its sum. -/
theorem room_spec (z : ZapParsers) (r : Recipe Handed) :
    (Room z r ↔ Bounded z r.items) ∧
      (Room z r → ∀ day c, ((replay z r).bucket day).cell c = exactTotal z r.items day c) := by
  induction r with
  | new =>
    refine ⟨iff_of_true trivial fun day c => ?_, fun _ day c => ?_⟩
    · exact Nat.two_pow_pos 64
    · exact cell_bucket_default day c
  | fold r x ih =>
    obtain ⟨hr, hcells⟩ := ih
    have hstep : Room z (.fold r x) ↔ Room z r ∧ ∀ y ∈ additions z x.ev x.ctx,
        ((replay z r).bucket (dayStart x.ev.createdAt)).cell y.1 + y.2 < 2 ^ 64 := Iff.rfl
    rw [hstep]
    constructor
    · rw [Recipe.items, bounded_append_singleton, hr]
      refine and_congr_right fun hitems => forall₂_congr fun y _ => ?_
      rw [hcells (hr.mpr hitems)]
    · rintro ⟨hroom, hadd⟩ day c
      show ((observe z x.ev x.ctx (replay z r)).1.bucket day).cell c = _
      rw [Recipe.items, exactTotal_append, exactTotal_singleton, bucket_observe, ← hcells hroom]
      split
      case isTrue hday =>
        rw [hday] at hadd
        exact cell_addEvent hadd c
      case isFalse => rfl
  | merge r t ihr iht =>
    obtain ⟨hr, hcells⟩ := ihr
    obtain ⟨ht, hcells'⟩ := iht
    have hlt : Room z r → ∀ day c, ((replay z r).bucket day).cell c < 2 ^ 64 := by
      intro hroom day c
      rw [hcells hroom]
      exact hr.mp hroom day c
    have hstep : Room z (.merge r t) ↔ Room z r ∧ Room z t ∧
        ∀ day ob, (replay z t).days.lookup day = some ob →
          ∀ c, ob.Has c → ((replay z r).bucket day).cell c + ob.cell c < 2 ^ 64 := Iff.rfl
    rw [hstep]
    constructor
    · rw [Recipe.items]
      constructor
      · rintro ⟨hroom, hroom', hfits⟩ day c
        rw [exactTotal_append, ← hcells hroom, ← hcells' hroom']
        exact (merge_fits_iff (hlt hroom)).mp hfits day c
      · intro h
        have hsum : ∀ day c, exactTotal z r.items day c + exactTotal z t.items day c < 2 ^ 64 := by
          intro day c
          rw [← exactTotal_append]
          exact h day c
        have hroom : Room z r :=
          hr.mpr fun day c => lt_of_le_of_lt (Nat.le_add_right _ _) (hsum day c)
        have hroom' : Room z t :=
          ht.mpr fun day c => lt_of_le_of_lt (Nat.le_add_left _ _) (hsum day c)
        refine ⟨hroom, hroom', (merge_fits_iff (hlt hroom)).mpr fun day c => ?_⟩
        rw [hcells hroom, hcells' hroom']
        exact hsum day c
    · rintro ⟨hroom, hroom', hfits⟩ day c
      rw [Recipe.items, exactTotal_append, ← hcells hroom, ← hcells' hroom']
      exact cell_merge ((merge_fits_iff (hlt hroom)).mp hfits day c)

/-! ## What is conserved -/

/-- The events of a day. -/
def onDay (items : List Handed) (day : ℕ) : List Handed :=
  items.filter fun x => dayStart x.ev.createdAt = day

/-- The sats of the zaps that count on a day. -/
def zapsOn (z : ZapParsers) (items : List Handed) (day : ℕ) : List ℕ :=
  (onDay items day).filterMap fun x => countedSats z x.ev

/-- The totals of every bucket are those of the events of its day. -/
structure Conserved (z : ZapParsers) (items : List Handed) (s : Activity) : Prop where
  events : ∀ day b, s.days.lookup day = some b →
    total b.kinds TrustedCount.sum = (onDay items day).length
  sent : ∀ day b, s.days.lookup day = some b → b.zapsSentSats.sum = (zapsOn z items day).sum
  received : ∀ day b, s.days.lookup day = some b →
    b.zapsReceivedSats.sum = (zapsOn z items day).sum
  zapCount : ∀ day b, s.days.lookup day = some b → b.zapCount = (zapsOn z items day).length

section exact

variable (z : ZapParsers) (items : List Handed) (day : ℕ)

theorem exactTotal_cons (x : Handed) (c : Cell) : exactTotal z (x :: items) day c =
    (if dayStart x.ev.createdAt = day then weight z c x else 0) + exactTotal z items day c := by
  rw [exactTotal, List.map_cons, List.sum_cons]
  rfl

theorem zapsOn_cons (x : Handed) : zapsOn z (x :: items) day =
    (if dayStart x.ev.createdAt = day then (countedSats z x.ev).toList else []) ++
      zapsOn z items day := by
  unfold zapsOn onDay
  rw [List.filter_cons]
  by_cases hday : dayStart x.ev.createdAt = day
  · simp only [hday, decide_true, if_true]
    rw [List.filterMap_cons]
    cases countedSats z x.ev <;> rfl
  · simp [hday]

/-- An event adds its sats to one of the two counts of a pair, if it is a zap that counts. -/
theorem weight_sides (x : Handed) :
    (weight z (.sent true) x + weight z (.sent false) x = (countedSats z x.ev).toList.sum) ∧
      (weight z (.received true) x + weight z (.received false) x =
        (countedSats z x.ev).toList.sum) ∧
      weight z .zaps x = (countedSats z x.ev).toList.length := by
  unfold weight additions
  cases countedSats z x.ev with
  | none => simp
  | some sats =>
    cases hs : (zapParties x.ev (zapRequest z x.ev)).1.any x.ctx.isTrusted <;>
      cases hr : (zapParties x.ev (zapRequest z x.ev)).2.any x.ctx.isTrusted <;>
        simp [zapAdditions, hs, hr]

theorem exactTotal_zaps :
    (exactTotal z items day (.sent true) + exactTotal z items day (.sent false) =
        (zapsOn z items day).sum) ∧
      (exactTotal z items day (.received true) + exactTotal z items day (.received false) =
        (zapsOn z items day).sum) ∧
      exactTotal z items day .zaps = (zapsOn z items day).length := by
  induction items with
  | nil => exact ⟨rfl, rfl, rfl⟩
  | cons x items ih =>
    obtain ⟨hsent, hreceived, hzaps⟩ := ih
    obtain ⟨hsent', hreceived', hzaps'⟩ := weight_sides z x
    simp only [exactTotal_cons, zapsOn_cons]
    by_cases hday : dayStart x.ev.createdAt = day
    · simp only [if_pos hday, List.sum_append, List.length_append]
      refine ⟨?_, ?_, ?_⟩ <;> omega
    · simp only [if_neg hday, List.nil_append, Nat.zero_add]
      exact ⟨hsent, hreceived, hzaps⟩

/-- The events of one kind. -/
theorem exactTotal_kind (k : ℕ) :
    exactTotal z items day (.kind k true) + exactTotal z items day (.kind k false) =
      items.countP fun x => decide (dayStart x.ev.createdAt = day) && decide (x.ev.kind = k) := by
  induction items with
  | nil => rfl
  | cons x items ih =>
    have hweight : weight z (.kind k true) x + weight z (.kind k false) x =
        if x.ev.kind = k then 1 else 0 := by
      unfold weight additions
      cases countedSats z x.ev <;> cases x.ctx.authorTrusted <;> simp [zapAdditions]
    rw [exactTotal_cons, exactTotal_cons, List.countP_cons, ← ih]
    by_cases hday : dayStart x.ev.createdAt = day <;> by_cases hk : x.ev.kind = k <;>
      simp [hday, hk] at hweight ⊢ <;> omega

end exact

/-- A report whose cells have their sums has the totals of its events. -/
theorem conserved_of_cells {z : ZapParsers} {items : List Handed} {s : Activity}
    (h : ∀ day c, (s.bucket day).cell c = exactTotal z items day c) : Conserved z items s := by
  have hbucket : ∀ day b, s.days.lookup day = some b →
      ∀ c, b.cell c = exactTotal z items day c := by
    intro day b hb c
    rw [← h, bucket, hb, Option.getD_some]
  constructor
  · intro day b hb
    have hkind : ∀ k ∈ b.kinds.keys, (b.kinds.lookup k).elim 0 TrustedCount.sum =
        items.countP fun x => decide (dayStart x.ev.createdAt = day) && decide (x.ev.kind = k) := by
      intro k hk
      obtain ⟨c, hc⟩ :=
        Option.isSome_iff_exists.mp (Finmap.lookup_isSome.mpr (Finmap.mem_keys.mp hk))
      rw [← exactTotal_kind z items day k, ← hbucket day b hb, ← hbucket day b hb,
        DailyActivity.cell, DailyActivity.cell, DailyActivity.kindCount, hc]
      rfl
    rw [total, Finset.sum_congr rfl hkind, sum_countP_eq (fun x : Handed =>
      decide (dayStart x.ev.createdAt = day)) fun x => x.ev.kind, List.countP_eq_length_filter]
    · rfl
    · -- a kind that occurs has a count
      intro x hx hday
      rw [Finmap.mem_keys, ← Finmap.lookup_isSome]
      by_contra hnone
      have hzero : b.cell (.kind x.ev.kind true) + b.cell (.kind x.ev.kind false) = 0 := by
        rw [DailyActivity.cell, DailyActivity.cell, DailyActivity.kindCount,
          Option.not_isSome_iff_eq_none.mp hnone]
        rfl
      rw [hbucket day b hb, hbucket day b hb, exactTotal_kind, List.countP_eq_zero] at hzero
      exact hzero x hx (by rw [hday, decide_eq_true rfl]; rfl)
  · intro day b hb
    rw [← (exactTotal_zaps z items day).1, ← hbucket day b hb, ← hbucket day b hb]
    rfl
  · intro day b hb
    rw [← (exactTotal_zaps z items day).2.1, ← hbucket day b hb, ← hbucket day b hb]
    rfl
  · intro day b hb
    rw [← (exactTotal_zaps z items day).2.2, ← hbucket day b hb]
    rfl

theorem replayC_eq_ok_iff (z : ZapParsers) (r : Recipe Handed) :
    replayC z r = .ok (replay z r) ↔ Bounded z r.items := by
  rw [(checks_replay z r).eq_ok_iff, (room_spec z r).1]
  exact and_iff_left rfl

/-- **Daily activity is conserved**, with no addition that overflows, if and only if on every day
the sats of each trust, the counted zaps and the events of each kind and trust stay below
`2 ^ 64`. -/
theorem conserved_iff (z : ZapParsers) (r : Recipe Handed) :
    (replayC z r = .ok (replay z r) ∧ Conserved z r.items (replay z r)) ↔
      Bounded z r.items := by
  rw [replayC_eq_ok_iff]
  apply and_iff_left_of_imp
  intro hbounded
  obtain ⟨hroom, hcells⟩ := room_spec z r
  exact conserved_of_cells (hcells (hroom.mpr hbounded))

/-- A zap request for the largest amount that counts. -/
def floodRequest : String := "\x7b\"tags\":[[\"amount\",\"2100000000000000000\"]]\x7d"

/-- Parsers that know this request. -/
def floodParsers : ZapParsers where
  fromStr text :=
    if text = floodRequest then
      some (Json.record [("tags", .arr [.arr [.str "amount", .str "2100000000000000000"]])])
    else none
  amountPicoBtc _ := none

/-- A receipt with that request, from nobody to nobody. -/
def floodZap : Handed where
  ev :=
    { id := "", pubkey := "", createdAt := 1700000000, kind := ZAP_RECEIPT
      tags := [["description", floodRequest]], content := "", sig := "" }
  ctx :=
    { now := 1700000000, author := Vector.replicate 32 0, eventId := Vector.replicate 32 0
      world := World.empty }

/-- `8785` such receipts in a day have more sats than 64 bits hold. -/
theorem flood_not_conserved :
    ¬ (replayC floodParsers (Recipe.ofList (List.replicate 8785 floodZap)) =
          .ok (replay floodParsers (Recipe.ofList (List.replicate 8785 floodZap))) ∧
        Conserved floodParsers (Recipe.ofList (List.replicate 8785 floodZap)).items
          (replay floodParsers (Recipe.ofList (List.replicate 8785 floodZap)))) := by
  rintro ⟨hok, -⟩
  have hlt := (replayC_eq_ok_iff _ _).mp hok (dayStart 1700000000) (.sent false)
  have hweight : weight floodParsers (.sent false) floodZap = 2100000000000000 := by decide +kernel
  have hday : dayStart floodZap.ev.createdAt = dayStart 1700000000 := rfl
  rw [Recipe.items_ofList, exactTotal, List.map_replicate, List.sum_replicate, if_pos hday, hweight,
    smul_eq_mul] at hlt
  omega

end Activity

end NostrSearch.Stats
