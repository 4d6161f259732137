import Mathlib.Tactic

/-!
# Windows end to end

`Tiles lo ws hi`: the half-open windows `ws` lie end to end from `lo` to `hi`, in this order, and
none of them is empty. So every point of `[lo, hi)` is in exactly one of them.
-/

namespace NostrSearch.Lib

variable {α : Type*} [LinearOrder α] {lo hi : α} {ws vs : List (α × α)}

/-- The windows lie end to end from `lo` to `hi`. -/
def Tiles : α → List (α × α) → α → Prop
  | lo, [], hi => lo = hi
  | lo, w :: ws, hi => w.1 = lo ∧ w.1 < w.2 ∧ Tiles w.2 ws hi

theorem tiles_append :
    Tiles lo (ws ++ vs) hi ↔ ∃ mid, Tiles lo ws mid ∧ Tiles mid vs hi := by
  induction ws generalizing lo with
  | nil =>
    constructor
    · intro h
      exact ⟨lo, rfl, h⟩
    · rintro ⟨mid, rfl, h⟩
      exact h
  | cons w ws ih =>
    rw [List.cons_append, Tiles, ih]
    constructor
    · rintro ⟨hlo, hlt, mid, hws, hvs⟩
      exact ⟨mid, ⟨hlo, hlt, hws⟩, hvs⟩
    · rintro ⟨mid, ⟨hlo, hlt, hws⟩, hvs⟩
      exact ⟨hlo, hlt, mid, hws, hvs⟩

theorem tiles_concat {w : α × α} :
    Tiles lo (ws ++ [w]) hi ↔ Tiles lo ws w.1 ∧ w.1 < w.2 ∧ w.2 = hi := by
  rw [tiles_append]
  constructor
  · rintro ⟨mid, hws, rfl, hlt, hhi⟩
    exact ⟨hws, hlt, hhi⟩
  · rintro ⟨hws, hlt, hhi⟩
    exact ⟨w.1, hws, rfl, hlt, hhi⟩

namespace Tiles

theorem le (h : Tiles lo ws hi) : lo ≤ hi := by
  induction ws generalizing lo with
  | nil => exact le_of_eq h
  | cons w ws ih =>
    obtain ⟨rfl, hlt, hws⟩ := h
    exact le_trans hlt.le (ih hws)

/-- Every window lies between the ends, and is not empty. -/
theorem bounds (h : Tiles lo ws hi) {w : α × α} (hw : w ∈ ws) :
    lo ≤ w.1 ∧ w.1 < w.2 ∧ w.2 ≤ hi := by
  induction ws generalizing lo with
  | nil => cases hw
  | cons v ws ih =>
    obtain ⟨rfl, hlt, hws⟩ := h
    rcases List.mem_cons.mp hw with rfl | hw
    · exact ⟨le_rfl, hlt, hws.le⟩
    · obtain ⟨hlo, hne, hhi⟩ := ih hws hw
      exact ⟨le_trans hlt.le hlo, hne, hhi⟩

/-- A window ends before the next ones begin. -/
theorem pairwise (h : Tiles lo ws hi) : ws.Pairwise fun w v => w.2 ≤ v.1 := by
  induction ws generalizing lo with
  | nil => exact List.Pairwise.nil
  | cons w ws ih =>
    obtain ⟨rfl, hlt, hws⟩ := h
    exact List.Pairwise.cons (fun v hv => (hws.bounds hv).1) (ih hws)

/-- No gap: every point is in a window. -/
theorem exists_mem (h : Tiles lo ws hi) {t : α} (hlo : lo ≤ t) (hhi : t < hi) :
    ∃ w ∈ ws, w.1 ≤ t ∧ t < w.2 := by
  induction ws generalizing lo with
  | nil =>
    have heq : lo = hi := h
    exact absurd hhi (not_lt.mpr (heq ▸ hlo))
  | cons w ws ih =>
    obtain ⟨rfl, hlt, hws⟩ := h
    rcases lt_or_ge t w.2 with hin | hout
    · exact ⟨w, List.mem_cons_self, hlo, hin⟩
    · obtain ⟨v, hv, hvt⟩ := ih hws hout
      exact ⟨v, List.mem_cons_of_mem w hv, hvt⟩

/-- There are no more windows than points. -/
theorem add_length_le {lo hi : ℕ} {ws : List (ℕ × ℕ)} (h : Tiles lo ws hi) :
    lo + ws.length ≤ hi := by
  induction ws generalizing lo with
  | nil => exact le_of_eq h
  | cons w ws ih =>
    obtain ⟨rfl, hlt, hws⟩ := h
    have hle := ih hws
    rw [List.length_cons]
    omega

/-- A window split in two. -/
theorem split {s mid e : α} (h : Tiles lo (ws ++ [(s, e)]) hi) (hs : s < mid) (he : mid < e) :
    Tiles lo ((ws ++ [(s, mid)]) ++ [(mid, e)]) hi := by
  rw [tiles_concat] at h
  rw [tiles_concat, tiles_concat]
  exact ⟨⟨h.1, hs, rfl⟩, he, h.2.2⟩

end Tiles

end NostrSearch.Lib
