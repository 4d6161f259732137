import NostrSearch.Server.Submit

/-!
# The accounts of a submission

After each flush every line is accounted for: it is malformed, undecodable, ephemeral, of the
future, badly signed, a duplicate or new. Between flushes there are the lines that wait to be
screened and the events that wait for an answer, and with these the accounts hold in every state
(`accounted_step`).

Blank lines, lines that are too long and payloads that do not decode are never screened. The others
are, each of them before the job is done, and once if no server crashes on the way
(`submission_accounts`).
-/

namespace NostrSearch.Server.Submit

open NostrSearch.Core NostrSearch.Lib

/-! ## What waits -/

/-- What is to be screened of an item of the upload. -/
def Upload.screenedAt (up : Upload) (i : ℕ) : Option (List UInt8) :=
  up.items[i]?.bind Item.screened

/-- The lines of a batch that are to be screened. -/
def Stage.unscreened : Stage → List Line
  | screening slots _ => slots.filterMap fun slot => if slot.2.isNone then some slot.1 else none
  | _ => []

/-- The lines that were read and are to be screened. -/
def Process.waiting (p : Process) : List Line := p.batch.lines ++ p.stage.unscreened

/-- The number of events that are neither new nor duplicates yet. -/
def Stage.undecided : Stage → ℕ
  | screening slots _ => (slots.filterMap fun slot => slot.2.join).length
  | saving slots _ => slots.length
  | sending todo _ => todo.length
  | _ => 0

/-- What a flush goes on to. -/
def Stage.after : Stage → Option After
  | reading => none
  | screening _ after | saving _ after | sending _ after | returning after => some after

/-- A slot is filled: of what the slots give, the one value is exchanged for the other. -/
theorem filterMap_set_perm {α β : Type} (f : α → Option β) {l : List α} {i : ℕ} {a b : α}
    (h : l[i]? = some a) :
    ((f b).toList ++ l.filterMap f).Perm ((f a).toList ++ (l.set i b).filterMap f) := by
  induction l generalizing i with
  | nil => cases h
  | cons x l ih =>
    cases i with
    | zero =>
      obtain rfl : x = a := by simpa using h
      have hsplit : ∀ y, (y :: l).filterMap f = (f y).toList ++ l.filterMap f := by
        intro y
        rw [List.filterMap_cons]
        cases f y <;> rfl
      rw [List.set_cons_zero, hsplit, hsplit, ← List.append_assoc, ← List.append_assoc]
      exact List.perm_append_comm.append_right _
    | succ i =>
      have htail := ih (i := i) (by simpa using h)
      have hsplit : ∀ l' : List α, (x :: l').filterMap f = (f x).toList ++ l'.filterMap f := by
        intro l'
        rw [List.filterMap_cons]
        cases f x <;> rfl
      rw [List.set_cons_succ, hsplit, hsplit]
      exact (List.perm_append_comm_assoc _ _ _).trans
        ((htail.append_left _).trans (List.perm_append_comm_assoc _ _ _))

section process

variable {p : Process} {after : After} {line : Line} {batchLines : ℕ}

theorem flush_waiting (h : p.stage = .reading) : (p.flush after).waiting = p.waiting := by
  unfold Process.flush Process.waiting
  rw [h]
  split
  · next hnil => simp [hnil, Stage.unscreened]
  · simp [Stage.unscreened, List.filterMap_map]

theorem flush_undecided : (p.flush after).stage.undecided = 0 := by
  unfold Process.flush
  split
  · rfl
  · simp [Stage.undecided, List.filterMap_map]

theorem flush_unread : (p.flush after).unread = p.unread := by
  unfold Process.flush
  split <;> rfl

theorem flush_batch : (p.flush after).batch.lines = [] := by
  unfold Process.flush
  split <;> rfl

theorem flush_after : (p.flush after).stage.after = some after := by
  unfold Process.flush
  split <;> rfl

/-- A push leaves the line in the batch, or flushes the batch with it. -/
theorem push_cases :
    p.push batchLines line = { p with batch := p.batch.push line } ∨
      p.push batchLines line = { p with batch := p.batch.push line }.flush .more := by
  unfold Process.push
  split
  · exact Or.inr rfl
  · exact Or.inl rfl

theorem push_waiting (h : p.stage = .reading) :
    (p.push batchLines line).waiting = p.waiting ++ [line] := by
  have hpush : { p with batch := p.batch.push line }.waiting = p.waiting ++ [line] := by
    simp [Process.waiting, h, Stage.unscreened, Batch.push]
  rcases push_cases with heq | heq
  · rw [heq, hpush]
  · rw [heq, @flush_waiting { p with batch := p.batch.push line } _ h, hpush]

theorem push_undecided (h : p.stage = .reading) : (p.push batchLines line).stage.undecided = 0 := by
  rcases push_cases with heq | heq
  · rw [heq, h]
    rfl
  · rw [heq, flush_undecided]

theorem push_unread : (p.push batchLines line).unread = p.unread := by
  rcases push_cases with heq | heq
  · rw [heq]
  · rw [heq, flush_unread]

theorem push_batch (h : p.stage = .reading) (hne : (p.push batchLines line).stage ≠ .reading) :
    (p.push batchLines line).batch.lines = [] := by
  rcases push_cases with heq | heq
  · rw [heq] at hne
    exact absurd h hne
  · rw [heq, flush_batch]

theorem push_after (h : p.stage = .reading) :
    (p.push batchLines line).stage.after ≠ some .finished := by
  rcases push_cases with heq | heq
  · rw [heq, h]
    nofun
  · rw [heq, flush_after]
    nofun

end process

/-! ## The accounts -/

/-- The accounts, with so many lines to be screened and so many events undecided. -/
def Counts.Accounts (c : Counts) (waiting undecided : ℕ) : Prop :=
  c.lines = c.malformed + c.undecodable + c.badSignature + c.ephemeral + c.future + c.valid +
    waiting ∧ c.valid = c.duplicate + c.new + undecided

/-- Every line is accounted for. -/
def Counts.Balanced (c : Counts) : Prop :=
  c.lines = c.malformed + c.undecodable + c.badSignature + c.ephemeral + c.future + c.valid ∧
    c.valid = c.duplicate + c.new

/-- The three kinds of turns of the loop: the last, one for an item that goes into no batch, and one
for an item that does. -/
theorem turn_cases {job : Job} {p : Process} (batchLines : ℕ) :
    (p.unread = [] ∧ (p.turn batchLines job).1 = job ∧
        (p.turn batchLines job).2 = p.flush .finished) ∨
      (∃ item unread c, p.unread = item :: unread ∧ item.screened = none ∧
        (p.turn batchLines job).1 = { job with cursor := job.cursor + 1, counts := c } ∧
        (p.turn batchLines job).2 = { p with unread := unread } ∧
        ∀ w u, job.counts.Accounts w u → c.Accounts w u) ∨
      ∃ item unread bytes, p.unread = item :: unread ∧ item.screened = some bytes ∧
        (p.turn batchLines job).1 =
          { job with
            cursor := job.cursor + 1
            counts := { job.counts with lines := job.counts.lines + 1 } } ∧
        (p.turn batchLines job).2 =
          { p with unread := unread }.push batchLines { number := job.cursor, bytes := bytes } := by
  unfold Process.turn
  cases hunread : p.unread with
  | nil => exact Or.inl ⟨rfl, rfl, rfl⟩
  | cons item unread =>
    cases item with
    | tooLong =>
      refine Or.inr (Or.inl ⟨_, _, _, rfl, rfl, rfl, rfl, ?_⟩)
      rintro w u ⟨hlines, hvalid⟩
      refine ⟨?_, hvalid⟩
      dsimp only
      omega
    | line buf =>
      by_cases hblank : trimAscii buf = []
      · exact Or.inr (Or.inl ⟨_, _, job.counts, rfl, if_pos hblank, congrArg Prod.fst (if_pos hblank),
          congrArg Prod.snd (if_pos hblank), fun _ _ h => h⟩)
      · exact Or.inr (Or.inr ⟨_, _, _, rfl, if_neg hblank, congrArg Prod.fst (if_neg hblank),
          congrArg Prod.snd (if_neg hblank)⟩)
    | payload payload =>
      cases payload with
      | json bytes => exact Or.inr (Or.inr ⟨_, _, _, rfl, rfl, rfl, rfl⟩)
      | undecodable =>
        refine Or.inr (Or.inl ⟨_, _, _, rfl, rfl, rfl, rfl, ?_⟩)
        rintro w u ⟨hlines, hvalid⟩
        refine ⟨?_, hvalid⟩
        dsimp only
        omega

/-- Screening a line files it. -/
theorem screen_accounts {lib : ScreenLib} {c : Counts} {line : List UInt8} {now w u : ℕ}
    (h : c.Accounts (w + 1) u) :
    (screen lib c line now).2.Accounts w
      (u + ((screen lib c line now).1.toList).length) := by
  obtain ⟨hlines, hvalid⟩ := h
  unfold screen
  cases lib.parse line with
  | none =>
    refine ⟨?_, ?_⟩ <;> dsimp only [Option.toList, List.length_nil] <;> omega
  | some ev =>
    dsimp only
    split_ifs
    all_goals
      refine ⟨?_, ?_⟩ <;> simp only [Option.toList, List.length_nil, List.length_singleton] <;>
        omega

/-- Of some events, those left and those left out. -/
theorem uniqueEvents_length (inBatch : Finset String) (evs : List NostrEvent) :
    (uniqueEvents inBatch evs).1.length + (uniqueEvents inBatch evs).2 = evs.length := by
  induction evs generalizing inBatch with
  | nil => rfl
  | cons ev evs ih =>
    rw [uniqueEvents]
    split
    · have h := ih inBatch
      simp only [List.length_cons]
      omega
    · have h := ih (insert ev.id inBatch)
      simp only [List.length_cons]
      omega

namespace Node

/-- The job as it is, in memory if there is a server. -/
def job (s : Node) : Job :=
  match s.server with
  | .down => s.disk
  | .idle job => job
  | .busy job _ => job

def waiting (s : Node) : List Line :=
  match s.server with
  | .busy _ p => p.waiting
  | _ => []

def undecided (s : Node) : ℕ :=
  match s.server with
  | .busy _ p => p.stage.undecided
  | _ => 0

/-- The accounts hold, and what is on the disk is balanced. -/
structure Accounted (s : Node) : Prop where
  disk : s.disk.counts.Balanced
  job : s.job.counts.Accounts s.waiting.length s.undecided

/-- What the steps of a process know of it. -/
structure Sound (up : Upload) (s : Node) : Prop where
  idle : ∀ job, s.server = .idle job → job = s.disk
  phase : ∀ job p, s.server = .busy job p → job.phase = .processing ∧ s.disk.phase = .processing
  unread : ∀ job p, s.server = .busy job p → p.unread = up.items.drop job.cursor
  batch : ∀ job p, s.server = .busy job p → p.stage ≠ .reading → p.batch.lines = []
  ends : ∀ job p, s.server = .busy job p → p.stage.after = some .finished → p.unread = []
  lines : ∀ line ∈ s.waiting, up.screenedAt line.number = some line.bytes
  ahead : ∀ job p, s.server = .busy job p → s.disk.cursor ≤ job.cursor
  unsaved : ∀ line ∈ s.waiting, s.disk.cursor ≤ line.number
  done : s.disk.phase = .done → up.items.length ≤ s.disk.cursor

end Node

section sound

variable {lib : ScreenLib} {batchLines : ℕ} {up : Upload} {s s' : Node} {job job' : Job}
  {p p' : Process}

@[simp] theorem waiting_busy (h : s.server = .busy job p) : s.waiting = p.waiting := by
  rw [Node.waiting, h]

@[simp] theorem undecided_busy (h : s.server = .busy job p) : s.undecided = p.stage.undecided := by
  rw [Node.undecided, h]

@[simp] theorem job_busy (h : s.server = .busy job p) : s.job = job := by
  rw [Node.job, h]

theorem unscreened_filled {slots : List (Line × Option (Option NostrEvent))} {after : After}
    (hall : ∀ slot ∈ slots, slot.2.isSome = true) :
    (Stage.screening slots after).unscreened = [] := by
  refine List.filterMap_eq_nil_iff.mpr fun slot hslot => if_neg ?_
  rw [Option.isNone_iff_eq_none]
  intro hnone
  have hsome := hall slot hslot
  rw [hnone] at hsome
  cases hsome

theorem unscreened_set {slots : List (Line × Option (Option NostrEvent))} {after : After} {i : ℕ}
    {line : Line} (hi : slots[i]? = some (line, none)) (ev : Option NostrEvent) :
    (Stage.screening slots after).unscreened.Perm
      (line :: (Stage.screening (slots.set i (line, some ev)) after).unscreened) :=
  filterMap_set_perm (fun slot : Line × Option (Option NostrEvent) =>
    if slot.2.isNone then some slot.1 else none) (b := (line, some ev)) hi

theorem undecided_set {slots : List (Line × Option (Option NostrEvent))} {after : After} {i : ℕ}
    {line : Line} (hi : slots[i]? = some (line, none)) (ev : Option NostrEvent) :
    (Stage.screening (slots.set i (line, some ev)) after).undecided =
      (Stage.screening slots after).undecided + ev.toList.length := by
  have hperm := filterMap_set_perm (fun slot : Line × Option (Option NostrEvent) => slot.2.join)
    (b := (line, some ev)) hi
  have hlength := hperm.length_eq
  simp only [List.length_append, Option.join_some, Option.join_none, Option.toList_none,
    List.length_nil] at hlength
  simp only [Stage.undecided]
  omega

/-- A busy server whose process is in order. -/
theorem sound_busy (hserver : s'.server = .busy job p)
    (hphase : job.phase = .processing ∧ s'.disk.phase = .processing)
    (hunread : p.unread = up.items.drop job.cursor)
    (hbatch : p.stage ≠ .reading → p.batch.lines = [])
    (hends : p.stage.after = some .finished → p.unread = [])
    (hahead : s'.disk.cursor ≤ job.cursor)
    (hlines : ∀ line ∈ p.waiting,
      up.screenedAt line.number = some line.bytes ∧ s'.disk.cursor ≤ line.number) : s'.Sound up where
  idle := by
    intro job' h
    rw [hserver] at h
    cases h
  phase := by
    intro job' p' h
    rw [hserver] at h
    cases h
    exact hphase
  unread := by
    intro job' p' h
    rw [hserver] at h
    cases h
    exact hunread
  batch := by
    intro job' p' h
    rw [hserver] at h
    cases h
    exact hbatch
  ends := by
    intro job' p' h
    rw [hserver] at h
    cases h
    exact hends
  lines := by
    rw [waiting_busy hserver]
    exact fun line hline => (hlines line hline).1
  ahead := by
    intro job' p' h
    rw [hserver] at h
    cases h
    exact hahead
  unsaved := by
    rw [waiting_busy hserver]
    exact fun line hline => (hlines line hline).2
  done := by
    intro h
    rw [hphase.2] at h
    cases h

/-- A server without a process. -/
theorem sound_rest (hserver : s'.server = .down ∨ s'.server = .idle s'.disk)
    (hdone : s'.disk.phase = .done → up.items.length ≤ s'.disk.cursor) : s'.Sound up := by
  have hbusy : ∀ job p, s'.server ≠ .busy job p := by
    intro job p h
    rcases hserver with hdown | hidle
    · rw [hdown] at h
      cases h
    · rw [hidle] at h
      cases h
  have hwaiting : s'.waiting = [] := by
    unfold Node.waiting
    split
    · next h => exact absurd h (hbusy _ _)
    · rfl
  refine ⟨?_, fun job p h => absurd h (hbusy job p), fun job p h => absurd h (hbusy job p),
    fun job p h => absurd h (hbusy job p), fun job p h => absurd h (hbusy job p), ?_,
    fun job p h => absurd h (hbusy job p), ?_, hdone⟩
  · intro job h
    rcases hserver with hdown | hidle
    · rw [hdown] at h
      cases h
    · rw [hidle] at h
      cases h
      rfl
  · rw [hwaiting]
    nofun
  · rw [hwaiting]
    nofun

/-- A step of a flush. -/
theorem Node.Sound.stage (h : s.Sound up) (hserver : s.server = .busy job p) {st : Stage}
    (hserver' : s'.server = .busy job' { p with stage := st }) (hdisk : s'.disk = s.disk)
    (hphase : job'.phase = job.phase) (hcursor : job'.cursor = job.cursor)
    (hread : p.stage ≠ .reading)
    (hafter : st.after = p.stage.after ∨ st.after = none)
    (hsub : ∀ line ∈ st.unscreened, line ∈ p.stage.unscreened) : s'.Sound up := by
  have hunread := h.unread _ _ hserver
  have hends := h.ends _ _ hserver
  have hahead := h.ahead _ _ hserver
  obtain ⟨hprocessing, hdiskPhase⟩ := h.phase _ _ hserver
  rw [← hdisk] at hahead hdiskPhase
  refine sound_busy hserver' ⟨hphase.trans hprocessing, hdiskPhase⟩ ?_
    (fun _ => h.batch job p hserver hread) ?_ (hcursor ▸ hahead) ?_
  · rw [hcursor]
    exact hunread
  · intro hfinished
    rcases hafter with heq | heq
    · exact hends (heq.symm.trans hfinished)
    · rw [heq] at hfinished
      cases hfinished
  · intro line hline
    have hlines := h.lines
    have hunsaved := h.unsaved
    rw [waiting_busy hserver] at hlines hunsaved
    have hmem : line ∈ p.waiting := by
      rcases List.mem_append.mp hline with hbatch | hstage
      · exact List.mem_append_left _ hbatch
      · exact List.mem_append_right _ (hsub line hstage)
    rw [hdisk]
    exact ⟨hlines line hmem, hunsaved line hmem⟩

/-- The cursor is the number of the item that is next. -/
theorem Node.Sound.next (h : s.Sound up) (hserver : s.server = .busy job p) {item : Item}
    {unread : List Item} (heq : p.unread = item :: unread) :
    up.items[job.cursor]? = some item ∧ unread = up.items.drop (job.cursor + 1) := by
  rw [h.unread _ _ hserver] at heq
  have htail := congrArg List.tail heq
  have hhead := congrArg List.head? heq
  rw [List.tail_drop, List.tail_cons] at htail
  rw [List.head?_drop, List.head?_cons] at hhead
  exact ⟨hhead, htail.symm⟩

/-- The loop goes on. -/
theorem Node.Sound.turn (h : s.Sound up) (hserver : s.server = .busy job p)
    (hstage : p.stage = .reading)
    (hserver' : s'.server = .busy (p.turn batchLines job).1 (p.turn batchLines job).2)
    (hdisk : s'.disk = s.disk) : s'.Sound up := by
  have hunread := h.unread _ _ hserver
  have hlines : ∀ line ∈ p.waiting,
      up.screenedAt line.number = some line.bytes ∧ s'.disk.cursor ≤ line.number := by
    rw [← waiting_busy hserver, hdisk]
    exact fun line hline => ⟨h.lines line hline, h.unsaved line hline⟩
  have hahead := h.ahead _ _ hserver
  obtain ⟨hphase, hprocessing⟩ := h.phase _ _ hserver
  rw [← hdisk] at hprocessing hahead
  rcases @turn_cases job p batchLines with ⟨hnil, hjob, hp⟩ |
    ⟨item, unread, c, hcons, -, hjob, hp, -⟩ | ⟨item, unread, bytes, hcons, hscreened, hjob, hp⟩
  · rw [hjob, hp] at hserver'
    refine sound_busy hserver' ⟨hphase, hprocessing⟩ (flush_unread.trans hunread)
      (fun _ => flush_batch) (fun _ => flush_unread.trans hnil) hahead ?_
    rw [flush_waiting hstage]
    exact hlines
  · rw [hjob, hp] at hserver'
    refine sound_busy hserver' ⟨hphase, hprocessing⟩ (h.next hserver hcons).2
      (fun hne => absurd hstage hne) ?_ (Nat.le_succ_of_le hahead) hlines
    rw [hstage]
    nofun
  · rw [hjob, hp] at hserver'
    refine sound_busy hserver' ⟨hphase, hprocessing⟩
      (push_unread.trans (h.next hserver hcons).2) (push_batch hstage)
      (fun hfinished => absurd hfinished (push_after hstage)) (Nat.le_succ_of_le hahead) ?_
    rw [@push_waiting { p with unread := unread } _ _ hstage]
    intro line hline
    rcases List.mem_append.mp hline with hold | hnew
    · exact hlines line hold
    · rw [List.mem_singleton.mp hnew]
      refine ⟨?_, hahead⟩
      simp only [Upload.screenedAt, (h.next hserver hcons).1, Option.bind_some, hscreened]

theorem sound_step (h : s.Sound up) {a : Act} (hstep : step lib batchLines up s a = some s') :
    s'.Sound up := by
  cases move_of_step hstep with
  | load hserver =>
    refine sound_rest (Or.inr rfl) fun hdone => h.done ?_
    revert hdone
    simp only [Node.set]
    cases s.disk.phase <;> cases s.file <;> simp [Phase.loaded]
  | claim hserver hphase hfile =>
    have hdisk := h.idle _ hserver
    refine sound_busy rfl ⟨rfl, rfl⟩ rfl (fun hne => absurd rfl hne) nofun (Nat.le_refl _) ?_
    nofun
  | lost hserver hphase hfile => exact sound_rest (Or.inr rfl) nofun
  | rest hserver => exact sound_rest (Or.inl rfl) h.done
  | crash hserver => exact sound_rest (Or.inl rfl) h.done
  | record hids =>
    exact ⟨h.idle, h.phase, h.unread, h.batch, h.ends, h.lines, h.ahead, h.unsaved, h.done⟩
  | process hserver hmove =>
    have hdisk := (h.phase _ _ hserver).2
    cases hmove with
    | turn hstage => exact h.turn hserver hstage rfl rfl
    | stop hstage =>
      refine sound_busy rfl ⟨(h.phase _ _ hserver).1, hdisk⟩
        (flush_unread.trans (h.unread _ _ hserver)) (fun _ => flush_batch) ?_ (h.ahead _ _ hserver) ?_
      · rw [flush_after]
        nofun
      · rw [flush_waiting hstage, ← waiting_busy hserver]
        exact fun line hline => ⟨h.lines line hline, h.unsaved line hline⟩
    | screen hstage hi hclock =>
      refine h.stage hserver rfl rfl rfl rfl (by rw [hstage]; nofun)
        (Or.inl (by rw [hstage]; rfl)) ?_
      intro line hline
      rw [hstage]
      exact (unscreened_set hi _).mem_iff.mpr (List.mem_cons_of_mem _ hline)
    | dedupe hstage hall =>
      exact h.stage hserver rfl rfl rfl rfl (by rw [hstage]; nofun)
        (Or.inl (by rw [hstage]; rfl)) nofun
    | save hstage hi =>
      exact h.stage hserver rfl rfl rfl rfl (by rw [hstage]; nofun)
        (Or.inl (by rw [hstage]; rfl)) nofun
    | saved hstage hall =>
      exact h.stage hserver rfl rfl rfl rfl (by rw [hstage]; nofun)
        (Or.inl (by rw [hstage]; rfl)) nofun
    | sendNew hstage =>
      exact h.stage hserver rfl rfl rfl rfl (by rw [hstage]; nofun)
        (Or.inl (by rw [hstage]; rfl)) nofun
    | sendOld hstage =>
      exact h.stage hserver rfl rfl rfl rfl (by rw [hstage]; nofun)
        (Or.inl (by rw [hstage]; rfl)) nofun
    | @persist after hstage =>
      have hbatch := h.batch _ _ hserver (by rw [hstage]; nofun)
      have hphase := (h.phase _ _ hserver).1
      have hunread := h.unread _ _ hserver
      have hends := h.ends _ _ hserver
      rw [hstage] at hends
      refine sound_busy rfl ⟨hphase, hphase⟩ hunread (fun _ => hbatch) ?_ (Nat.le_refl _) ?_
      · split_ifs with hmore
        · nofun
        · exact hends
      · rw [Process.waiting, hbatch]
        split_ifs <;> nofun
    | exit hstage =>
      refine sound_rest (Or.inl rfl) nofun
    | done hstage =>
      refine sound_rest (Or.inr rfl) fun _ => ?_
      have hnil := h.ends _ _ hserver (by rw [hstage]; rfl)
      rw [h.unread _ _ hserver, List.drop_eq_nil_iff] at hnil
      exact hnil

/-! ## The accounts hold -/

theorem accounted_busy (hserver : s'.server = .busy job p) (hdisk : s'.disk.counts.Balanced)
    (hjob : job.counts.Accounts p.waiting.length p.stage.undecided) : s'.Accounted where
  disk := hdisk
  job := by
    rw [job_busy hserver, waiting_busy hserver, undecided_busy hserver]
    exact hjob

theorem accounted_rest (hserver : s'.server = .down ∨ s'.server = .idle s'.disk)
    (hdisk : s'.disk.counts.Balanced) : s'.Accounted where
  disk := hdisk
  job := by
    unfold Node.job Node.waiting Node.undecided
    rcases hserver with h | h
    · rw [h]
      exact hdisk
    · rw [h]
      exact hdisk

/-- Every event is known, or fresh. -/
theorem filter_known_length (s : Node) (evs : List NostrEvent) :
    (evs.filter fun ev => s.known ev).length + (evs.filter fun ev => !s.known ev).length =
      evs.length := by
  induction evs with
  | nil => rfl
  | cons ev evs ih =>
    cases hknown : s.known ev <;> simp [hknown] <;> omega

theorem saved_length {slots : List (NostrEvent × Option SaveEventStatus)}
    (hall : ∀ slot ∈ slots, slot.2.isSome = true) :
    (slots.filterMap fun slot => slot.2.map fun status => (slot.1, status)).length =
      slots.length := by
  rw [List.length_filterMap_eq_countP, List.countP_eq_length]
  intro slot hslot
  rw [Option.isSome_map]
  exact hall slot hslot

/-- When a batch is through, the counts balance. -/
theorem Node.Accounted.balanced (h : s.Accounted) (hsound : s.Sound up)
    (hserver : s.server = .busy job p) {st : Stage} (hstage : p.stage = st) (hread : st ≠ .reading)
    (hscreened : st.unscreened = []) (hdecided : st.undecided = 0) : job.counts.Balanced := by
  have hjob := h.job
  subst hstage
  rw [job_busy hserver, waiting_busy hserver, undecided_busy hserver, Process.waiting,
    hsound.batch _ _ hserver hread, hscreened, hdecided] at hjob
  exact hjob

theorem accounted_step (hsound : s.Sound up) (h : s.Accounted) {a : Act}
    (hstep : step lib batchLines up s a = some s') : s'.Accounted := by
  have hdisk := h.disk
  have hjob := h.job
  cases move_of_step hstep with
  | load hserver => exact accounted_rest (Or.inr rfl) hdisk
  | claim hserver hphase hfile =>
    rw [← hsound.idle _ hserver] at hdisk
    exact accounted_busy rfl hdisk hdisk
  | lost hserver hphase hfile =>
    rw [← hsound.idle _ hserver] at hdisk
    exact accounted_rest (Or.inr rfl) hdisk
  | rest hserver => exact accounted_rest (Or.inl rfl) hdisk
  | crash hserver => exact accounted_rest (Or.inl rfl) hdisk
  | record hids => exact ⟨hdisk, hjob⟩
  | @process job p a s' hserver hmove =>
    rw [job_busy hserver, waiting_busy hserver, undecided_busy hserver] at hjob
    cases hmove with
    | turn hstage =>
      have hzero : p.stage.undecided = 0 := by
        rw [hstage]
        rfl
      rcases @turn_cases job p batchLines with ⟨-, hjob', hp⟩ |
        ⟨item, unread, c, -, -, hjob', hp, hc⟩ |
        ⟨item, unread, bytes, -, -, hjob', hp⟩
      · refine accounted_busy rfl hdisk ?_
        rw [hzero] at hjob
        rw [hjob', hp, flush_waiting hstage, flush_undecided]
        exact hjob
      · refine accounted_busy rfl hdisk ?_
        rw [hjob', hp]
        exact hc _ _ hjob
      · refine accounted_busy rfl hdisk ?_
        rw [hzero] at hjob
        rw [hjob', hp, @push_waiting { p with unread := unread } _ _ hstage,
          @push_undecided { p with unread := unread } _ _ hstage, List.length_append]
        exact ⟨by rw [hjob.1]; rfl, hjob.2⟩
    | stop hstage =>
      refine accounted_busy rfl hdisk ?_
      rw [hstage] at hjob
      rw [flush_waiting hstage, flush_undecided]
      exact hjob
    | @screen slots after i now line hstage hi hclock =>
      have hwaiting := (@unscreened_set slots after i line hi
        (screen lib job.counts line.bytes now).1).length_eq
      refine accounted_busy rfl hdisk ?_
      rw [undecided_set hi]
      refine screen_accounts ?_
      simp only [Process.waiting, hstage, List.length_append, List.length_cons] at hjob hwaiting ⊢
      rw [hwaiting] at hjob
      exact hjob
    | @dedupe slots after hstage hall =>
      have hunique := uniqueEvents_length ∅ (slots.filterMap fun slot => slot.2.join)
      have hknown := filter_known_length s
        (uniqueEvents ∅ (slots.filterMap fun slot => slot.2.join)).1
      refine accounted_busy rfl hdisk ?_
      simp only [Process.waiting, hstage, unscreened_filled hall, Stage.undecided] at hjob
      obtain ⟨hlines, hvalid⟩ := hjob
      refine ⟨hlines, ?_⟩
      simp only [Stage.undecided, List.length_map]
      omega
    | @save slots after i ev hstage hi =>
      refine accounted_busy rfl hdisk ?_
      simp only [Process.waiting, hstage, Stage.undecided, Stage.unscreened] at hjob ⊢
      rw [List.length_set]
      exact hjob
    | @saved slots after hstage hall =>
      refine accounted_busy rfl hdisk ?_
      simp only [Process.waiting, hstage, Stage.undecided, Stage.unscreened] at hjob ⊢
      rw [saved_length hall]
      exact hjob
    | @sendNew ev todo after hstage =>
      refine accounted_busy rfl hdisk ?_
      simp only [Process.waiting, hstage, Stage.undecided, Stage.unscreened, List.length_cons]
        at hjob ⊢
      obtain ⟨hlines, hvalid⟩ := hjob
      refine ⟨hlines, ?_⟩
      dsimp only
      omega
    | @sendOld ev todo after hstage =>
      refine accounted_busy rfl hdisk ?_
      simp only [Process.waiting, hstage, Stage.undecided, Stage.unscreened, List.length_cons]
        at hjob ⊢
      obtain ⟨hlines, hvalid⟩ := hjob
      refine ⟨hlines, ?_⟩
      dsimp only
      omega
    | @persist after hstage =>
      have hbatch := hsound.batch _ _ hserver (by rw [hstage]; nofun)
      have hbalanced := h.balanced hsound hserver hstage nofun rfl rfl
      refine accounted_busy rfl hbalanced ?_
      split_ifs <;> simp only [Process.waiting, hbatch] <;> exact hbalanced
    | exit hstage =>
      have hbalanced := h.balanced hsound hserver hstage nofun rfl rfl
      exact accounted_rest (Or.inl rfl) hbalanced
    | done hstage =>
      have hbalanced := h.balanced hsound hserver hstage nofun rfl rfl
      exact accounted_rest (Or.inr rfl) hbalanced

/-! ## What is screened -/

/-- The lines that were screened or wait for it. -/
def Node.numbers (s : Node) : List ℕ := s.handed ++ s.waiting.map Line.number

@[simp] theorem numbers_busy (h : s.server = .busy job p) :
    s.numbers = s.handed ++ p.waiting.map Line.number := by
  rw [Node.numbers, waiting_busy h]

theorem numbers_rest (h : ∀ job p, s.server ≠ .busy job p) : s.numbers = s.handed := by
  have hwaiting : s.waiting = [] := by
    unfold Node.waiting
    split
    · next hbusy => exact absurd hbusy (h _ _)
    · rfl
  rw [Node.numbers, hwaiting, List.map_nil, List.append_nil]

/-- What a step does to the cursor and to the lines: nothing, or the next item is taken, or a crash
drops what waits and takes the cursor back. -/
inductive Progress (up : Upload) (s s' : Node) : Act → Prop
  | same {a : Act} (hcursor : s'.job.cursor = s.job.cursor) (h : s'.numbers.Perm s.numbers) :
      Progress up s s' a
  | took {a : Act} (hcursor : s'.job.cursor = s.job.cursor + 1)
      (h : s'.numbers.Perm
        (s.numbers ++ if (up.screenedAt s.job.cursor).isSome then [s.job.cursor] else [])) :
      Progress up s s' a
  | back (hcursor : s'.job.cursor = s.disk.cursor) (h : s'.numbers = s.handed) :
      Progress up s s' .crash

/-- A step of a flush after the screening. -/
theorem progress_stage {a : Act} (hserver : s.server = .busy job p) {st : Stage}
    (hserver' : s'.server = .busy job' { p with stage := st }) (hcursor : job'.cursor = job.cursor)
    (hhanded : s'.handed = s.handed) (hst : st.unscreened = p.stage.unscreened) :
    Progress up s s' a := by
  refine .same ?_ ?_
  · rw [job_busy hserver, job_busy hserver', hcursor]
  · rw [numbers_busy hserver, numbers_busy hserver', hhanded, Process.waiting, Process.waiting, hst]

/-- Before a job is taken up, and after it is put down, nothing waits. -/
theorem progress_idle {a : Act} (hserver : ∀ job p, s.server ≠ .busy job p)
    (hserver' : ∀ job p, s'.server ≠ .busy job p) (hcursor : s'.job.cursor = s.job.cursor)
    (hhanded : s'.handed = s.handed) : Progress up s s' a := by
  refine .same hcursor ?_
  rw [numbers_rest hserver, numbers_rest hserver', hhanded]

/-- A process that is left when its batch is through. -/
theorem progress_over {a : Act} (hsound : s.Sound up) (hserver : s.server = .busy job p)
    {st : Stage} (hstage : p.stage = st) (hread : st ≠ .reading) (hscreened : st.unscreened = [])
    (hserver' : ∀ job p, s'.server ≠ .busy job p) (hcursor : s'.job.cursor = job.cursor)
    (hhanded : s'.handed = s.handed) : Progress up s s' a := by
  subst hstage
  have hbatch := hsound.batch _ _ hserver hread
  refine .same ?_ ?_
  · rw [job_busy hserver, hcursor]
  · rw [numbers_busy hserver, numbers_rest hserver', hhanded, Process.waiting, hbatch, hscreened]
    simp

theorem progress_step (hsound : s.Sound up) {a : Act}
    (hstep : step lib batchLines up s a = some s') : Progress up s s' a := by
  cases move_of_step hstep with
  | load hserver =>
    apply progress_idle (by simp [hserver]) (by simp [Node.set])
    · simp only [Node.job, Node.set, hserver]
    · rfl
  | claim hserver hphase hfile =>
    refine .same ?_ ?_
    · simp only [Node.job, hserver]
    · rw [numbers_busy rfl, numbers_rest (by simp [hserver])]
      simp [Process.waiting, Stage.unscreened]
  | lost hserver hphase hfile =>
    apply progress_idle (by simp [hserver]) (by simp [Node.set])
    · simp only [Node.job, Node.set, hserver]
    · rfl
  | rest hserver =>
    apply progress_idle (by simp [hserver]) (by simp)
    · simp only [Node.job, hserver, hsound.idle _ hserver]
    · rfl
  | crash hserver => exact .back rfl (numbers_rest (by simp))
  | record hids => exact .same rfl (List.Perm.refl _)
  | @process job p a s' hserver hmove =>
    cases hmove with
    | turn hstage =>
      rcases @turn_cases job p batchLines with ⟨-, hjob, hp⟩ |
        ⟨item, unread, c, hcons, hscreened, hjob, hp, -⟩ |
        ⟨item, unread, bytes, hcons, hscreened, hjob, hp⟩
      · refine .same ?_ ?_
        · rw [job_busy hserver, job_busy rfl, hjob]
        · rw [numbers_busy hserver, numbers_busy rfl, hp, flush_waiting hstage]
      · refine .took ?_ ?_
        · rw [job_busy hserver, job_busy rfl, hjob]
        · rw [numbers_busy hserver, numbers_busy rfl, hp, job_busy hserver, Upload.screenedAt,
            (hsound.next hserver hcons).1, Option.bind_some, hscreened, Option.isSome_none,
            if_neg Bool.false_ne_true, List.append_nil]
          rfl
      · refine .took ?_ ?_
        · rw [job_busy hserver, job_busy rfl, hjob]
        · rw [numbers_busy hserver, numbers_busy rfl, hp, job_busy hserver, Upload.screenedAt,
            (hsound.next hserver hcons).1, Option.bind_some, hscreened, Option.isSome_some,
            if_pos rfl,
            @push_waiting { p with unread := unread } _ _ hstage, List.map_append,
            List.append_assoc]
          rfl
    | stop hstage =>
      refine .same ?_ ?_
      · rw [job_busy hserver, job_busy rfl]
      · rw [numbers_busy hserver, numbers_busy rfl, flush_waiting hstage]
    | @screen slots after i now line hstage hi hclock =>
      have hperm := (@unscreened_set slots after i line hi
        (screen lib job.counts line.bytes now).1).map Line.number
      refine .same ?_ ?_
      · rw [job_busy hserver, job_busy rfl]
      · rw [numbers_busy hserver, numbers_busy rfl]
        simp only [Process.waiting, hstage, List.map_append, List.append_assoc]
        refine List.Perm.append_left _ ?_
        exact (List.perm_append_comm_assoc [line.number] _ _).trans (hperm.symm.append_left _)
    | dedupe hstage hall =>
      refine progress_stage hserver rfl rfl rfl ?_
      rw [hstage, unscreened_filled hall]
      rfl
    | save hstage hi => exact progress_stage hserver rfl rfl rfl (by rw [hstage]; rfl)
    | saved hstage hall => exact progress_stage hserver rfl rfl rfl (by rw [hstage]; rfl)
    | sendNew hstage => exact progress_stage hserver rfl rfl rfl (by rw [hstage]; rfl)
    | sendOld hstage => exact progress_stage hserver rfl rfl rfl (by rw [hstage]; rfl)
    | persist hstage =>
      refine progress_stage hserver rfl rfl rfl ?_
      rw [hstage]
      split_ifs <;> rfl
    | exit hstage =>
      exact progress_over hsound hserver hstage nofun rfl (by simp) rfl rfl
    | done hstage =>
      exact progress_over hsound hserver hstage nofun rfl (by simp [Node.set]) rfl rfl

/-- What the disk says was done is what was done in memory, once nothing waits. -/
theorem disk_step (hsound : s.Sound up) {a : Act} (hstep : step lib batchLines up s a = some s') :
    s'.disk.cursor = s.disk.cursor ∨ s'.disk.cursor = s'.job.cursor ∧ s'.waiting = [] := by
  cases move_of_step hstep with
  | load hserver => exact Or.inl rfl
  | claim hserver hphase hfile => exact Or.inr ⟨rfl, rfl⟩
  | lost hserver hphase hfile => exact Or.inr ⟨rfl, rfl⟩
  | rest hserver => exact Or.inl rfl
  | crash hserver => exact Or.inl rfl
  | record hids => exact Or.inl rfl
  | @process job p a s' hserver hmove =>
    cases hmove with
    | @persist after hstage =>
      have hbatch := hsound.batch _ _ hserver (by rw [hstage]; nofun)
      refine Or.inr ⟨by rw [job_busy rfl], ?_⟩
      rw [waiting_busy rfl, Process.waiting, hbatch]
      split_ifs <;> rfl
    | exit hstage => exact Or.inr ⟨rfl, rfl⟩
    | done hstage => exact Or.inr ⟨rfl, rfl⟩
    | _ => exact Or.inl rfl

theorem persist_disk (hstep : step lib batchLines up s .persist = some s')
    (hserver : s'.server = .busy job p) : s'.disk = job := by
  cases move_of_step hstep with
  | process hserver' hmove =>
    cases hmove with
    | persist hstage =>
      cases hserver
      rfl

/-- Every line before the cursor was screened or waits for it; before the cursor on the disk, it was
screened. -/
structure Node.Covered (up : Upload) (s : Node) : Prop where
  disk : ∀ i < s.disk.cursor, (up.screenedAt i).isSome = true → i ∈ s.handed
  job : ∀ i < s.job.cursor, (up.screenedAt i).isSome = true → i ∈ s.numbers

/-- Each line before the cursor was screened or waits for it, once, and no other. -/
def Node.CoveredOnce (up : Upload) (s : Node) : Prop :=
  ∀ i, s.numbers.count i = if i < s.job.cursor ∧ (up.screenedAt i).isSome = true then 1 else 0

theorem handed_step {a : Act} (hstep : step lib batchLines up s a = some s') :
    ∀ i ∈ s.handed, i ∈ s'.handed := by
  intro i hi
  cases move_of_step hstep with
  | process hserver hmove =>
    cases hmove with
    | screen => exact List.mem_append_left _ hi
    | _ => exact hi
  | _ => exact hi

theorem covered_step (hsound : s.Sound up) (h : s.Covered up) {a : Act}
    (hstep : step lib batchLines up s a = some s') : s'.Covered up := by
  have hjob : ∀ i < s'.job.cursor, (up.screenedAt i).isSome = true → i ∈ s'.numbers := by
    intro i hi hsome
    cases progress_step hsound hstep with
    | same hcursor hperm =>
      rw [hcursor] at hi
      exact hperm.mem_iff.mpr (h.job i hi hsome)
    | took hcursor hperm =>
      rw [hcursor] at hi
      rw [hperm.mem_iff, List.mem_append]
      rcases Nat.lt_succ_iff_lt_or_eq.mp hi with hlt | rfl
      · exact Or.inl (h.job i hlt hsome)
      · rw [if_pos hsome]
        exact Or.inr List.mem_cons_self
    | back hcursor heq =>
      rw [hcursor] at hi
      rw [heq]
      exact h.disk i hi hsome
  refine ⟨fun i hi hsome => ?_, hjob⟩
  rcases disk_step hsound hstep with heq | ⟨heq, hnil⟩
  · rw [heq] at hi
    exact handed_step hstep i (h.disk i hi hsome)
  · rw [heq] at hi
    have hmem := hjob i hi hsome
    rwa [Node.numbers, hnil, List.map_nil, List.append_nil] at hmem

theorem coveredOnce_step (hsound : s.Sound up) (h : s.CoveredOnce up) {a : Act} (ha : a ≠ .crash)
    (hstep : step lib batchLines up s a = some s') : s'.CoveredOnce up := by
  intro i
  cases progress_step hsound hstep with
  | same hcursor hperm => rw [hperm.count_eq, hcursor, h i]
  | took hcursor hperm =>
    rw [hperm.count_eq, List.count_append, h i, hcursor]
    rcases Nat.lt_trichotomy i s.job.cursor with hlt | rfl | hgt
    · have hne : s.job.cursor ≠ i := hlt.ne'
      split_ifs <;> simp_all <;> omega
    · split_ifs <;> simp_all
    · have hne : s.job.cursor ≠ i := hgt.ne
      split_ifs <;> simp_all <;> omega
  | back hcursor heq => exact absurd rfl ha

end sound

/-! ## The account of a submission -/

section run

variable {lib : ScreenLib} {batchLines : ℕ} {up : Upload} {archive : Finset String}
  {dedupe : Option (Finset String)} {clock : ℕ} {as : List Act} {s : Node}

theorem sound_start : (start archive dedupe clock).Sound up :=
  sound_rest (Or.inr rfl) nofun

theorem accounted_start : (start archive dedupe clock).Accounted :=
  accounted_rest (Or.inr rfl) ⟨rfl, rfl⟩

theorem covered_start : (start archive dedupe clock).Covered up :=
  ⟨fun i hi => absurd hi (Nat.not_lt_zero i), fun i hi => absurd hi (Nat.not_lt_zero i)⟩

theorem coveredOnce_start : (start archive dedupe clock).CoveredOnce up := by
  intro i
  rw [if_neg fun h => absurd h.1 (Nat.not_lt_zero i)]
  rfl

theorem sound_run (hrun : run (step lib batchLines up) (start archive dedupe clock) as = some s) :
    s.Sound up :=
  run_invariant' (fun _ _ _ h hstep => sound_step h hstep) sound_start hrun

/-- When the job is done, nothing is left to read and nothing waits. -/
theorem numbers_done (hsound : s.Sound up) (hdone : s.disk.phase = .done) :
    s.numbers = s.handed ∧ s.job.cursor = s.disk.cursor ∧ up.items.length ≤ s.disk.cursor := by
  have hbusy : ∀ job p, s.server ≠ .busy job p := by
    intro job p h
    have hphase := (hsound.phase job p h).2
    rw [hdone] at hphase
    cases hphase
  refine ⟨numbers_rest hbusy, ?_, hsound.done hdone⟩
  unfold Node.job
  split
  · rfl
  · next h => rw [hsound.idle _ h]
  · next h => exact absurd h (hbusy _ _)

/-- **Each flush balances the accounts, and each line is screened.** When a flush is through, every
line is accounted for. When the job is done, whatever the stops and crashes on the way, every line
that is not blank or too long and every payload that decodes was screened; and if there was no
crash, each of them was screened once, and nothing else was. -/
theorem submission_accounts
    (hrun : run (step lib batchLines up) (start archive dedupe clock) as = some s) :
    (∀ s' job p, step lib batchLines up s .persist = some s' → s'.server = .busy job p →
        job.counts.Balanced) ∧
      (s.disk.phase = .done → ∀ i, (up.screenedAt i).isSome = true → i ∈ s.handed) ∧
      (s.disk.phase = .done → (∀ a ∈ as, a ≠ .crash) →
        ∀ i, s.handed.count i = if (up.screenedAt i).isSome = true then 1 else 0) := by
  have hsound : s.Sound up := sound_run hrun
  have hitems : ∀ i, (up.screenedAt i).isSome = true → i < up.items.length := by
    intro i hsome
    by_contra hle
    rw [Upload.screenedAt, List.getElem?_eq_none (by omega)] at hsome
    cases hsome
  refine ⟨?_, ?_, ?_⟩
  · intro s' job p hstep hserver
    have hs : s.Sound up ∧ s.Accounted :=
      @run_invariant' _ _ _ (fun s => s.Sound up ∧ s.Accounted)
        (fun _ _ _ h hstep => ⟨sound_step h.1 hstep, accounted_step h.1 h.2 hstep⟩) _ _ _
        ⟨sound_start, accounted_start⟩ hrun
    rw [← persist_disk hstep hserver]
    exact (accounted_step hs.1 hs.2 hstep).disk
  · intro hdone i hsome
    have hs : s.Sound up ∧ s.Covered up :=
      @run_invariant' _ _ _ (fun s => s.Sound up ∧ s.Covered up)
        (fun _ _ _ h hstep => ⟨sound_step h.1 hstep, covered_step h.1 h.2 hstep⟩) _ _ _
        ⟨sound_start, covered_start⟩ hrun
    obtain ⟨-, -, hlength⟩ := numbers_done hsound hdone
    exact hs.2.disk i ((hitems i hsome).trans_le hlength) hsome
  · intro hdone hgraceful i
    have hs : s.Sound up ∧ s.CoveredOnce up :=
      @run_invariant _ _ (step lib batchLines up) (fun _ a => a ≠ .crash)
        (fun s => s.Sound up ∧ s.CoveredOnce up)
        (fun _ _ _ h ha hstep => ⟨sound_step h.1 hstep, coveredOnce_step h.1 h.2 ha hstep⟩) _ _ _
        ⟨sound_start, coveredOnce_start⟩ (along_of_mem hgraceful) hrun
    obtain ⟨hnumbers, hcursor, hlength⟩ := numbers_done hsound hdone
    have hcount := hs.2 i
    rw [hnumbers, hcursor] at hcount
    rw [hcount]
    refine if_congr ⟨And.right, fun hsome => ⟨?_, hsome⟩⟩ rfl rfl
    exact (hitems i hsome).trans_le hlength

end run

/-! ## A payload that is no event, and a blank line -/

/-- No payload is an event. -/
def noEventLib : ScreenLib := { parse := fun _ => none, verified := fun _ => false }

/-- A database with the payload of an empty object, and one that does not decode. -/
def twoPayloads : Upload := .lmdb [.json [123, 125], .undecodable]

def twoPayloadsActs : List Act :=
  [.claim, .read, .screen 0 0, .dedupe, .saved, .persist, .read, .read, .persist, .finish]

def twoPayloadsDone : Node where
  disk := { phase := .done, cursor := 2, counts := { lines := 2, malformed := 1, undecodable := 1 } }
  file := false
  server := .idle
    { phase := .done, cursor := 2, counts := { lines := 2, malformed := 1, undecodable := 1 } }
  archive := ∅
  dedupe := none
  clock := 0
  handed := [0]
  passed := []
  sent := []

theorem run_twoPayloads :
    run (step noEventLib 1 twoPayloads) (start ∅ none 0) twoPayloadsActs = some twoPayloadsDone :=
  rfl

theorem payload_screened_once :
    twoPayloadsDone.handed.count 0 = if (twoPayloads.screenedAt 0).isSome = true then 1 else 0 :=
  (submission_accounts run_twoPayloads).2.2 rfl (by simp [twoPayloadsActs]) 0

theorem linesOf_newline : linesOf [10] = [.line [10]] := by
  have hline : nextLine [10] = (.line [10], []) := by decide
  have heof : nextLine [] = (.eof, []) := by decide
  rw [linesOf_line hline, linesOf_eof heof]

/-- A blank line is never screened. -/
theorem blank_line_not_screened :
    ∃ s, run (step noEventLib 4096 (.stream [10])) (start ∅ none 0)
        [.claim, .read, .read, .persist, .finish] = some s ∧
      s.disk.phase = .done ∧ (Upload.stream [10]).items[0]? = some (.line [10]) ∧ 0 ∉ s.handed := by
  have hitems : (Upload.stream [10]).items = [.line [10]] := linesOf_newline
  have hclaim : step noEventLib 4096 (.stream [10]) (start ∅ none 0) .claim = some
      { start ∅ none 0 with
        disk := { phase := .processing, cursor := 0, counts := {} }
        server := .busy { phase := .processing, cursor := 0, counts := {} }
          { unread := [.line [10]], batch := {}, stage := .reading } } := by
    rw [← hitems]
    rfl
  refine ⟨_, run_cons_some.mpr ⟨_, hclaim, rfl⟩, rfl, ?_, ?_⟩
  · rw [hitems]
    rfl
  · exact List.not_mem_nil

end NostrSearch.Server.Submit
