import NostrSearch.Server.UploadFiles

/-!
# No upload is left over

A job is followed from its upload on: while it is under way nothing of it is in a record, and from
when it is stored to when it is over its file stays, and each record of it says that it is queued or
processed (`JobInv`). So if every upload that is in the directory when the process stops has a
record that can be read (`Covered`), `load_jobs` finds a job for it, and queues it again or removes
it (`uploads_recovered`).

The code writes the first record when the upload is over. A process that stops before leaves the
file without one, which nothing removes (`orphan_stays`, `upload_orphaned`).
-/

namespace NostrSearch.Server.Uploads

open NostrSearch.Lib NostrSearch.Server.Submit

/-! ## One job -/

/-- What a `persist` has cloned. -/
def Persist.All (P : Record → Prop) : Persist → Prop
  | .cloned r => P r
  | .opened r _ => P r
  | _ => True

/-- What holds of the records, and of one that is written. -/
theorem forall_record_set {P : Record → Prop} {contents : List Content} {i : ℕ} {c : Content}
    (h : ∀ r, Content.record r ∈ contents → P r) (hc : ∀ r, c = .record r → P r) :
    ∀ r, Content.record r ∈ contents.set i c → P r := by
  intro r hr
  obtain hr | hr := List.mem_or_eq_of_mem_set hr
  · exact h r hr
  · exact hc r hr.symm

/-- A `persist` puts into the directory what the job was, and does not touch the upload. -/
theorem persistStep_keeps {P : Record → Prop} {job : Record} {f f' : Files} {p : Persist}
    {p' : Option Persist} {a : Io} (h : persistStep job f p a = some (f', p')) (hjob : P job)
    (hp : p.All P) (hcontents : ∀ r, Content.record r ∈ f.contents → P r) :
    f'.upload = f.upload ∧ (∀ q ∈ p', q.All P) ∧ ∀ r, Content.record r ∈ f'.contents → P r := by
  unfold persistStep at h
  split at h
  -- the job is cloned
  · cases h
    refine ⟨rfl, ?_, hcontents⟩
    rintro q ⟨⟩
    exact hjob
  -- `fs::write` opens the file, which is there or not
  · split at h
    · cases h
      refine ⟨rfl, ?_, forall_record_set hcontents (by rintro r ⟨⟩)⟩
      rintro q ⟨⟩
      exact hp
    · cases h
      refine ⟨rfl, ?_, ?_⟩
      · rintro q ⟨⟩
        exact hp
      · intro r hr
        obtain hr | hr := List.mem_append.mp hr
        · exact hcontents r hr
        · cases List.mem_singleton.mp hr
  · cases h
    exact ⟨rfl, by rintro q ⟨⟩, hcontents⟩
  -- it writes what was cloned, or what is left of it and of another
  · split at h
    · cases h
    · cases h
      refine ⟨rfl, ?_, forall_record_set hcontents ?_⟩
      · rintro q ⟨⟩
        trivial
      · intro r hr
        split at hr
        · cases hr
        · cases hr
          exact hp
  · cases h
    exact ⟨rfl, by rintro q ⟨⟩, forall_record_set hcontents (by rintro r ⟨⟩)⟩
  -- the file is renamed, if no other has renamed it
  · split at h
    · cases h
      exact ⟨rfl, by rintro q ⟨⟩, hcontents⟩
    · cases h
      exact ⟨rfl, by rintro q ⟨⟩, hcontents⟩
  · cases h
    exact ⟨rfl, by rintro q ⟨⟩, hcontents⟩
  · cases h

/-- A job that `load_jobs` queues again. -/
def Live (r : Record) : Prop := r.phase = .queued ∨ r.phase = .processing

theorem Live.ne_uploading {r : Record} (h : Live r) : r.phase ≠ .uploading := by
  intro hphase
  rw [Live, hphase] at h
  simp at h

/-- The handler of an upload that is under way. -/
inductive Sending (upload : Option (List UInt8)) (creating : Bool) : Thread → Prop
  | opening (hempty : ∀ c ∈ upload, c = []) : Sending upload creating .opening
  | receiving {body pending c : List UInt8} (hcreating : creating = false)
      (hupload : upload = some c) (hbody : c ++ pending = body) :
      Sending upload creating (.receiving body pending)

structure UnderWay (s : JobState) : Prop where
  thread : ∃ t, s.threads = [t] ∧ Sending s.files.upload s.creating t
  job : ∀ r ∈ s.job, r.phase = .uploading
  contents : s.files.contents = []
  accepted : s.accepted = none

/-- The threads of a job that is stored. -/
inductive Keeping (body : List UInt8) : Thread → Prop
  | persisting {p : Persist} {next : Rest} (hp : p.All Live) (hnext : next ≠ .removeFiles)
      (hanswer : ∀ b, next = .answer b → b = body) : Keeping body (.persisting p next)
  | answering : Keeping body (.answering body)
  | processing : Keeping body .processing

/-- A job that is stored, and not over. -/
structure Kept (body : List UInt8) (s : JobState) : Prop where
  upload : s.files.upload = some body
  creating : s.creating = false
  job : ∀ r ∈ s.job, Live r
  contents : ∀ r, Content.record r ∈ s.files.contents → Live r
  threads : ∀ t ∈ s.threads, Keeping body t
  accepted : ∀ b ∈ s.accepted, b = body

/-- The threads of a job whose upload was not stored. -/
inductive Aside : Thread → Prop
  | persisting {p : Persist} {next : Rest} (hnext : ∀ b, next ≠ .answer b) :
      Aside (.persisting p next)
  | processing : Aside .processing
  | removing : Aside .removing

structure Lost (s : JobState) : Prop where
  accepted : s.accepted = none
  threads : ∀ t ∈ s.threads, Aside t

inductive JobInv (s : JobState) : Prop
  | underWay (h : UnderWay s)
  | kept (body : List UInt8) (h : Kept body s)
  | lost (h : Lost s)
  | finished (h : s.finished = true)

section goOn

variable {s : JobState} {i : ℕ} {o : Option Thread}

@[simp] theorem goOn_files : (s.goOn i o).files = s.files := by cases o <;> rfl

@[simp] theorem goOn_job : (s.goOn i o).job = s.job := by cases o <;> rfl

@[simp] theorem goOn_creating : (s.goOn i o).creating = s.creating := by cases o <;> rfl

@[simp] theorem goOn_accepted : (s.goOn i o).accepted = s.accepted := by cases o <;> rfl

@[simp] theorem goOn_finished : (s.goOn i o).finished = s.finished := by cases o <;> rfl

theorem mem_goOn {t : Thread} (h : t ∈ (s.goOn i o).threads) : t ∈ s.threads ∨ o = some t := by
  cases o with
  | none => exact Or.inl (List.mem_of_mem_eraseIdx h)
  | some u =>
    obtain h | rfl := List.mem_or_eq_of_mem_set h
    · exact Or.inl h
    · exact Or.inr rfl

/-- What holds of the threads, and of what one of them becomes. -/
theorem forall_goOn {P : Thread → Prop} (h : ∀ t ∈ s.threads, P t) (ho : ∀ t ∈ o, P t) :
    ∀ t ∈ (s.goOn i o).threads, P t := by
  intro t ht
  obtain ht | ht := mem_goOn ht
  · exact h t ht
  · exact ho t ht

end goOn

/-! ### Steps -/

section moves

variable {s s' : JobState} {i : ℕ} {t : Thread}

theorem Lost.goOn {o : Option Thread} (h : Lost s) (ho : ∀ t ∈ o, Aside t) : Lost (s.goOn i o) := by
  refine ⟨?_, forall_goOn h.threads ho⟩
  rw [goOn_accepted]
  exact h.accepted

theorem Lost.move (h : Lost s) (ht : t ∈ s.threads) (hmove : ThreadMove s i t s') : JobInv s' := by
  have haside := h.threads t ht
  cases hmove with
  | @io p next _ _ _ p' hjob hpersist =>
    cases haside with
    | persisting hnext =>
      refine .lost (Lost.goOn ⟨h.accepted, h.threads⟩ ?_)
      intro u hu
      cases p' with
      | some p' =>
        cases hu
        exact .persisting hnext
      | none =>
        cases next with
        | ended => cases hu
        | answer body => exact absurd rfl (hnext body)
        | process =>
          cases hu
          exact .processing
        | removeFiles =>
          cases hu
          exact .removing
  | flush =>
    refine .lost (h.goOn ?_)
    rintro _ ⟨⟩
    exact .persisting nofun
  | done => exact .finished goOn_finished
  | failed => exact .finished goOn_finished
  | stopped =>
    refine .lost (Lost.goOn ⟨h.accepted, h.threads⟩ ?_)
    rintro _ ⟨⟩
    exact .persisting nofun
  | remove => exact .lost (Lost.goOn ⟨h.accepted, h.threads⟩ nofun)
  | _ => cases haside

/-- A `set` of an upload that is not stored. -/
theorem UnderWay.lost_set {phase : Phase} {error : Option String} {s'' : JobState}
    (h : s''.accepted = none) (hthreads : s''.threads = [t]) (hi : i = 0) :
    Lost (s''.set i phase error .ended) := by
  subst hi
  refine ⟨?_, ?_⟩
  · rw [JobState.set, goOn_accepted]
    exact h
  · show ∀ u ∈ s''.threads.set 0 (.persisting .start .ended), Aside u
    rw [hthreads]
    intro u hu
    cases List.mem_singleton.mp hu
    exact .persisting nofun

theorem UnderWay.lost_drop (h : UnderWay s) (hthreads : s.threads = [t]) (hi : i = 0) :
    Lost (s.dropGuard i) := by
  rw [JobState.dropGuard]
  split
  · exact UnderWay.lost_set h.accepted hthreads hi
  · subst hi
    refine ⟨?_, ?_⟩
    · rw [goOn_accepted]
      exact h.accepted
    · show ∀ u ∈ s.threads.eraseIdx 0, Aside u
      rw [hthreads]
      nofun

/-- The handler goes on. -/
theorem UnderWay.goOn {u v : Thread} (hthreads : s.threads = [u])
    (hsending : Sending s.files.upload s.creating v) (hjob : ∀ r ∈ s.job, r.phase = .uploading)
    (hcontents : s.files.contents = []) (haccepted : s.accepted = none) :
    UnderWay (s.goOn 0 (some v)) := by
  refine ⟨⟨v, ?_, hsending⟩, hjob, hcontents, haccepted⟩
  show s.threads.set 0 v = [v]
  rw [hthreads]
  rfl

theorem UnderWay.move (h : UnderWay s) (ht : s.threads[i]? = some t)
    (hmove : ThreadMove s i t s') : JobInv s' := by
  have haccepted := h.accepted
  have hcontents := h.contents
  have hjob := h.job
  obtain ⟨u, hthreads, hsending⟩ := h.thread
  -- there is one thread
  rw [hthreads, List.getElem?_singleton, Option.ite_none_right_eq_some, Option.some.injEq] at ht
  obtain ⟨rfl, rfl⟩ := ht
  cases hmove with
  | resume hcreating hupload =>
    cases hsending with
    | opening hempty =>
      obtain ⟨c, hc⟩ := Option.isSome_iff_exists.mp hupload
      have hnil := hempty c hc
      have hreceiving : Sending s.files.upload s.creating (.receiving [] []) :=
        .receiving hcreating hc (by rw [hnil]; rfl)
      exact .underWay (UnderWay.goOn hthreads hreceiving hjob hcontents haccepted)
  | createError e => exact .lost (UnderWay.lost_set haccepted hthreads rfl)
  | @chunk body pending bytes =>
    cases hsending with
    | receiving hcreating hupload hbody =>
      have hreceiving : Sending s.files.upload s.creating
          (.receiving (body ++ bytes) (pending ++ bytes)) :=
        .receiving hcreating hupload (by rw [← List.append_assoc, hbody])
      exact .underWay (UnderWay.goOn hthreads hreceiving hjob hcontents haccepted)
  | @reach body pending n =>
    cases hsending with
    | @receiving _ _ c hcreating hupload hbody =>
      -- what is on the disk and what is not are still the body
      have hreached : s.files.upload.map (fun c => c ++ pending.take n) =
          some (c ++ pending.take n) := by rw [hupload]; rfl
      have hreceiving : Sending (s.files.upload.map fun c => c ++ pending.take n) s.creating
          (.receiving body (pending.drop n)) :=
        .receiving hcreating hreached (by rw [List.append_assoc, List.take_append_drop, hbody])
      exact .underWay (UnderWay.goOn hthreads hreceiving hjob hcontents haccepted)
  | fail e => exact .lost (UnderWay.lost_set haccepted hthreads rfl)
  | @synced body =>
    cases hsending with
    | receiving hcreating hupload hbody =>
      -- all of it is on the disk, and the record that is cloned next says `queued`
      rw [List.append_nil] at hbody
      refine .kept body ⟨?_, hcreating, ?_, ?_, ?_, ?_⟩
      · exact hupload.trans (congrArg some hbody)
      · intro r hr
        obtain ⟨job, -, rfl⟩ := Option.map_eq_some_iff.mp hr
        exact Or.inl rfl
      · intro r hr
        have hnone : Content.record r ∈ s.files.contents := hr
        rw [hcontents] at hnone
        cases hnone
      · show ∀ u ∈ s.threads.set 0 (.persisting .start (.answer body)), Keeping body u
        rw [hthreads]
        intro u hu
        cases List.mem_singleton.mp hu
        exact .persisting trivial nofun fun b hb => (Rest.answer.inj hb).symm
      · intro b hb
        have hnone : s.accepted = some b := hb
        rw [haccepted] at hnone
        cases hnone
  | dropOpening => exact .lost (h.lost_drop hthreads rfl)
  | dropReceiving => exact .lost (h.lost_drop hthreads rfl)
  | _ => cases hsending

theorem Kept.goOn {body : List UInt8} {o : Option Thread} (h : Kept body s)
    (ho : ∀ t ∈ o, Keeping body t) : Kept body (s.goOn i o) := by
  refine ⟨?_, ?_, ?_, ?_, forall_goOn h.threads ho, ?_⟩
  · rw [goOn_files]
    exact h.upload
  · rw [goOn_creating]
    exact h.creating
  · rw [goOn_job]
    exact h.job
  · rw [goOn_files]
    exact h.contents
  · rw [goOn_accepted]
    exact h.accepted

/-- A `set` to a phase that is taken up again. -/
theorem Kept.mark {body : List UInt8} (h : Kept body s) {phase : Phase}
    (hphase : phase = .queued ∨ phase = .processing) (error : Option String) :
    Kept body (s.mark phase error) := by
  refine ⟨h.upload, h.creating, ?_, h.contents, h.threads, h.accepted⟩
  intro r hr
  obtain ⟨job, -, rfl⟩ := Option.map_eq_some_iff.mp hr
  exact hphase

theorem Kept.move {body : List UInt8} (h : Kept body s) (ht : t ∈ s.threads)
    (hmove : ThreadMove s i t s') : JobInv s' := by
  have hkeeping := h.threads t ht
  cases hmove with
  | @io p next job _ files p' hjob hpersist =>
    cases hkeeping with
    | persisting hp hnext hanswer =>
      obtain ⟨hupload, hp', hcontents⟩ :=
        persistStep_keeps hpersist (h.job job hjob) hp h.contents
      have hfiles : Kept body { s with files := files } :=
        ⟨hupload.trans h.upload, h.creating, h.job, hcontents, h.threads, h.accepted⟩
      refine .kept body (hfiles.goOn ?_)
      intro u hu
      cases p' with
      | some p' =>
        cases hu
        exact .persisting (hp' p' rfl) hnext hanswer
      | none =>
        cases next with
        | ended => cases hu
        | answer b =>
          cases hu
          rw [hanswer b rfl]
          exact .answering
        | process =>
          cases hu
          exact .processing
        -- the files are removed after `done` and `failed` only
        | removeFiles => exact absurd rfl hnext
  | answer =>
    cases hkeeping with
    | answering =>
      refine .kept body (Kept.goOn ⟨h.upload, h.creating, h.job, h.contents, h.threads, ?_⟩ nofun)
      rintro _ ⟨⟩
      rfl
  | flush =>
    refine .kept body (h.goOn ?_)
    rintro _ ⟨⟩
    exact .persisting trivial nofun nofun
  | done => exact .finished goOn_finished
  | failed => exact .finished goOn_finished
  | stopped =>
    refine .kept body ((h.mark (Or.inl rfl) none).goOn ?_)
    rintro _ ⟨⟩
    exact .persisting trivial nofun nofun
  | _ => cases hkeeping

theorem finished_drop (h : s.finished = true) : (s.dropGuard i).finished = true := by
  rw [JobState.dropGuard]
  split <;> exact goOn_finished.trans h

/-- A job that is over stays so. -/
theorem finished_move (h : s.finished = true) (hmove : ThreadMove s i t s') :
    s'.finished = true := by
  cases hmove with
  | dropOpening => exact finished_drop h
  | dropReceiving => exact finished_drop h
  | done => exact goOn_finished
  | failed => exact goOn_finished
  | _ => exact goOn_finished.trans h

/-- A file that is created, or not, is of an upload under way or of one that was dropped. -/
theorem JobInv.created (h : JobInv s) (hcreating : s.creating = true) {f : Files}
    (hcontents : f.contents = s.files.contents)
    (hupload : f.upload = s.files.upload ∨ f.upload = some []) :
    JobInv { s with creating := false, files := f } := by
  cases h with
  | underWay h =>
    obtain ⟨u, hthreads, hsending⟩ := h.thread
    cases hsending with
    -- a file that is created has nothing in it yet
    | opening hempty =>
      refine .underWay ⟨⟨.opening, hthreads, .opening ?_⟩, h.job, hcontents.trans h.contents,
        h.accepted⟩
      intro c (hc : f.upload = some c)
      obtain hsame | hnil := hupload
      · exact hempty c (hsame.symm.trans hc)
      · exact (Option.some.inj (hnil.symm.trans hc)).symm
    | receiving hnot =>
      rw [hnot] at hcreating
      cases hcreating
  | kept body h =>
    have hnot := h.creating
    rw [hnot] at hcreating
    cases hcreating
  | lost h => exact .lost ⟨h.accepted, h.threads⟩
  | finished h => exact .finished h

theorem JobInv.move (h : JobInv s) {a : JobAct} (hstep : jobStep s a = some s') : JobInv s' := by
  cases a with
  | created =>
    simp only [jobStep, Option.ite_none_right_eq_some, Option.some.injEq] at hstep
    obtain ⟨hcreating, rfl⟩ := hstep
    exact h.created hcreating rfl (Or.inr rfl)
  | notCreated =>
    simp only [jobStep, Option.ite_none_right_eq_some, Option.some.injEq] at hstep
    obtain ⟨hcreating, rfl⟩ := hstep
    exact h.created hcreating rfl (Or.inl rfl)
  | thread i a =>
    obtain ⟨t, ht, hstep⟩ := Option.bind_eq_some_iff.mp hstep
    have hmove := threadMove_of_step hstep
    have hmem := List.mem_of_getElem? ht
    cases h with
    | underWay h => exact h.move ht hmove
    | kept body h => exact h.move hmem hmove
    | lost h => exact h.move hmem hmove
    | finished h => exact .finished (finished_move h hmove)

/-! ### What the server does with a job -/

theorem JobInv.begun (h : s = {}) (now : ℕ) : JobInv (s.begun now) := by
  subst h
  refine .underWay ⟨⟨.opening, rfl, .opening nofun⟩, ?_, rfl, rfl⟩
  rintro _ ⟨⟩
  rfl

theorem Lost.spawn (h : Lost s) (ht : Aside t) : Lost (s.spawn t) := by
  refine ⟨h.accepted, ?_⟩
  intro u hu
  obtain hu | hu := List.mem_append.mp hu
  · exact h.threads u hu
  · rw [List.mem_singleton.mp hu]
    exact ht

theorem Kept.spawn {body : List UInt8} (h : Kept body s) (ht : Keeping body t) :
    Kept body (s.spawn t) := by
  refine ⟨h.upload, h.creating, h.job, h.contents, ?_, h.accepted⟩
  intro u hu
  obtain hu | hu := List.mem_append.mp hu
  · exact h.threads u hu
  · rw [List.mem_singleton.mp hu]
    exact ht

theorem JobInv.claimed (h : JobInv s) (hqueued : s.isPhase .queued = true) : JobInv s.claimed := by
  cases h with
  | underWay h =>
    -- it is not queued yet
    obtain ⟨r, hr, hphase⟩ := (Option.any_eq_true _ _).mp hqueued
    have huploading := h.job r hr
    rw [decide_eq_true_eq, huploading] at hphase
    cases hphase
  | kept body h =>
    exact .kept body ((h.mark (Or.inr rfl) none).spawn (.persisting trivial nofun nofun))
  | lost h => exact .lost (Lost.spawn ⟨h.accepted, h.threads⟩ (.persisting nofun))
  | finished h => exact .finished h

theorem JobInv.crashed (h : JobInv s) : JobInv s.crashed := by
  cases h with
  | underWay h => exact .lost ⟨h.accepted, nofun⟩
  | kept body h => exact .kept body ⟨h.upload, rfl, nofun, h.contents, nofun, h.accepted⟩
  | lost h => exact .lost ⟨h.accepted, nofun⟩
  | finished h => exact .finished h

theorem readable_mem {f : Files} {r : Record} (h : f.readable = some r) :
    Content.record r ∈ f.contents := by
  rw [Files.readable] at h
  split at h
  case h_1 r' hr =>
    cases h
    obtain ⟨i, -, hi⟩ := Option.bind_eq_some_iff.mp hr
    exact List.mem_of_getElem? hi
  case h_2 => cases h

theorem JobInv.restored (h : JobInv s) : JobInv s.restored := by
  cases h with
  | underWay h =>
    refine .underWay ⟨h.thread, ?_, h.contents, h.accepted⟩
    intro r hr
    have hmem := readable_mem hr
    rw [h.contents] at hmem
    cases hmem
  | kept body h =>
    refine .kept body ⟨h.upload, h.creating, ?_, h.contents, h.threads, h.accepted⟩
    intro r hr
    exact h.contents r (readable_mem hr)
  | lost h => exact .lost ⟨h.accepted, h.threads⟩
  | finished h => exact .finished h

/-- `load_jobs` has no threads but its own. -/
theorem JobInv.examination (h : JobInv s)
    (hthreads : ∀ t ∈ s.threads, ∃ p, t = .persisting p .ended) (hexamined : Examination s s') :
    JobInv s' := by
  cases h with
  | underWay h =>
    obtain ⟨t, ht, hsending⟩ := h.thread
    obtain ⟨p, rfl⟩ := hthreads t (by rw [ht]; exact List.mem_singleton_self t)
    cases hsending
  | kept body h =>
    have hupload := h.upload
    cases hexamined with
    | nothing => exact .kept body h
    | interrupted hjob hphase => exact absurd hphase (h.job _ hjob).ne_uploading
    | queued =>
      exact .kept body ((h.mark (Or.inl rfl) none).spawn (.persisting trivial nofun nofun))
    | missing hnone =>
      rw [hnone] at hupload
      cases hupload
    | removed hjob hphase =>
      obtain hlive | hlive := h.job _ hjob
      · exact absurd hlive hphase.1
      · exact absurd hlive hphase.2
  | lost h =>
    cases hexamined with
    | nothing => exact .lost h
    | removed => exact .lost ⟨h.accepted, h.threads⟩
    | _ => exact .lost (Lost.spawn ⟨h.accepted, h.threads⟩ (.persisting nofun))
  | finished h => cases hexamined <;> exact .finished h

end moves

/-! ## All jobs -/

/-- Each upload in the directory has a record that can be read. -/
def Covered (s : Node) : Prop :=
  ∀ id, (s.state id).files.upload.isSome = true → (s.state id).files.readable.isSome = true

/-- The process does not stop where an upload has no record. -/
def Timely (s : Node) (a : Act) : Prop := a = .crash → Covered s

/-- A job of the server that is queued. -/
def Queued (s : Node) (id : String) : Prop :=
  id ∈ s.jobs ∧ ∃ r, (s.state id).job = some r ∧ r.phase = .queued

/-- What there is when `load_jobs` returns. -/
structure Recovered (s : Node) : Prop where
  no_orphan : ∀ id, (s.state id).files.upload.isSome = true → Queued s id
  kept : ∀ id body, (s.state id).accepted = some body → (s.state id).finished = false →
    Queued s id ∧ (s.state id).files.upload = some body

/-- Nothing of a job is in memory. -/
structure Quiet (s : JobState) : Prop where
  job : s.job = none
  creating : s.creating = false
  threads : s.threads = []

/-- While `load_jobs` runs: an upload has a job, which is looked at or was queued. -/
structure Loading (s : Node) (todo : List String) : Prop where
  creating : ∀ id, (s.state id).creating = false
  threads : ∀ id, ∀ t ∈ (s.state id).threads, ∃ p, t = .persisting p .ended
  upload : ∀ id, (s.state id).files.upload.isSome = true →
    id ∈ s.jobs ∧ ∃ r, (s.state id).job = some r ∧ (id ∈ todo ∨ r.phase = .queued)

def ServerInv (s : Node) : Prop :=
  match s.server with
  | .down => Covered s ∧ ∀ id, Quiet (s.state id)
  | .loading todo => Loading s todo
  | .up => True

/-- Only of an id that was drawn there is anything. -/
def Drawn (s : Node) : Prop := ∀ id, id ∉ s.ids → s.state id = {}

structure Inv (s : Node) : Prop where
  drawn : Drawn s
  job : ∀ id, JobInv (s.state id)
  server : ServerInv s

theorem drawn_start : Drawn start := fun _ _ => rfl

theorem inv_start : Inv start := by
  refine ⟨drawn_start, ?_, ?_, ?_⟩
  · intro id
    exact .lost ⟨rfl, nofun⟩
  · intro id h
    cases h
  · intro id
    exact ⟨rfl, rfl, rfl⟩

section steps

variable {s s' : Node}

theorem serverInv_up (h : s.server = .up) : ServerInv s := by
  rw [ServerInv, h]
  trivial

theorem serverInv_loading {todo : List String} (h : s.server = .loading todo)
    (hloading : Loading s todo) : ServerInv s := by
  rw [ServerInv, h]
  exact hloading

@[simp] theorem update_state_self (id : String) (j : JobState) : (s.update id j).state id = j := by
  show Function.update s.state id j id = j
  rw [Function.update_self]

theorem update_state_of_ne {x id : String} (hx : x ≠ id) (j : JobState) :
    (s.update id j).state x = s.state x := by
  show Function.update s.state id j x = s.state x
  rw [Function.update_of_ne hx]

/-- What holds of the job that is changed, and of the others. -/
theorem forall_update_of_ne {P : String → JobState → Prop} {id : String} {j : JobState}
    (hj : P id j) (h : ∀ x, x ≠ id → P x (s.state x)) : ∀ x, P x ((s.update id j).state x) := by
  intro x
  by_cases hx : x = id
  · subst hx
    rwa [update_state_self]
  · rw [update_state_of_ne hx]
    exact h x hx

/-- What holds of all jobs, and of one that is changed. -/
theorem forall_update {P : JobState → Prop} (h : ∀ id, P (s.state id)) {id : String} {j : JobState}
    (hj : P j) : ∀ x, P ((s.update id j).state x) :=
  forall_update_of_ne (P := fun _ => P) hj fun x _ => h x

/-- A job that is changed was drawn. -/
theorem Drawn.update (h : Drawn s) {id : String} {j : JobState}
    (hj : s.state id = {} → j = {}) : Drawn (s.update id j) :=
  forall_update_of_ne (P := fun x j => x ∉ s.ids → j = {}) (fun hid => hj (h id hid)) fun x _ => h x

theorem Drawn.step (h : Drawn s) {a : Act} (hstep : step s a = some s') : Drawn s' := by
  cases move_of_step hstep with
  | @load entries =>
    intro id hid
    show (if id ∈ s.found entries then (s.state id).restored else s.state id) = {}
    rw [h id hid]
    split <;> rfl
  | examine =>
    apply h.update
    intro hblank
    rw [hblank]
    rfl
  | ready => exact h
  | begin =>
    intro x hx
    obtain ⟨hid, hdrawn⟩ := not_or.mp (mt List.mem_cons.mpr hx)
    exact (update_state_of_ne hid _).trans (h x hdrawn)
  | claim hup hqueued =>
    apply h.update
    intro hblank
    rw [hblank] at hqueued
    cases hqueued
  | @job id a j hj =>
    apply h.update
    intro hblank
    rw [hblank] at hj
    cases a <;> cases hj
  | crash =>
    intro id hid
    show (s.state id).crashed = {}
    rw [h id hid]
    rfl

theorem mem_found {entries : List String} {id : String} :
    id ∈ s.found entries ↔ id ∈ entries ∧ (s.state id).files.readable.isSome = true := by
  rw [Node.found, List.mem_insertionSort, List.mem_filter]

/-- What can be read is there. -/
theorem record_of_readable {f : Files} (h : f.readable.isSome = true) : f.record.isSome = true := by
  cases hrecord : f.record with
  | none =>
    rw [Files.readable, hrecord] at h
    cases h
  | some i => rfl

theorem Inv.load (h : Inv s) {entries : List String}
    (hstep : Uploads.step s (.load entries) = some s') :
    (∀ id, JobInv (s'.state id)) ∧ ServerInv s' := by
  cases move_of_step hstep with
  | load hdown hentries =>
    have hserver := h.server
    rw [ServerInv, hdown] at hserver
    obtain ⟨hcovered, hquiet⟩ := hserver
    refine ⟨?_, ?_, ?_, ?_⟩
    · intro id
      dsimp only
      split
      · exact (h.job id).restored
      · exact h.job id
    · intro id
      dsimp only
      split <;> exact (hquiet id).creating
    · intro id t ht
      have hnone := (hquiet id).threads
      dsimp only at ht
      split at ht
      · have hmem : t ∈ (s.state id).threads := ht
        rw [hnone] at hmem
        cases hmem
      · rw [hnone] at ht
        cases ht
    · intro id hupload
      have hold : (s.state id).files.upload.isSome = true := by
        dsimp only at hupload
        split at hupload <;> exact hupload
      -- where the process stopped it had a record
      have hreadable := hcovered id hold
      have hdrawn : id ∈ s.ids := by
        by_contra hid
        rw [h.drawn id hid] at hold
        cases hold
      have hmem : id ∈ s.found entries := by
        rw [mem_found, hentries.mem_iff, List.mem_filter]
        exact ⟨⟨hdrawn, record_of_readable hreadable⟩, hreadable⟩
      obtain ⟨r, hr⟩ := Option.isSome_iff_exists.mp hreadable
      refine ⟨hmem, r, ?_, Or.inl hmem⟩
      dsimp only
      rw [if_pos hmem]
      exact hr

/-- An upload that is left is queued, and `load_jobs` goes on in threads of its own. -/
theorem examination_loading {j j' : JobState} (h : Examination j j') :
    j'.creating = j.creating ∧ (∀ t ∈ j'.threads, t ∈ j.threads ∨ t = .persisting .start .ended) ∧
      (j'.files.upload.isSome = true → j.files.upload.isSome = true ∧
        ∀ r, j.job = some r → ∃ r, j'.job = some r ∧ r.phase = .queued) := by
  have hspawned (k : JobState) (hk : k.threads = j.threads) :
      ∀ t ∈ (k.spawn (.persisting .start .ended)).threads,
        t ∈ j.threads ∨ t = .persisting .start .ended := by
    intro t ht
    obtain ht | ht := List.mem_append.mp ht
    · rw [hk] at ht
      exact Or.inl ht
    · exact Or.inr (List.mem_singleton.mp ht)
  cases h with
  | nothing hjob =>
    refine ⟨rfl, fun _ => Or.inl, fun hupload => ⟨hupload, ?_⟩⟩
    intro r hr
    rw [hjob] at hr
    cases hr
  | interrupted => exact ⟨rfl, hspawned _ rfl, nofun⟩
  | queued hupload =>
    refine ⟨rfl, hspawned _ rfl, fun _ => ⟨hupload, ?_⟩⟩
    intro r hr
    refine ⟨{ r with phase := .queued, error := none }, ?_, rfl⟩
    show j.job.map _ = _
    rw [hr]
    rfl
  | missing hnone =>
    refine ⟨rfl, hspawned _ rfl, ?_⟩
    intro hupload
    have hsome : j.files.upload.isSome = true := hupload
    rw [hnone] at hsome
    cases hsome
  | removed => exact ⟨rfl, fun _ => Or.inl, nofun⟩

theorem Inv.examine (h : Inv s) (hstep : Uploads.step s .examine = some s') :
    (∀ id, JobInv (s'.state id)) ∧ ServerInv s' := by
  cases move_of_step hstep with
  | @examine id todo hloading =>
    have hserver := h.server
    rw [ServerInv, hloading] at hserver
    have hexamined := examination (s.state id)
    obtain ⟨hcreating, hthreads, hupload⟩ := examination_loading hexamined
    have hown : ∀ t ∈ (s.state id).examined.threads, ∃ p, t = .persisting p .ended := by
      intro t ht
      obtain ht | rfl := hthreads t ht
      · exact hserver.threads id t ht
      · exact ⟨.start, rfl⟩
    refine ⟨forall_update h.job ((h.job id).examination (hserver.threads id) hexamined), ?_, ?_, ?_⟩
    · exact forall_update (P := fun j => j.creating = false) hserver.creating
        (hcreating.trans (hserver.creating id))
    · exact forall_update (P := fun j => ∀ t ∈ j.threads, ∃ p, t = .persisting p .ended)
        hserver.threads hown
    · apply forall_update_of_ne (P := fun x j => j.files.upload.isSome = true →
        x ∈ s.jobs ∧ ∃ r, j.job = some r ∧ (x ∈ todo ∨ r.phase = .queued))
      · intro hx
        obtain ⟨hold, hqueued⟩ := hupload hx
        obtain ⟨hjobs, r, hr, -⟩ := hserver.upload id hold
        obtain ⟨r', hr', hphase⟩ := hqueued r hr
        exact ⟨hjobs, r', hr', Or.inr hphase⟩
      · intro x hid hx
        obtain ⟨hjobs, r, hr, htodo⟩ := hserver.upload x hx
        refine ⟨hjobs, r, hr, ?_⟩
        obtain htodo | hphase := htodo
        · exact Or.inl ((List.mem_cons.mp htodo).resolve_left hid)
        · exact Or.inr hphase

/-- A thread of `load_jobs` writes a record. -/
theorem loading_job {j j' : JobState} {a : JobAct} (hstep : jobStep j a = some j')
    (hcreating : j.creating = false) (hthreads : ∀ t ∈ j.threads, ∃ p, t = .persisting p .ended) :
    j'.creating = false ∧ (∀ t ∈ j'.threads, ∃ p, t = .persisting p .ended) ∧ j'.job = j.job ∧
      j'.files.upload = j.files.upload := by
  cases a with
  | created =>
    rw [jobStep, hcreating] at hstep
    cases hstep
  | notCreated =>
    rw [jobStep, hcreating] at hstep
    cases hstep
  | thread i a =>
    obtain ⟨t, ht, hstep⟩ := Option.bind_eq_some_iff.mp hstep
    obtain ⟨p, rfl⟩ := hthreads t (List.mem_of_getElem? ht)
    cases threadMove_of_step hstep with
    | @io _ _ _ _ files p' hjob hpersist =>
      obtain ⟨hupload, -, -⟩ := persistStep_keeps (P := fun _ => True) hpersist trivial
        (by cases p <;> trivial) fun _ _ => trivial
      refine ⟨goOn_creating.trans hcreating, forall_goOn hthreads ?_, goOn_job, ?_⟩
      · intro u hu
        cases p' with
        | some p' =>
          cases hu
          exact ⟨p', rfl⟩
        | none => cases hu
      · rw [goOn_files]
        exact hupload

theorem jobStep_quiet {j : JobState} (h : Quiet j) (a : JobAct) : jobStep j a = none := by
  cases a with
  | created =>
    rw [jobStep, h.creating]
    rfl
  | notCreated =>
    rw [jobStep, h.creating]
    rfl
  | thread i a =>
    rw [jobStep, h.threads]
    rfl

theorem Inv.job_step (h : Inv s) {id : String} {a : JobAct} {j : JobState}
    (hj : jobStep (s.state id) a = some j) :
    (∀ x, JobInv ((s.update id j).state x)) ∧ ServerInv (s.update id j) := by
  refine ⟨forall_update h.job ((h.job id).move hj), ?_⟩
  have hserver := h.server
  cases hstate : s.server with
  -- nothing of the job runs
  | down =>
    rw [ServerInv, hstate] at hserver
    rw [jobStep_quiet (hserver.2 id)] at hj
    cases hj
  | loading todo =>
    rw [ServerInv, hstate] at hserver
    obtain ⟨hcreating, hthreads, hjob, hupload⟩ :=
      loading_job hj (hserver.creating id) (hserver.threads id)
    refine serverInv_loading (s := s.update id j) hstate
      ⟨forall_update (P := fun j => j.creating = false) hserver.creating hcreating,
        forall_update (P := fun j => ∀ t ∈ j.threads, ∃ p, t = .persisting p .ended)
          hserver.threads hthreads, ?_⟩
    apply forall_update_of_ne (P := fun x j => j.files.upload.isSome = true →
      x ∈ s.jobs ∧ ∃ r, j.job = some r ∧ (x ∈ todo ∨ r.phase = .queued))
    · rw [hupload, hjob]
      exact hserver.upload id
    · exact fun x _ => hserver.upload x
  | up => exact serverInv_up hstate

theorem Inv.step (h : Inv s) {a : Act} (hok : Timely s a) (hstep : step s a = some s') :
    Inv s' := by
  have hdrawn := h.drawn.step hstep
  cases move_of_step hstep with
  | load =>
    obtain ⟨hjob, hserver⟩ := h.load hstep
    exact ⟨hdrawn, hjob, hserver⟩
  | examine =>
    obtain ⟨hjob, hserver⟩ := h.examine hstep
    exact ⟨hdrawn, hjob, hserver⟩
  | ready => exact ⟨hdrawn, h.job, trivial⟩
  | @begin id now hup hid =>
    exact ⟨hdrawn, forall_update h.job (JobInv.begun (h.drawn id hid) now), serverInv_up hup⟩
  | @claim id hup hqueued =>
    exact ⟨hdrawn, forall_update h.job ((h.job id).claimed hqueued), serverInv_up hup⟩
  | job hj =>
    obtain ⟨hjob, hserver⟩ := h.job_step hj
    exact ⟨hdrawn, hjob, hserver⟩
  | crash => exact ⟨hdrawn, fun id => (h.job id).crashed, hok rfl, fun id => ⟨rfl, rfl, rfl⟩⟩

theorem Inv.recovered (h : Inv s) (hstep : Uploads.step s .ready = some s') : Recovered s' := by
  cases move_of_step hstep with
  | ready hloading =>
    have hserver := h.server
    rw [ServerInv, hloading] at hserver
    have hqueued : ∀ id, (s.state id).files.upload.isSome = true → Queued s id := by
      intro id hupload
      obtain ⟨hjobs, r, hr, hphase⟩ := hserver.upload id hupload
      exact ⟨hjobs, r, hr, hphase.resolve_left List.not_mem_nil⟩
    refine ⟨hqueued, ?_⟩
    intro id body haccepted hfinished
    have haccepted' : (s.state id).accepted = some body := haccepted
    have hfinished' : (s.state id).finished = false := hfinished
    cases h.job id with
    | underWay hunder =>
      rw [hunder.accepted] at haccepted'
      cases haccepted'
    | kept b hkept =>
      have hupload := hkept.upload
      rw [← hkept.accepted body haccepted'] at hupload
      exact ⟨hqueued id (by rw [hupload]; rfl), hupload⟩
    | lost hlost =>
      rw [hlost.accepted] at haccepted'
      cases haccepted'
    | finished hover =>
      rw [hover] at hfinished'
      cases hfinished'

/-- An upload whose record cannot be read, of a job that nobody has. -/
structure Orphan (s : Node) (id : String) : Prop where
  drawn : id ∈ s.ids
  upload : (s.state id).files.upload.isSome = true
  readable : (s.state id).files.readable = none
  quiet : Quiet (s.state id)

theorem Orphan.not_recovered {id : String} (h : Orphan s id) : ¬ Recovered s := by
  intro hrecovered
  obtain ⟨-, r, hr, -⟩ := hrecovered.no_orphan id h.upload
  rw [h.quiet.job] at hr
  cases hr

/-- What the step does to others leaves an orphan as it is. -/
theorem Orphan.of_eq {id : String} (h : Orphan s id) (hids : s.ids ⊆ s'.ids)
    (hstate : s'.state id = s.state id) : Orphan s' id := by
  refine ⟨hids h.drawn, ?_, ?_, ?_⟩
  · rw [hstate]
    exact h.upload
  · rw [hstate]
    exact h.readable
  · rw [hstate]
    exact h.quiet

theorem Orphan.step {id : String} (h : Orphan s id) {a : Act} (hstep : step s a = some s') :
    Orphan s' id := by
  have hjob := h.quiet.job
  cases move_of_step hstep with
  | @load entries =>
    -- the record is not there, or `load_jobs` skips it
    have hnot : id ∉ s.found entries := by
      rw [mem_found, h.readable]
      rintro ⟨-, hsome⟩
      cases hsome
    exact h.of_eq (List.Subset.refl _) (if_neg hnot)
  | @examine x =>
    refine h.of_eq (List.Subset.refl _) ?_
    show (s.update x _).state id = _
    by_cases hx : id = x
    · subst hx
      rw [update_state_self, JobState.examined, hjob]
      rfl
    · exact update_state_of_ne hx _
  | ready => exact h.of_eq (List.Subset.refl _) rfl
  | @begin x now _ hx =>
    refine h.of_eq (List.subset_cons_self _ _) (update_state_of_ne ?_ _)
    rintro rfl
    exact hx h.drawn
  | claim hup hqueued =>
    -- it has no job that could be queued
    refine h.of_eq (List.Subset.refl _) (update_state_of_ne ?_ _)
    rintro rfl
    rw [JobState.isPhase, hjob] at hqueued
    cases hqueued
  | job hj =>
    refine h.of_eq (List.Subset.refl _) (update_state_of_ne ?_ _)
    rintro rfl
    rw [jobStep_quiet h.quiet] at hj
    cases hj
  | crash => exact ⟨h.drawn, h.upload, h.readable, rfl, rfl, rfl⟩

/-- A stop where an upload has no record leaves an orphan. -/
theorem Drawn.orphan (h : Drawn s) (hstep : Uploads.step s .crash = some s')
    (huncovered : ¬ Covered s) : ∃ id, Orphan s' id := by
  cases move_of_step hstep
  simp only [Covered, not_forall] at huncovered
  obtain ⟨id, hupload, hreadable⟩ := huncovered
  refine ⟨id, ?_, hupload, Option.not_isSome_iff_eq_none.mp hreadable, rfl, rfl, rfl⟩
  by_contra hid
  rw [h id hid] at hupload
  cases hupload

end steps

/-- However uploads, workers and stops interleave: if the process stops only where each upload has a
record, no upload is left over when `load_jobs` returns, and those that were accepted are queued. A
stop where one has none leaves it behind for good. -/
theorem uploads_recovered {as : List Act} {s : Node} (hrun : run step start as = some s)
    (hstops : Along step Timely start as) :
    (∀ s', step s .ready = some s' → Recovered s') ∧
      ∀ s', step s .crash = some s' → ¬ Covered s →
        ∀ bs u, run step s' bs = some u → ¬ Recovered u := by
  have hinv : Inv s := run_invariant (fun s a s' hs hok hstep => hs.step hok hstep) inv_start hstops
    hrun
  constructor
  · intro s' hready
    exact hinv.recovered hready
  · intro s' hcrash huncovered bs u hu
    obtain ⟨id, horphan⟩ := hinv.drawn.orphan hcrash huncovered
    have hstep (s : Node) (a : Act) (s' : Node) (h : Orphan s id) (hstep : step s a = some s') :
        Orphan s' id := h.step hstep
    have hstays := run_invariant' hstep horphan hu
    exact hstays.not_recovered

/-! ### A process that stops during an upload, and one that stops after it -/

/-- The server starts, and an upload begins. -/
def uploadBegins : List Act :=
  [.load [], .ready, .begin "5f" 1700000000, .job "5f" .created, .job "5f" (.thread 0 .resume),
    .job "5f" (.thread 0 (.chunk [123, 125, 10])), .job "5f" (.thread 0 (.reach 3))]

/-- The upload is over, and its record is written. -/
def uploadEnds : List Act :=
  [.job "5f" (.thread 0 .synced), .job "5f" (.thread 0 (.io .clone)),
    .job "5f" (.thread 0 (.io .create)), .job "5f" (.thread 0 (.io (.write false))),
    .job "5f" (.thread 0 (.io .rename)), .job "5f" (.thread 0 .answer)]

/-- The process stops while three bytes of an upload are on the disk. The next `load_jobs` finds no
record, and returns with the file where it is and no job. -/
theorem upload_orphaned :
    ∃ s, run step start (uploadBegins ++ [.crash, .load [], .ready]) = some s ∧
      (s.state "5f").files.upload = some [123, 125, 10] ∧ s.jobs = [] ∧ ¬ Recovered s := by
  have hrun : (run step start (uploadBegins ++ [.crash, .load [], .ready])).any (fun s =>
      decide ((s.state "5f").files.upload = some [123, 125, 10] ∧ s.jobs = [])) = true := by
    decide +kernel
  obtain ⟨s, hs, hfacts⟩ := (Option.any_eq_true _ _).mp hrun
  obtain ⟨hupload, hjobs⟩ := of_decide_eq_true hfacts
  refine ⟨s, hs, hupload, hjobs, ?_⟩
  intro hrecovered
  obtain ⟨hmem, -⟩ := hrecovered.no_orphan "5f" (by rw [hupload]; rfl)
  rw [hjobs] at hmem
  cases hmem

/-- `Timely`, computed for the ids that were drawn. -/
def timelyB (s : Node) : Act → Bool
  | .crash =>
    s.ids.all fun id =>
      (s.state id).files.upload.isNone || (s.state id).files.readable.isSome
  | _ => true

theorem Drawn.timely {s : Node} (h : Drawn s) {a : Act} (ha : timelyB s a = true) :
    Timely s a := by
  rintro rfl id hupload
  have hid : id ∈ s.ids := by
    by_contra hid
    rw [h id hid] at hupload
    cases hupload
  have hcovered := List.all_eq_true.mp ha id hid
  rw [Bool.or_eq_true, Option.isNone_iff_eq_none] at hcovered
  apply hcovered.resolve_left
  intro hnone
  rw [hnone] at hupload
  cases hupload

/-- Three bytes are accepted, and the process stops. The next one finds the record, and cannot write
it anew. -/
def acceptedThenStopped : List Act :=
  uploadBegins ++ uploadEnds ++
    [.crash, .load ["5f"], .examine, .job "5f" (.thread 0 (.io .clone)),
      .job "5f" (.thread 0 (.io .createError))]

/-- An upload that was accepted is queued again with all that was sent. -/
theorem upload_recovered :
    ∃ s s', run step start acceptedThenStopped = some s ∧ step s .ready = some s' ∧
      (s'.state "5f").accepted = some [123, 125, 10] ∧
      (s'.state "5f").files.upload = some [123, 125, 10] ∧ Recovered s' := by
  have hrun : (run step start acceptedThenStopped).any (fun s => (step s .ready).any fun s' =>
      decide ((s'.state "5f").accepted = some [123, 125, 10] ∧
        (s'.state "5f").files.upload = some [123, 125, 10])) = true := by
    decide +kernel
  obtain ⟨s, hs, hready⟩ := (Option.any_eq_true _ _).mp hrun
  obtain ⟨s', hs', hfacts⟩ := (Option.any_eq_true _ _).mp hready
  obtain ⟨haccepted, hupload⟩ := of_decide_eq_true hfacts
  -- its one stop is where the record is written
  have htested : Along step (fun s a => timelyB s a = true) start acceptedThenStopped :=
    along_of_alongB (fun _ _ h => h) (by decide +kernel)
  have hstops : Along step Timely start acceptedThenStopped :=
    Along.imp (p := fun _ => True) (fun _ _ _ hdrawn _ _ hstep => hdrawn.step hstep)
      (fun _ _ _ hdrawn _ ha _ => hdrawn.timely ha) drawn_start (fun _ _ => trivial) htested
  obtain ⟨hrecovered, -⟩ := uploads_recovered hs hstops
  exact ⟨s, s', hs, hs', haccepted, hupload, hrecovered s' hs'⟩

end NostrSearch.Server.Uploads
