import OSLabs.Libscheduler.Handlers

/-!
# What each step of the scheduler does

Small lemmas for the record updates and state writes of `OSLabs.Libscheduler.Basic`, the exact
effect of `increment_timestep` on a state in which no job sits on two cores, and one inversion
lemma per handler that says everything a successful call can have done. The invariant files
cite these and never unfold a handler.

## Main results

* `Libscheduler.incrementTimestep_mem` — `increment_timestep` ticks exactly the jobs on a core.
* `Libscheduler.dispatchFirstWaiting_cases` — the dispatch loop gives the freed core the first
  waiting job of the queue, or nothing when no job waits.
* `Libscheduler.schedulerNewJob_cases`, `Libscheduler.schedulerJobFinished_cases`,
  `Libscheduler.expireCore_cases` — the branches of the handlers.
-/

namespace Libscheduler

/-! ### Record updates -/

section Records

variable (t : Int) (j : Job)

@[simp] theorem tick_jCore : (tick t j).jCore = j.jCore := by unfold tick; split <;> rfl
@[simp] theorem tick_jobId : (tick t j).jobId = j.jobId := by unfold tick; split <;> rfl
@[simp] theorem tick_tArrival : (tick t j).tArrival = j.tArrival := by unfold tick; split <;> rfl
@[simp] theorem tick_tTotal : (tick t j).tTotal = j.tTotal := by unfold tick; split <;> rfl
@[simp] theorem tick_priority : (tick t j).priority = j.priority := by unfold tick; split <;> rfl
@[simp] theorem tick_tWaiting : (tick t j).tWaiting = j.tWaiting := by unfold tick; split <;> rfl

/-- A job that has started is ticked by running: its remaining time drops by the time since its
last update. -/
theorem tick_of_started (h : j.tStarted ≠ -1) :
    tick t j = { j with tRemaining := j.tRemaining - (t - j.tUpdated), tUpdated := t } := by
  simp [tick, h]

@[simp] theorem resume_jobId : (resume t j).jobId = j.jobId := by unfold resume; split <;> rfl
@[simp] theorem resume_tArrival : (resume t j).tArrival = j.tArrival := by unfold resume; split <;> rfl
@[simp] theorem resume_tTotal : (resume t j).tTotal = j.tTotal := by unfold resume; split <;> rfl
@[simp] theorem resume_tRemaining : (resume t j).tRemaining = j.tRemaining := by
  unfold resume; split <;> rfl
@[simp] theorem resume_priority : (resume t j).priority = j.priority := by unfold resume; split <;> rfl
@[simp] theorem resume_tUpdated : (resume t j).tUpdated = t := by unfold resume; split <;> rfl

@[simp] theorem evict_jCore : (evict t j).jCore = -1 := by simp only [evict]; split <;> rfl
@[simp] theorem evict_jobId : (evict t j).jobId = j.jobId := by simp only [evict]; split <;> rfl
@[simp] theorem evict_tArrival : (evict t j).tArrival = j.tArrival := by simp only [evict]; split <;> rfl
@[simp] theorem evict_tTotal : (evict t j).tTotal = j.tTotal := by simp only [evict]; split <;> rfl
@[simp] theorem evict_tRemaining : (evict t j).tRemaining = j.tRemaining := by
  simp only [evict]; split <;> rfl
@[simp] theorem evict_priority : (evict t j).priority = j.priority := by simp only [evict]; split <;> rfl
@[simp] theorem evict_tWaiting : (evict t j).tWaiting = j.tWaiting := by simp only [evict]; split <;> rfl

end Records

/-! ### State writes -/

namespace Sched

variable (s : Sched)

@[simp] theorem startNew_jobs (a : Nat) (c : Int) : (s.startNew a c).jobs = s.jobs := rfl
@[simp] theorem startNew_cJob (a : Nat) (c : Int) : (s.startNew a c).cJob = s.cJob := rfl
@[simp] theorem startNew_alloc (a : Nat) (c : Int) : (s.startNew a c).alloc = s.alloc := rfl
@[simp] theorem startNew_cTime (a : Nat) (c : Int) : (s.startNew a c).cTime = s.cTime := rfl
@[simp] theorem startNew_tScheme (a : Nat) (c : Int) : (s.startNew a c).tScheme = s.tScheme := rfl
theorem startNew_mem (a : Nat) (c : Int) : (s.startNew a c).mem = Function.update s.mem a
    { s.mem a with tWaiting := 0, tStarted := s.cTime, tUpdated := s.cTime, jCore := c } := rfl

theorem onCore_setCore {c : Nat} {x : Option Nat} {c' p : Nat} :
    (s.setCore c x).OnCore c' p ↔ if c = c' then c < s.cJob.length ∧ x = some p else s.OnCore c' p := by
  unfold OnCore
  rw [setCore_cJob, List.getElem?_set]
  split_ifs <;> simp_all

@[simp] theorem onCore_setJob {p : Nat} {j : Job} {c q : Nat} : (s.setJob p j).OnCore c q ↔ s.OnCore c q :=
  Iff.rfl
@[simp] theorem onCore_offer {p c q : Nat} : (s.offer p).OnCore c q ↔ s.OnCore c q := Iff.rfl
@[simp] theorem onCore_free {p c q : Nat} : (s.free p).OnCore c q ↔ s.OnCore c q := Iff.rfl
@[simp] theorem onCore_finish {p : Nat} {t : Int} {c q : Nat} : (s.finish p t).OnCore c q ↔ s.OnCore c q :=
  Iff.rfl
@[simp] theorem onCore_startNew {a : Nat} {c' : Int} {c q : Nat} :
    (s.startNew a c').OnCore c q ↔ s.OnCore c q := Iff.rfl
@[simp] theorem onCore_malloc {p : Nat} {j : Job} {c q : Nat} : (s.malloc p j).OnCore c q ↔ s.OnCore c q :=
  Iff.rfl
@[simp] theorem onCore_setTime {t : Int} {c q : Nat} : (s.setTime t).OnCore c q ↔ s.OnCore c q := Iff.rfl
@[simp] theorem onCore_countJob {c q : Nat} : s.countJob.OnCore c q ↔ s.OnCore c q := Iff.rfl

theorem writeCore_eq_some {c : Int} {x : Option Nat} {s' : Sched} :
    s.writeCore c x = some s' ↔ 0 ≤ c ∧ c.toNat < s.cJob.length ∧ s' = s.setCore c.toNat x := by
  unfold writeCore
  split_ifs with h <;> simp_all [eq_comm, and_assoc]

theorem slot_eq_some_some {c : Int} {p : Nat} : s.slot c = some (some p) ↔ s.Holds c p := by
  unfold slot Holds OnCore
  split_ifs with h <;> simp [h]

theorem mem_cJob_iff {p : Nat} : some p ∈ s.cJob ↔ ∃ c, s.OnCore c p := List.mem_iff_getElem?

/-- A slot holds one job. -/
theorem OnCore.unique {s : Sched} {c p q : Nat} (hp : s.OnCore c p) (hq : s.OnCore c q) : p = q := by
  unfold OnCore at hp hq; rw [hp] at hq; exact Option.some.inj (Option.some.inj hq)

end Sched

/-! ### `increment_timestep` -/

section Increment

/-- The loop of `increment_timestep`, over the slots `L` from the records `m`. -/
def tickAll (t : Int) (L : List (Option Nat)) (m : Nat → Job) : Nat → Job :=
  L.foldl (fun m slot => slot.elim m fun q => Function.update m q (tick t (m q))) m

theorem incrementTimestep_mem_eq (s : Sched) : (incrementTimestep s).mem = tickAll s.cTime s.cJob s.mem := rfl

/-- The loop ticks each job once per core it sits on. -/
theorem tickAll_apply (t : Int) (L : List (Option Nat))
    (hinj : ∀ i j p : Nat, L[i]? = some (some p) → L[j]? = some (some p) → i = j) (m : Nat → Job) (p : Nat) :
    tickAll t L m p = if some p ∈ L then tick t (m p) else m p := by
  induction L generalizing m with
  | nil => simp [tickAll]
  | cons x L ih =>
    have hinj' : ∀ i j p : Nat, L[i]? = some (some p) → L[j]? = some (some p) → i = j := fun i j p hi hj =>
      Nat.succ.inj (hinj (i + 1) (j + 1) p (by simpa using hi) (by simpa using hj))
    rw [tickAll, List.foldl_cons, ← tickAll, ih hinj']
    rcases x with _ | q
    · simp
    · have hq : some q ∉ L := fun hmem => by
        obtain ⟨j, hj⟩ := List.mem_iff_getElem?.1 hmem
        exact absurd (hinj 0 (j + 1) q (by simp) (by simpa using hj)) (by omega)
      by_cases hpq : p = q
      · subst hpq; simp [hq]
      · simp [Function.update_noteq hpq, hpq]

/-- A job on no core is left alone by the loop. -/
theorem tickAll_of_not_mem (t : Int) {L : List (Option Nat)} {p : Nat} (hp : some p ∉ L) (m : Nat → Job) :
    tickAll t L m p = m p := by
  induction L generalizing m with
  | nil => rfl
  | cons x L ih =>
    simp only [List.mem_cons, not_or] at hp
    rw [tickAll, List.foldl_cons, ← tickAll, ih hp.2]
    rcases x with _ | q
    · rfl
    · exact Function.update_noteq (fun h => hp.1 (by rw [h])) _ _

/-- Fields that a tick leaves alone are left alone by the loop. -/
theorem tickAll_field {β : Type*} (f : Job → β) (t : Int) (hf : ∀ j, f (tick t j) = f j)
    (L : List (Option Nat)) (m : Nat → Job) (p : Nat) : f (tickAll t L m p) = f (m p) := by
  induction L generalizing m with
  | nil => rfl
  | cons x L ih =>
    rw [tickAll, List.foldl_cons, ← tickAll, ih]
    rcases x with _ | q
    · rfl
    · by_cases hpq : p = q
      · subst hpq; simp [hf]
      · simp [Function.update_noteq hpq]

/-- **`increment_timestep`** ticks exactly the jobs that sit on a core, when none sits on two. -/
theorem incrementTimestep_mem (s : Sched)
    (hinj : ∀ c c' p, s.OnCore c p → s.OnCore c' p → c = c') (p : Nat) :
    (incrementTimestep s).mem p = if some p ∈ s.cJob then tick s.cTime (s.mem p) else s.mem p :=
  tickAll_apply s.cTime s.cJob hinj s.mem p

theorem incrementTimestep_mem_of_not_onCore (s : Sched) {p : Nat} (hp : ∀ c, ¬ s.OnCore c p) :
    (incrementTimestep s).mem p = s.mem p :=
  tickAll_of_not_mem s.cTime (fun h => by obtain ⟨c, hc⟩ := s.mem_cJob_iff.1 h; exact hp c hc) s.mem

theorem incrementTimestep_mem_field {β : Type*} (f : Job → β) (s : Sched)
    (hf : ∀ j, f (tick s.cTime j) = f j) (p : Nat) : f ((incrementTimestep s).mem p) = f (s.mem p) :=
  tickAll_field f s.cTime hf s.cJob s.mem p

@[simp] theorem incrementTimestep_mem_jCore (s : Sched) (p : Nat) :
    ((incrementTimestep s).mem p).jCore = (s.mem p).jCore := incrementTimestep_mem_field _ s (tick_jCore _) p
@[simp] theorem incrementTimestep_mem_jobId (s : Sched) (p : Nat) :
    ((incrementTimestep s).mem p).jobId = (s.mem p).jobId := incrementTimestep_mem_field _ s (tick_jobId _) p
@[simp] theorem incrementTimestep_mem_tArrival (s : Sched) (p : Nat) :
    ((incrementTimestep s).mem p).tArrival = (s.mem p).tArrival :=
  incrementTimestep_mem_field _ s (tick_tArrival _) p
@[simp] theorem incrementTimestep_mem_tTotal (s : Sched) (p : Nat) :
    ((incrementTimestep s).mem p).tTotal = (s.mem p).tTotal := incrementTimestep_mem_field _ s (tick_tTotal _) p
@[simp] theorem incrementTimestep_mem_priority (s : Sched) (p : Nat) :
    ((incrementTimestep s).mem p).priority = (s.mem p).priority :=
  incrementTimestep_mem_field _ s (tick_priority _) p
@[simp] theorem incrementTimestep_mem_tWaiting (s : Sched) (p : Nat) :
    ((incrementTimestep s).mem p).tWaiting = (s.mem p).tWaiting :=
  incrementTimestep_mem_field _ s (tick_tWaiting _) p

@[simp] theorem incrementTimestep_jobs (s : Sched) : (incrementTimestep s).jobs = s.jobs := rfl
@[simp] theorem incrementTimestep_alloc (s : Sched) : (incrementTimestep s).alloc = s.alloc := rfl
@[simp] theorem incrementTimestep_cJob (s : Sched) : (incrementTimestep s).cJob = s.cJob := rfl
@[simp] theorem incrementTimestep_tScheme (s : Sched) : (incrementTimestep s).tScheme = s.tScheme := rfl
@[simp] theorem incrementTimestep_cTime (s : Sched) : (incrementTimestep s).cTime = s.cTime := rfl
@[simp] theorem incrementTimestep_nJobs (s : Sched) : (incrementTimestep s).nJobs = s.nJobs := rfl
@[simp] theorem incrementTimestep_sums (s : Sched) :
    (incrementTimestep s).tTurnaround = s.tTurnaround ∧ (incrementTimestep s).tWait = s.tWait ∧
      (incrementTimestep s).tResponse = s.tResponse := ⟨rfl, rfl, rfl⟩
@[simp] theorem onCore_incrementTimestep (s : Sched) {c p : Nat} :
    (incrementTimestep s).OnCore c p ↔ s.OnCore c p := Iff.rfl

end Increment

/-- The job `scheduler_new_job` allocates sits on no core, so the clock advance leaves its
record as written. -/
theorem incrementTimestep_malloc_mem (s : Sched) {a : Nat} (j : Job) (t : Int)
    (hinj : ∀ c c' p, s.OnCore c p → s.OnCore c' p → c = c') (ha : some a ∉ s.cJob) (p : Nat) :
    (incrementTimestep ((s.malloc a j).setTime t).countJob).mem p =
      Function.update (incrementTimestep (s.setTime t)).mem a j p := by
  rw [incrementTimestep_mem (((s.malloc a j).setTime t).countJob) hinj]
  by_cases hp : p = a
  · subst hp; simp [ha]
  · rw [Function.update_noteq hp, incrementTimestep_mem (s.setTime t) hinj]
    simp [Function.update_noteq hp]

/-! ### Searches -/

section Search

variable {α : Type*}

/-- The element `findIdx` stops at is the first of the elements it selects. -/
theorem filter_eq_cons_of_findIdx_lt {p : α → Bool} {l : List α} (h : l.findIdx p < l.length) :
    ∃ rest, l.filter p = l[l.findIdx p] :: rest := by
  induction l with
  | nil => simp at h
  | cons x l ih =>
    by_cases hx : p x
    · exact ⟨l.filter p, by simp [List.findIdx_cons, hx, List.filter_cons]⟩
    · have hl : l.findIdx p < l.length := by simpa [List.findIdx_cons, hx] using h
      obtain ⟨rest, hrest⟩ := ih hl
      exact ⟨rest, by simpa [List.findIdx_cons, hx, List.filter_cons] using hrest⟩

/-- A search for a property that exactly one element has stops at that element. -/
theorem getElem_findIdx_of_unique {f : α → Bool} {l : List α} {p : α} (hp : p ∈ l) (hf : f p)
    (hu : ∀ q ∈ l, f q → q = p) : ∃ h : l.findIdx f < l.length, l[l.findIdx f] = p :=
  have h : l.findIdx f < l.length := List.findIdx_lt_length.2 ⟨p, hp, hf⟩
  ⟨h, hu _ (List.getElem_mem h) List.findIdx_getElem⟩

theorem mem_eraseIdx_of_nodup [DecidableEq α] {l : List α} (hnd : l.Nodup) {i : Nat} (hi : i < l.length) {q : α} :
    q ∈ l.eraseIdx i ↔ q ≠ l[i] ∧ q ∈ l := by
  rw [← hnd.erase_getElem i hi, hnd.mem_erase_iff]

theorem filter_eraseIdx_of_not {w : α → Bool} {l : List α} {i : Nat} (hi : i < l.length) (hw : w l[i] = false) :
    (l.eraseIdx i).filter w = l.filter w := by
  induction l generalizing i with
  | nil => simp at hi
  | cons a l ih =>
    cases i with
    | zero => simp_all [List.filter_cons]
    | succ i => simp [List.filter_cons, ih (by simpa using hi) (by simpa using hw)]

end Search

/-! ### The handlers -/

/-- **The dispatch loop** hands the core the first waiting job, if there is one. -/
theorem dispatchFirstWaiting_cases {s s' : Sched} {c r : Int} (h : dispatchFirstWaiting s c = some (s', r)) :
    (s.waiting = [] ∧ s' = s ∧ r = -1) ∨
    (∃ q rest, s.waiting = q :: rest ∧ 0 ≤ c ∧ c.toNat < s.cJob.length ∧
      s' = (s.setJob q { resume s.cTime (s.mem q) with jCore := c }).setCore c.toNat (some q) ∧
      r = (s.mem q).jobId) := by
  unfold dispatchFirstWaiting at h
  dsimp only at h
  split at h
  · rename_i hi
    obtain ⟨rest, hrest⟩ := filter_eq_cons_of_findIdx_lt hi
    simp only [Option.map_eq_some', Prod.mk.injEq] at h
    obtain ⟨s₂, hw, rfl, rfl⟩ := h
    obtain ⟨h0, hlt, rfl⟩ := s.setJob _ _ |>.writeCore_eq_some.1 hw
    exact .inr ⟨_, rest, hrest, h0, hlt, rfl, resume_jobId _ _⟩
  · rename_i hi
    simp only [Option.some.injEq, Prod.mk.injEq] at h
    obtain ⟨rfl, rfl⟩ := h
    refine .inl ⟨?_, rfl, rfl⟩
    have hlen : s.jobs.findIdx (fun p => decide ((s.mem p).jCore = -1)) ≤ s.jobs.length :=
      List.findIdx_le_length _
    rw [Sched.waiting, List.filter_eq_nil_iff]
    exact fun x hx => by simpa using (List.findIdx_eq_length (p := fun p => decide ((s.mem p).jCore = -1))).1 (by omega) x hx

theorem Sched.waiting_eq_nil_iff {s : Sched} : s.waiting = [] ↔ ∀ p ∈ s.jobs, (s.mem p).jCore ≠ -1 := by
  simp [Sched.waiting, List.filter_eq_nil_iff]

theorem Sched.mem_waiting {s : Sched} {p : Nat} : p ∈ s.waiting ↔ p ∈ s.jobs ∧ (s.mem p).jCore = -1 := by
  simp [Sched.waiting]

/-- After the dispatch hands core `c` the first waiting job `q`, the others still wait, in order. -/
theorem waiting_dispatch {m : Sched} {q : Nat} {rest : List Nat} {c : Int} (hnd : m.jobs.Nodup)
    (hw : m.waiting = q :: rest) (hc : 0 ≤ c) :
    ((m.setJob q { resume m.cTime (m.mem q) with jCore := c }).setCore c.toNat (some q)).waiting = rest := by
  have hq : q ∉ rest := (List.nodup_cons.1 (hw ▸ hnd.filter _)).1
  have : ((m.setJob q { resume m.cTime (m.mem q) with jCore := c }).setCore c.toNat (some q)).waiting =
      m.waiting.filter (· ≠ q) := by
    simp only [Sched.waiting, List.filter_filter, Sched.setCore_jobs, Sched.setJob_jobs, Sched.setCore_mem,
      Sched.setJob_mem]
    congr 1; funext x
    by_cases hx : x = q
    · subst hx; simp; omega
    · simp [Function.update_noteq hx, hx]
  rw [this, hw, List.filter_cons_of_neg (by simp), List.filter_eq_self.2 fun x hx => by
    simp only [ne_eq, decide_not, Bool.not_eq_true', decide_eq_false_iff_not]; rintro rfl; exact hq hx]

/-- The dispatch loop changes only the slot it fills and the record of the job it hands the
core, which was waiting. -/
theorem dispatchFirstWaiting_frame {s s' : Sched} {c r : Int} (h : dispatchFirstWaiting s c = some (s', r)) :
    s'.jobs = s.jobs ∧ s'.alloc = s.alloc ∧ s'.tScheme = s.tScheme ∧ s'.cTime = s.cTime ∧
      s'.tTurnaround = s.tTurnaround ∧ s'.tWait = s.tWait ∧ s'.tResponse = s.tResponse ∧
      ∀ p, p ∉ s.waiting → s'.mem p = s.mem p := by
  rcases dispatchFirstWaiting_cases h with ⟨-, rfl, -⟩ | ⟨q, rest, hw, -, -, rfl, -⟩
  · exact ⟨rfl, rfl, rfl, rfl, rfl, rfl, rfl, fun _ _ => rfl⟩
  · refine ⟨rfl, rfl, rfl, rfl, rfl, rfl, rfl, fun p hp => ?_⟩
    have : p ≠ q := by rintro rfl; exact hp (hw ▸ List.mem_cons_self p rest)
    simp [Function.update_noteq this]

/-- The dispatch loop writes no slot but its own. -/
theorem dispatchFirstWaiting_onCore {s s' : Sched} {c r : Int} (h : dispatchFirstWaiting s c = some (s', r))
    {c' p : Nat} (hne : c' ≠ c.toNat) : s'.OnCore c' p ↔ s.OnCore c' p := by
  rcases dispatchFirstWaiting_cases h with ⟨-, rfl, -⟩ | ⟨q, rest, -, -, -, rfl, -⟩
  · exact Iff.rfl
  · simp [Sched.onCore_setCore, Ne.symm hne]

/-- On an empty queue the dispatch loop does nothing. -/
theorem dispatchFirstWaiting_of_nil {s : Sched} (c : Int) (h : s.jobs = []) :
    dispatchFirstWaiting s c = some (s, -1) := by
  simp [dispatchFirstWaiting, h]

/-- Only the preemptive-at-arrival disciplines scan for a core to take. -/
theorem preemptCore_scheme {s : Sched} {j : Job} {r : Int} (h : preemptCore s j = some r) (hr : r ≠ -1) :
    s.tScheme = .psjf ∨ s.tScheme = .ppri := by
  unfold preemptCore at h
  split at h <;> first | exact .inl ‹_› | exact .inr ‹_› | exact absurd (Option.some_inj.1 h).symm hr

/-- **`scheduler_job_finished`** on the job `p` the id names: the clock advances, `p` leaves the
queue, is finished and freed, its core is emptied, and the dispatch loop runs. -/
theorem schedulerJobFinished_cases {s s' : Sched} {c n t r : Int} {p : Nat}
    (h : schedulerJobFinished s c n t = some (s', r))
    (hp : p ∈ s.jobs) (hu : ∀ q ∈ s.jobs, (s.mem q).jobId = n ↔ q = p) :
    ∃ i, ∃ hi : i < s.jobs.length, ∃ m, s.jobs[i] = p ∧ 0 ≤ c ∧ c.toNat < s.cJob.length ∧
      m = ((((incrementTimestep (s.setTime t)).removeAt i).finish p t).free p).setCore c.toNat none ∧
      finishCore s c n t = some m ∧ dispatchFirstWaiting m c = some (s', r) := by
  have hf : ∀ q, ((incrementTimestep (s.setTime t)).mem q).jobId = (s.mem q).jobId :=
    incrementTimestep_mem_field Job.jobId _ (fun _ => tick_jobId _ _)
  obtain ⟨hi, hget⟩ := getElem_findIdx_of_unique
    (f := fun q => decide (((incrementTimestep (s.setTime t)).mem q).jobId = n)) hp
    (by simp [hf, hu p hp]) (fun q hq hq' => (hu q hq).1 (by simpa [hf] using hq'))
  unfold schedulerJobFinished at h
  simp only [Option.bind_eq_bind, Option.bind_eq_some] at h
  obtain ⟨m, hm, hd⟩ := h
  have hm' := hm
  unfold finishCore at hm
  dsimp only at hm
  simp only [incrementTimestep_jobs, Sched.setTime_jobs] at hm
  rw [dif_pos hi] at hm
  simp only [hget, Option.bind_eq_bind, Option.some_bind] at hm
  obtain ⟨h0, hlt, rfl⟩ := Sched.writeCore_eq_some _ |>.1 hm
  refine ⟨_, hi, _, hget, h0, by simpa using hlt, rfl, hm', ?_⟩
  split at hd
  · rename_i hnil
    rw [dispatchFirstWaiting_of_nil c (List.eq_nil_of_length_eq_zero hnil)]; exact hd
  · exact hd

/-- **The expiry half of `scheduler_quantum_expired`** on the job `p` of core `c`: `p` leaves the
queue and is either re-offered as waiting, or finished, its core emptied and freed. -/
theorem expireCore_cases {s s' : Sched} {c : Int} {p : Nat} (h : expireCore s c = some s')
    (hc : s.Holds c p) (hp : p ∈ s.jobs) (hu : ∀ q ∈ s.jobs, (s.mem q).jobId = (s.mem p).jobId → q = p) :
    ∃ i, ∃ hi : i < s.jobs.length, s.jobs[i] = p ∧
      (((s.mem p).tRemaining ≠ 0 ∧ s' = ((s.removeAt i).setJob p { s.mem p with jCore := -1, tUpdated := s.cTime }).offer p) ∨
      ((s.mem p).tRemaining = 0 ∧ s' = (((s.removeAt i).finish p s.cTime).setCore c.toNat none).free p)) := by
  obtain ⟨hi, hget⟩ := getElem_findIdx_of_unique
    (f := fun q => decide ((s.mem q).jobId = (s.mem p).jobId)) hp (by simp) (fun q hq hq' => hu q hq (by simpa using hq'))
  have hne : s.jobs ≠ [] := List.ne_nil_of_mem hp
  unfold expireCore at h
  rw [if_neg hne, (Sched.slot_eq_some_some s).2 hc] at h
  simp only [Option.bind_eq_bind, Option.some_bind] at h
  rw [dif_pos hi] at h
  simp only [hget, Sched.removeAt_mem] at h
  refine ⟨_, hi, hget, ?_⟩
  split at h
  · exact .inl ⟨‹_›, (Option.some.inj h).symm⟩
  · rename_i hr
    simp only [Option.map_eq_some'] at h
    obtain ⟨s₂, hw, rfl⟩ := h
    obtain ⟨-, -, rfl⟩ := Sched.writeCore_eq_some _ |>.1 hw
    exact .inr ⟨not_not.1 hr, rfl⟩

/-- **`scheduler_new_job`** after the clock advance: the new job takes the lowest idle core, or
evicts the job on the core the preemption scan names, or waits. -/
theorem schedulerNewJob_cases {s s' : Sched} {n t rt pr ret : Int} {a : Nat} {blk : Job}
    (h : schedulerNewJob s n t rt pr a blk = some (s', ret)) :
    let s₁ := incrementTimestep ((s.malloc a (arrivalRecord blk n t rt pr)).setTime t).countJob
    (∃ i : Nat, s.cJob[i]? = some none ∧ (∀ j < i, s.cJob[j]? ≠ some none) ∧ ret = i ∧
        s' = ((s₁.startNew a i).setCore i (some a)).offer a) ∨
    (none ∉ s.cJob ∧ ∃ v, preemptCore s₁ (s₁.mem a) = some ret ∧ ret ≠ -1 ∧ s.Holds ret v ∧
        s' = (((s₁.startNew a ret).setJob v (evict t ((s₁.startNew a ret).mem v))).setCore ret.toNat (some a)).offer a) ∨
    (none ∉ s.cJob ∧ preemptCore s₁ (s₁.mem a) = some (-1) ∧ ret = -1 ∧ s' = s₁.offer a) := by
  intro s₁
  unfold schedulerNewJob at h
  dsimp only at h
  simp only [incrementTimestep_cJob, Sched.countJob_cJob, Sched.setTime_cJob, Sched.malloc_cJob] at h
  split at h
  · rename_i hi
    simp only [Option.some.injEq, Prod.mk.injEq] at h
    obtain ⟨rfl, rfl⟩ := h
    refine .inl ⟨_, ?_, fun j hj => ?_, rfl, rfl⟩
    · rw [List.getElem?_eq_getElem hi]
      simpa using List.findIdx_getElem (w := hi)
    · have := List.not_of_lt_findIdx hj
      rw [List.getElem?_eq_getElem (by omega)]
      simpa [Option.isSome_iff_ne_none] using this
  · rename_i hi
    have hfull : none ∉ s.cJob := fun hn => hi (List.findIdx_lt_length.2 ⟨none, hn, rfl⟩)
    simp only [Option.bind_eq_bind, Option.bind_eq_some] at h
    obtain ⟨ctc, hctc, h⟩ := h
    split at h
    · rename_i hne
      simp only [Option.bind_eq_some] at h
      obtain ⟨x, hx, v, rfl, s₂, hw, h⟩ := h
      simp only [Option.some.injEq, Prod.mk.injEq] at h
      obtain ⟨rfl, rfl⟩ := h
      have hv : s.Holds ctc v := by simpa [Sched.slot_eq_some_some] using hx
      obtain ⟨-, -, rfl⟩ := Sched.writeCore_eq_some _ |>.1 hw
      exact .inr (.inl ⟨hfull, v, hctc, hne, (Sched.slot_eq_some_some _).1 hx, by simp⟩)
    · rename_i hne
      simp only [Option.some.injEq, Prod.mk.injEq] at h
      obtain ⟨rfl, rfl⟩ := h
      exact .inr (.inr ⟨hfull, not_not.1 hne ▸ hctc, rfl, rfl⟩)

/-! ### Replaying a trace -/

theorem exists_holds_iff {s : Sched} {c : Int} {P : Nat → Prop} :
    (∃ p, s.Holds c p ∧ P p) ↔ ∃ p ∈ (s.slot c).join.toList, P p := by
  simp only [Option.mem_toList, Option.mem_def, Option.join_eq_some, Sched.slot_eq_some_some]

instance (s : Sched) : ∀ e, Decidable (WellFormed s e)
  | .newJob .. => inferInstanceAs (Decidable (_ ∧ _ ∧ _ ∧ _))
  | .jobFinished c n t => decidable_of_iff (s.cTime ≤ t ∧ ∃ p ∈ (s.slot c).join.toList, (s.mem p).jobId = n)
      (and_congr_right_iff.2 fun _ => exists_holds_iff.symm)
  | .quantumExpired c t => decidable_of_iff (s.tScheme = .rr ∧ s.cTime ≤ t ∧ ∃ p ∈ (s.slot c).join.toList, True)
      (by rw [← exists_holds_iff]; simp [WellFormed])

/-- The harness's event loop: run the events in order while each meets the contract `P`, and
give up (`none`) at the first that does not, or whose handler fails. -/
def replay (P : Sched → Event → Prop) [∀ s e, Decidable (P s e)] : Sched → List Event → Option Sched
  | s, [] => some s
  | s, e :: es => if P s e then (s.step e).bind fun x => replay P x.1 es else none

/-- A trace that replays from a reachable state ends in a reachable state. -/
theorem Reachable.of_replay {P : Sched → Event → Prop} [∀ s e, Decidable (P s e)] {s s' : Sched}
    {es : List Event} (hs : Reachable P s) (h : replay P s es = some s') : Reachable P s' := by
  induction es generalizing s with
  | nil => exact Option.some_inj.1 h ▸ hs
  | cons e es ih =>
    simp only [replay] at h
    split_ifs at h with hP
    obtain ⟨⟨s₁, r⟩, hstep, h⟩ := Option.bind_eq_some.1 h
    exact ih (hs.step hP hstep) h

/-- A trace that replays is a run. -/
theorem Run.of_replay {P : Sched → Event → Prop} [∀ s e, Decidable (P s e)] {s s' : Sched}
    {es : List Event} (h : replay P s es = some s') : Run P s es s' := by
  induction es generalizing s with
  | nil => exact Option.some_inj.1 h ▸ .nil s
  | cons e es ih =>
    simp only [replay] at h
    split_ifs at h with hP
    obtain ⟨⟨s₁, r⟩, hstep, h⟩ := Option.bind_eq_some.1 h
    exact .cons hP hstep (ih h)

/-- **A run read off one evaluation.** If replaying `es` from `s₀` evaluates to a state observed by
`f` as `v`, the run through `es` ends in a state observed as `v`. -/
theorem exists_run_of_replay {P : Sched → Event → Prop} [∀ s e, Decidable (P s e)] {β : Type*}
    (s₀ : Sched) (es : List Event) (f : Sched → β) {v : β} (h : (replay P s₀ es).map f = some v) :
    ∃ s, Run P s₀ es s ∧ f s = v := by
  obtain ⟨s, hs, rfl⟩ := Option.map_eq_some'.1 h
  exact ⟨s, .of_replay hs, rfl⟩

/-- **A state read off one evaluation.** If replaying `es` from a reachable `s₀` evaluates to a
state observed by `f` as `v`, some reachable state is observed as `v`. -/
theorem exists_of_replay {P : Sched → Event → Prop} [∀ s e, Decidable (P s e)] {β : Type*} {s₀ : Sched}
    (h0 : Reachable P s₀) (es : List Event) (f : Sched → β) {v : β}
    (h : (replay P s₀ es).map f = some v) : ∃ s, Reachable P s ∧ f s = v := by
  obtain ⟨s, hs, rfl⟩ := Option.map_eq_some'.1 h
  exact ⟨s, h0.of_replay hs, rfl⟩

/-- **A step read off one evaluation.** If replaying `es` from a reachable `s₀` and then calling
`e` evaluates to a call that meets `P`, returns `r` and ends in a state observed by `f` as `v`,
then such a call exists from a reachable state. -/
theorem exists_of_replay_step {P : Sched → Event → Prop} [∀ s e, Decidable (P s e)] {β : Type*}
    {s₀ : Sched} (h0 : Reachable P s₀) (es : List Event) (e : Event) (f : Sched → β) {r : Int} {v : β}
    (h : (replay P s₀ es).bind (fun s => (s.step e).map fun x => (decide (P s e), x.2, f x.1)) =
      some (true, r, v)) :
    ∃ s s', Reachable P s ∧ P s e ∧ s.step e = some (s', r) ∧ f s' = v := by
  obtain ⟨s, hs, h⟩ := Option.bind_eq_some.1 h
  obtain ⟨⟨s', r'⟩, hs', he⟩ := Option.map_eq_some'.1 h
  simp only [Prod.mk.injEq, decide_eq_true_eq] at he
  obtain ⟨hP, rfl, hv⟩ := he
  exact ⟨s, s', h0.of_replay hs, hP, hs', hv⟩

end Libscheduler
