import OSLabs.Libscheduler.Ownership

/-!
# Time accounting

Every job record carries its arrival, total and remaining run time, the time it has waited, the
time of its last update and of its start. The handlers keep these in step with the clock:
`increment_timestep` charges each running job the time since its last update, a dispatch
charges a waiting job the time since it last stopped, and an eviction or an expired quantum
stops the clock of the job. This file states what that bookkeeping maintains, job by job, and
derives the identities behind the three averages: when a job is finalized, its turnaround is its
waiting time plus the time it ran, and its response time is at most its waiting time.

## Main definitions

* `Libscheduler.JobTime` — the accounting of one queued job at the current time.
* `Libscheduler.TimeInv` — every queued job is accounted for.
* `Libscheduler.Finalized` — what finalizing a record adds to the running sums.

## Main results

* `Libscheduler.time_accounting` — the invariant holds in every reachable state, and every
  finalization adds amounts that satisfy the identities.
* `Libscheduler.no_eviction` — under FCFS, SJF and PRI a job keeps its core until its
  completion is reported, and its waiting time is its response time.

## Design

The invariant is stated per record (`JobTime`), and each record update of the handlers gets one
lemma (`JobTime.tick`, `JobTime.resume`, `JobTime.evict`, ...). The handler lemmas only say
which update each queued job undergoes.
-/

namespace Libscheduler

open Sched

/-- The disciplines under which a job keeps its core until it finishes: no arrival preempts it
and no quantum expires. -/
def Scheme.nonpreemptive : Scheme → Bool
  | .fcfs | .sjf | .pri => true
  | .psjf | .ppri | .rr => false

/-- The accounting of a job that has run, up to time `u`: the time it waited and the time it ran
add up to the time since it arrived; it started no earlier than it arrived; and its response
time is part of its waiting time. -/
structure Ran (u : Int) (j : Job) : Prop where
  identity : j.tWaiting + (j.tTotal - j.tRemaining) = u - j.tArrival
  arrival_le : j.tArrival ≤ j.tStarted
  response_le : j.tStarted - j.tArrival ≤ j.tWaiting

/-- **The accounting of one queued job** at time `T`. A running job was last updated now and has
run; a waiting job either never ran, or (only under a preemptive discipline) has run up to its
last update. Under a non-preemptive discipline a running job waited exactly until it started. -/
structure JobTime (σ : Scheme) (T : Int) (j : Job) : Prop where
  arrival_nonneg : 0 ≤ j.tArrival
  arrival_le : j.tArrival ≤ T
  remaining_le : j.tRemaining ≤ j.tTotal
  running : j.jCore ≠ -1 → j.tUpdated = T ∧ Ran T j
  waiting : j.jCore = -1 → (j.tStarted = -1 ∧ j.tUpdated = -1 ∧ j.tRemaining = j.tTotal) ∨
    (σ.nonpreemptive = false ∧ j.tUpdated ≤ T ∧ Ran j.tUpdated j)
  unpreempted : σ.nonpreemptive → j.jCore ≠ -1 → j.tWaiting = j.tStarted - j.tArrival

namespace JobTime

variable {σ : Scheme} {T : Int} {j : Job} (h : JobTime σ T j)
include h

theorem started_ne (hr : j.jCore ≠ -1) : j.tStarted ≠ -1 := by
  have := (h.running hr).2.arrival_le; have := h.arrival_nonneg; omega

/-- A running job ticked at a later time `t` has run since its last update. -/
theorem tick {t : Int} (hT : T ≤ t) (hr : j.jCore ≠ -1) : JobTime σ t (tick t j) := by
  obtain ⟨hu, hran⟩ := h.running hr
  have := h.remaining_le
  have := hran.identity
  rw [tick_of_started t j (h.started_ne hr)]
  exact ⟨h.arrival_nonneg, h.arrival_le.trans hT, by dsimp only; omega,
    fun _ => ⟨rfl, ⟨by dsimp only; omega, hran.arrival_le, hran.response_le⟩⟩, fun hw => absurd hw hr,
    fun hσ _ => h.unpreempted hσ hr⟩

/-- A waiting job is left alone by the clock. -/
theorem mono {t : Int} (hT : T ≤ t) (hw : j.jCore = -1) : JobTime σ t j where
  arrival_nonneg := h.arrival_nonneg
  arrival_le := h.arrival_le.trans hT
  remaining_le := h.remaining_le
  running hr := absurd hw hr
  waiting hw := (h.waiting hw).imp_right fun ⟨hσ, hu, hran⟩ => ⟨hσ, hu.trans hT, hran⟩
  unpreempted _ hr := absurd hw hr

/-- A waiting job handed a core at time `T` starts, or resumes, running. -/
theorem resume {c : Int} (hw : j.jCore = -1) (hc : 0 ≤ c) :
    JobTime σ T { Libscheduler.resume T j with jCore := c } := by
  have hne : c ≠ -1 := by omega
  have := h.arrival_le
  rcases h.waiting hw with ⟨hs, -, hrem⟩ | ⟨hσ, hu, hran⟩
  · simp only [Libscheduler.resume, hs, if_true]
    exact ⟨h.arrival_nonneg, h.arrival_le, h.remaining_le, fun _ => ⟨rfl, ⟨by dsimp only; omega,
      this, by dsimp only; omega⟩⟩, fun hw' => absurd hw' hne, fun _ _ => rfl⟩
  · have := hran.identity
    have := hran.response_le
    simp only [Libscheduler.resume, if_neg (by have := hran.arrival_le; have := h.arrival_nonneg; omega : j.tStarted ≠ -1)]
    exact ⟨h.arrival_nonneg, h.arrival_le, h.remaining_le, fun _ => ⟨rfl, ⟨by dsimp only; omega,
      hran.arrival_le, by dsimp only; omega⟩⟩, fun hw' => absurd hw' hne, fun h' => by simp [hσ] at h'⟩

/-- A running job evicted at time `T` waits again; one started at `T` never really ran. -/
theorem evict (hr : j.jCore ≠ -1) (hσ : σ.nonpreemptive = false) : JobTime σ T (Libscheduler.evict T j) := by
  obtain ⟨hu, hran⟩ := h.running hr
  have := h.remaining_le
  have := hran.identity
  have := hran.response_le
  simp only [Libscheduler.evict]
  split_ifs with hs
  · exact ⟨h.arrival_nonneg, h.arrival_le, h.remaining_le, fun h' => absurd rfl h',
      fun _ => .inl ⟨rfl, rfl, by dsimp only at hs ⊢; omega⟩, fun h' => by simp [hσ] at h'⟩
  · exact ⟨h.arrival_nonneg, h.arrival_le, h.remaining_le, fun h' => absurd rfl h',
      fun _ => .inr ⟨hσ, le_rfl, ⟨hran.identity, hran.arrival_le, hran.response_le⟩⟩, fun h' => by simp [hσ] at h'⟩

/-- The job of an expired quantum waits again from time `T`. -/
theorem requeue (hr : j.jCore ≠ -1) (hσ : σ.nonpreemptive = false) :
    JobTime σ T { j with jCore := -1, tUpdated := T } := by
  obtain ⟨hu, hran⟩ := h.running hr
  exact ⟨h.arrival_nonneg, h.arrival_le, h.remaining_le, fun h' => absurd rfl h',
    fun _ => .inr ⟨hσ, le_rfl, ⟨hran.identity, hran.arrival_le, hran.response_le⟩⟩, fun h' => by simp [hσ] at h'⟩

end JobTime

/-- A new arrival waits, never having run. -/
theorem jobTime_arrival {σ : Scheme} (blk : Job) (n t rt pr : Int) (ht : 0 ≤ t) :
    JobTime σ t (arrivalRecord blk n t rt pr) :=
  ⟨ht, le_rfl, le_rfl, fun h => absurd rfl h, fun _ => .inl ⟨rfl, rfl, rfl⟩, fun _ h => absurd rfl h⟩

/-- A new arrival put straight on a core has run for no time and waited for none. -/
theorem jobTime_startNew {σ : Scheme} (blk : Job) (n t rt pr c : Int) (ht : 0 ≤ t) (hc : 0 ≤ c) :
    JobTime σ t { arrivalRecord blk n t rt pr with tWaiting := 0, tStarted := t, tUpdated := t, jCore := c } :=
  ⟨ht, le_rfl, le_rfl, fun _ => ⟨rfl, ⟨by simp [arrivalRecord], le_rfl, by simp [arrivalRecord]⟩⟩,
    fun h => absurd (show c = -1 from h) (by omega), fun _ _ => by simp [arrivalRecord]⟩

/-! ## The invariant -/

/-- **The time accounting invariant**: the clock has not gone below zero and every queued job is
accounted for at the current time. -/
structure TimeInv (s : Sched) : Prop where
  cTime_nonneg : 0 ≤ s.cTime
  jobs : ∀ p ∈ s.jobs, JobTime s.tScheme s.cTime (s.mem p)

theorem timeInv_startUp (n : Nat) (scheme : Scheme) : TimeInv (schedulerStartUp n scheme) :=
  ⟨le_rfl, fun _ h => by simp [schedulerStartUp] at h⟩

namespace TimeInv

variable {s : Sched} (hT : TimeInv s)
include hT

/-- The clock advance: jobs on a core run, the others wait. -/
theorem advance (h : Owned s) {t : Int} (ht : s.cTime ≤ t) : TimeInv (incrementTimestep (s.setTime t)) := by
  refine ⟨hT.cTime_nonneg.trans ht, fun p hp => ?_⟩
  rw [incrementTimestep_mem (s.setTime t) (fun _ _ _ => h.onCore_inj)]
  split_ifs with hc
  · obtain ⟨c, hc⟩ := s.mem_cJob_iff.1 hc
    exact (hT.jobs p hp).tick ht (by rw [(h.onCore c p hc).2]; omega)
  · exact (hT.jobs p hp).mono ht
      ((h.jCore p hp).resolve_right fun ⟨c, _, hc'⟩ => hc (s.mem_cJob_iff.2 ⟨c, hc'⟩))

/-- The dispatch keeps the accounting. -/
theorem dispatch {s' : Sched} {c r : Int} (hd : dispatchFirstWaiting s c = some (s', r)) : TimeInv s' := by
  rcases dispatchFirstWaiting_cases hd with ⟨-, rfl, -⟩ | ⟨q, rest, hw, h0, -, rfl, -⟩
  · exact hT
  · have hq := mem_waiting.1 (hw ▸ List.mem_cons_self q rest)
    refine ⟨hT.cTime_nonneg, fun p hp => ?_⟩
    by_cases hpq : p = q
    · subst hpq; simpa using (hT.jobs p hq.1).resume hq.2 h0
    · simpa [Function.update_noteq hpq] using hT.jobs p hp

end TimeInv

/-- `scheduler_new_job` keeps the accounting and finalizes nothing. -/
theorem TimeInv.newJob {s s' : Sched} {n t rt pr ret : Int} {a : Nat} {blk : Job} (h : Owned s) (hT : TimeInv s)
    (hwf : WellFormed s (.newJob n t rt pr a blk)) (hs : schedulerNewJob s n t rt pr a blk = some (s', ret)) :
    TimeInv s' ∧ s'.alloc = Function.update s.alloc a true := by
  obtain ⟨ht, -, ha, -⟩ := hwf
  have hca : some a ∉ s.cJob := fun hm => by
    obtain ⟨c, hc⟩ := s.mem_cJob_iff.1 hm; exact h.not_onCore_of_alloc ha c hc
  have hna : a ∉ s.jobs := fun hm => by simp [(h.mem_jobs a).1 hm] at ha
  have h₁ := hT.advance h ht
  have hmem := incrementTimestep_malloc_mem s (arrivalRecord blk n t rt pr) t (fun _ _ _ => h.onCore_inj) hca
  have ht0 : 0 ≤ t := hT.cTime_nonneg.trans ht
  have hold : ∀ p ∈ s.jobs, p ≠ a → JobTime s.tScheme t
      ((incrementTimestep ((s.malloc a (arrivalRecord blk n t rt pr)).setTime t).countJob).mem p) :=
    fun p hp hpa => by rw [hmem, Function.update_noteq hpa]; exact h₁.jobs p hp
  rcases schedulerNewJob_cases hs with ⟨i, hi, -, -, rfl⟩ | ⟨-, v, hpre, hr, hv, rfl⟩ | ⟨-, -, -, rfl⟩
  · refine ⟨⟨ht0, fun p hp => ?_⟩, rfl⟩
    rcases (Libpriqueue.mem_offer _ _).1 hp with rfl | hp
    · simpa [startNew_mem, hmem] using jobTime_startNew (σ := s.tScheme) blk n t rt pr i ht0 (by omega)
    · replace hp : p ∈ s.jobs := by simpa using hp
      have hpa : p ≠ a := fun e => hna (e ▸ hp)
      simpa [startNew_mem, Function.update_noteq hpa] using hold p hp hpa
  · have hσ : s.tScheme.nonpreemptive = false := by
      rcases preemptCore_scheme hpre hr with h' | h' <;> simp only [incrementTimestep_tScheme,
        countJob_tScheme, setTime_tScheme, malloc_tScheme] at h' <;> simp [h', Scheme.nonpreemptive]
    have hvj := h.onCore _ v hv.2
    have hva : v ≠ a := fun e => hna (e ▸ hvj.1)
    refine ⟨⟨ht0, fun p hp => ?_⟩, rfl⟩
    rcases (Libpriqueue.mem_offer _ _).1 hp with rfl | hp
    · simpa [startNew_mem, Function.update_noteq hva.symm, hmem] using
        jobTime_startNew (σ := s.tScheme) blk n t rt pr ret ht0 hv.1
    · have hpj : p ∈ s.jobs := by simpa using hp
      have hpa : p ≠ a := fun e => hna (e ▸ hpj)
      by_cases hpv : p = v
      · subst hpv
        have hrun : ((incrementTimestep ((s.malloc a (arrivalRecord blk n t rt pr)).setTime t).countJob).mem p).jCore ≠ -1 := by
          simp [Function.update_noteq hpa, hvj.2]; omega
        simpa [startNew_mem, Function.update_noteq hpa] using (hold p hpj hpa).evict hrun hσ
      · simpa [startNew_mem, Function.update_noteq hpa, Function.update_noteq hpv] using hold p hpj hpa
  · refine ⟨⟨ht0, fun p hp => ?_⟩, rfl⟩
    rcases (Libpriqueue.mem_offer _ _).1 hp with rfl | hp
    · simpa [hmem] using jobTime_arrival (σ := s.tScheme) blk n t rt pr ht0
    · replace hp : p ∈ s.jobs := by simpa using hp
      exact hold p hp fun e => hna (e ▸ hp)

/-! ## Finalization -/

/-- What finalizing the record `j` did between `s` and `s'`: the running sums grew by its
turnaround, waiting and response times, which satisfy the accounting identities (so none is
negative), and under a non-preemptive discipline its waiting time is its response time. -/
structure Finalized (s s' : Sched) (j : Job) : Prop where
  turnaround : s'.tTurnaround = s.tTurnaround + (j.tEnd - j.tArrival)
  wait : s'.tWait = s.tWait + j.tWaiting
  response : s'.tResponse = s.tResponse + (j.tStarted - j.tArrival)
  identity : j.tEnd - j.tArrival = j.tWaiting + (j.tTotal - j.tRemaining)
  remaining_le : j.tRemaining ≤ j.tTotal
  response_nonneg : 0 ≤ j.tStarted - j.tArrival
  response_le : j.tStarted - j.tArrival ≤ j.tWaiting
  unpreempted : s.tScheme.nonpreemptive → j.tWaiting = j.tStarted - j.tArrival

/-- A running job finalized at the current time satisfies the identities. -/
theorem JobTime.finalized {s s' : Sched} {T : Int} {j : Job} (h : JobTime s.tScheme T j) (hr : j.jCore ≠ -1)
    (h1 : s'.tTurnaround = s.tTurnaround + (T - j.tArrival)) (h2 : s'.tWait = s.tWait + j.tWaiting)
    (h3 : s'.tResponse = s.tResponse + (j.tStarted - j.tArrival)) : Finalized s s' { j with tEnd := T } := by
  obtain ⟨-, hran⟩ := h.running hr
  have := hran.identity
  have := hran.arrival_le
  exact ⟨h1, h2, h3, by dsimp only; omega, h.remaining_le, by dsimp only; omega, hran.response_le,
    fun hσ => h.unpreempted hσ hr⟩

/-- Taking the job at position `i` out of the queue and finishing it keeps the accounting of the
others. -/
theorem TimeInv.finish {s : Sched} (hT : TimeInv s) (hnd : s.jobs.Nodup) {i : Nat} (hi : i < s.jobs.length)
    {p : Nat} (hget : s.jobs[i] = p) : TimeInv ((s.removeAt i).finish p s.cTime) := by
  refine ⟨hT.cTime_nonneg, fun q hq => ?_⟩
  obtain ⟨hne, hq⟩ := (mem_eraseIdx_of_nodup hnd hi).1 hq
  rw [hget] at hne
  simpa [Function.update_noteq hne] using hT.jobs q hq

/-- `scheduler_job_finished` keeps the accounting and finalizes the job it is told of. -/
theorem TimeInv.jobFinished {s s' : Sched} {c n t r : Int} (h : Owned s) (hT : TimeInv s)
    (hwf : WellFormed s (.jobFinished c n t)) (hs : schedulerJobFinished s c n t = some (s', r)) :
    TimeInv s' ∧ ∃ p, s.alloc p = true ∧ s'.alloc = Function.update s.alloc p false ∧ Finalized s s' (s'.mem p) := by
  obtain ⟨p, i, hi, hget, hcp, -, ht, m, rfl, -, hd⟩ := h.jobFinished_spec hwf hs
  set m := ((((incrementTimestep (s.setTime t)).removeAt i).finish p t).free p).setCore c.toNat none with hm
  have hp := hget ▸ List.getElem_mem hi
  have h₁ := hT.advance h ht
  obtain ⟨-, ha, -, -, h1, h2, h3, hmem⟩ := dispatchFirstWaiting_frame hd
  have hfin := h₁.finish h.nodup hi hget
  refine ⟨TimeInv.dispatch (s := m) ⟨hfin.1, hfin.2⟩ hd, p, (h.mem_jobs p).1 hp, by rw [ha]; rfl, ?_⟩
  have hpw : p ∉ m.waiting := fun hw => ((mem_eraseIdx_of_nodup h.nodup hi).1 (mem_waiting.1 hw).1).1 hget.symm
  have hrun : ((incrementTimestep (s.setTime t)).mem p).jCore ≠ -1 := by
    simp [(h.onCore _ p hcp.2).2]; omega
  rw [hmem p hpw, show m.mem p = { (incrementTimestep (s.setTime t)).mem p with tEnd := t } by simp [hm]]
  exact (h₁.jobs p hp).finalized (s := s) hrun (by rw [h1]; simp [hm]) (by rw [h2]; simp [hm])
    (by rw [h3]; simp [hm])

/-- `scheduler_quantum_expired` keeps the accounting, and finalizes the expiring job exactly when
it has no time left. -/
theorem TimeInv.quantumExpired {s s' : Sched} {c t r : Int} (h : Owned s) (hT : TimeInv s)
    (hwf : WellFormed s (.quantumExpired c t)) (hs : schedulerQuantumExpired s c t = some (s', r)) :
    TimeInv s' ∧ (s'.alloc = s.alloc ∨
      ∃ p, s.alloc p = true ∧ s'.alloc = Function.update s.alloc p false ∧ Finalized s s' (s'.mem p)) := by
  obtain ⟨p, i, hi, hget, hcp, hrr, ht, m, -, hd, hm⟩ := h.quantumExpired_spec hwf hs
  have hp := hget ▸ List.getElem_mem hi
  have h₁ := hT.advance h ht
  obtain ⟨-, ha, -, -, h1, h2, h3, hmem⟩ := dispatchFirstWaiting_frame hd
  have hrun : ((incrementTimestep (s.setTime t)).mem p).jCore ≠ -1 := by
    simp [(h.onCore _ p hcp.2).2]; omega
  rcases hm with ⟨-, hm⟩ | ⟨-, hm⟩
  · refine ⟨TimeInv.dispatch (s := m) ⟨by simpa [hm] using h₁.cTime_nonneg, fun q hq => ?_⟩ hd,
      .inl (by rw [ha, hm]; rfl)⟩
    rw [hm] at hq ⊢
    rcases (Libpriqueue.mem_offer _ _).1 hq with rfl | hq
    · simpa using (h₁.jobs q hp).requeue hrun (by simp [hrr, Scheme.nonpreemptive])
    · obtain ⟨hne, hq⟩ := (mem_eraseIdx_of_nodup h.nodup hi).1 hq
      rw [hget] at hne
      simpa [Function.update_noteq hne] using h₁.jobs q hq
  · have hfin := h₁.finish h.nodup hi hget
    refine ⟨TimeInv.dispatch (s := m) (hm ▸ ⟨hfin.1, hfin.2⟩) hd,
      .inr ⟨p, (h.mem_jobs p).1 hp, by rw [ha, hm]; rfl, ?_⟩⟩
    have hpw : p ∉ m.waiting := fun hw => by
      have := (mem_waiting.1 hw).1
      rw [hm] at this
      exact ((mem_eraseIdx_of_nodup h.nodup hi).1 this).1 hget.symm
    rw [hmem p hpw, show m.mem p = { (incrementTimestep (s.setTime t)).mem p with tEnd := t } by simp [hm]]
    exact (h₁.jobs p hp).finalized (s := s) hrun (by rw [h1]; simp [hm]) (by rw [h2]; simp [hm])
      (by rw [h3]; simp [hm])

/-! ## Runs -/

/-- Every handler keeps the accounting, and the jobs a call frees are finalized with their sums
accounted. -/
theorem TimeInv.step {s s' : Sched} {e : Event} {r : Int} (h : Owned s) (hT : TimeInv s)
    (hwf : WellFormed s e) (hs : s.step e = some (s', r)) :
    TimeInv s' ∧ ∀ p, s.alloc p = true → s'.alloc p = false → Finalized s s' (s'.mem p) := by
  have fin : ∀ p, s'.alloc = Function.update s.alloc p false → Finalized s s' (s'.mem p) →
      ∀ q, s.alloc q = true → s'.alloc q = false → Finalized s s' (s'.mem q) := fun p ha hf q hq hq' => by
    by_cases hqp : q = p
    · exact hqp ▸ hf
    · simp [ha, Function.update_noteq hqp, hq] at hq'
  cases e with
  | newJob n t rt pr a =>
    obtain ⟨hT', ha⟩ := hT.newJob h hwf hs
    refine ⟨hT', fun p hp hp' => ?_⟩
    by_cases hpa : p = a <;> simp [ha, hpa, hp] at hp'
  | jobFinished =>
    obtain ⟨hT', p, -, ha, hf⟩ := hT.jobFinished h hwf hs
    exact ⟨hT', fin p ha hf⟩
  | quantumExpired =>
    obtain ⟨hT', ha | ⟨p, -, ha, hf⟩⟩ := hT.quantumExpired h hwf hs
    · exact ⟨hT', fun q hq hq' => by simp [ha, hq] at hq'⟩
    · exact ⟨hT', fin p ha hf⟩

/-- The accounting holds in every reachable state. -/
theorem Reachable.timeInv {s : Sched} (hs : Reachable WellFormed s) : TimeInv s := by
  induction hs with
  | startUp n scheme _ => exact timeInv_startUp n scheme
  | step hr hwf hstep ih => exact (ih.step hr.owned hwf hstep).1

/-- **Time accounting.** The invariant holds in every reachable state, and whenever a call frees
a job, the amounts it adds to the running sums are the finalized record's turnaround, waiting and
response times, with turnaround = waiting + time run and 0 ≤ response ≤ waiting; a job reported
complete as its remaining time reaches zero has turnaround = waiting + run length. -/
theorem time_accounting {s : Sched} (hs : Reachable WellFormed s) :
    TimeInv s ∧ ∀ e s' r p, WellFormed s e → s.step e = some (s', r) → s.alloc p = true →
      s'.alloc p = false → Finalized s s' (s'.mem p) ∧ ((s'.mem p).tRemaining = 0 →
        (s'.mem p).tEnd - (s'.mem p).tArrival = (s'.mem p).tWaiting + (s'.mem p).tTotal) := by
  refine ⟨hs.timeInv, fun e s' r p hwf hst hp hp' => ?_⟩
  have hf := (hs.timeInv.step hs.owned hwf hst).2 p hp hp'
  exact ⟨hf, fun h0 => by have := hf.identity; omega⟩

/-- On one FCFS core, job `2` arrives at time `1` behind job `1` and starts at time `2`; its
completion at time `5` finalizes it with turnaround `4`, of which it waited `1`. -/
theorem time_accounting_second_job : ∃ s s' r, Reachable WellFormed s ∧
    WellFormed s (.jobFinished 0 2 5) ∧ s.step (.jobFinished 0 2 5) = some (s', r) ∧
    s.alloc 1 = true ∧ s'.alloc 1 = false ∧ (s'.mem 1).tRemaining = 0 ∧ (s'.mem 1).tWaiting = 1 ∧
    TimeInv s ∧ Finalized s s' (s'.mem 1) ∧
      (s'.mem 1).tEnd - (s'.mem 1).tArrival = (s'.mem 1).tWaiting + (s'.mem 1).tTotal := by
  obtain ⟨s, hs, hv⟩ := exists_of_replay (.startUp 1 .fcfs Nat.one_pos)
    [.newJob 1 0 2 0 0 default, .newJob 2 1 3 0 1 default, .jobFinished 0 1 2]
    (fun s => (decide (WellFormed s (.jobFinished 0 2 5)), s.alloc 1,
      (s.step (.jobFinished 0 2 5)).map fun x => (x.1.alloc 1, (x.1.mem 1).tRemaining, (x.1.mem 1).tWaiting)))
    (P := WellFormed) (v := (true, true, some (false, 0, 1))) (by decide)
  simp only [Prod.mk.injEq, decide_eq_true_eq] at hv
  obtain ⟨hwf, ha, hst⟩ := hv
  obtain ⟨⟨s', r⟩, hst, hv⟩ := Option.map_eq_some'.1 hst
  simp only [Prod.mk.injEq] at hv
  obtain ⟨ha', h0, hw⟩ := hv
  obtain ⟨hT, hfin⟩ := time_accounting hs
  obtain ⟨hf, hid⟩ := hfin _ s' r 1 hwf hst ha ha'
  exact ⟨s, s', r, hs, hwf, hst, ha, ha', h0, hw, hT, hf, hid h0⟩

/-! ## Non-preemptive disciplines -/

/-- Under a non-preemptive discipline a call leaves every running job on its core, with its start
time and id, unless it is the completion of that job. -/
theorem TimeInv.keeps_core {s s' : Sched} {e : Event} {r : Int} (h : Owned s) (hT : TimeInv s)
    (hσ : s.tScheme.nonpreemptive) (hwf : WellFormed s e) (hs : s.step e = some (s', r)) {c p : Nat}
    (hc : s.OnCore c p) :
    (s'.OnCore c p ∧ (s'.mem p).jCore = c ∧ (s'.mem p).tStarted = (s.mem p).tStarted ∧
      (s'.mem p).jobId = (s.mem p).jobId) ∨ ∃ c' t, e = .jobFinished c' (s.mem p).jobId t := by
  have hp := (h.onCore c p hc).1
  have hjc := (h.onCore c p hc).2
  have htick : ∀ t, (incrementTimestep (s.setTime t)).mem p = tick t (s.mem p) := fun t => by
    rw [incrementTimestep_mem (s.setTime t) (fun _ _ _ => h.onCore_inj),
      if_pos (show some p ∈ (s.setTime t).cJob from s.mem_cJob_iff.2 ⟨c, hc⟩)]; rfl
  have hst : ∀ t, (tick t (s.mem p)).tStarted = (s.mem p).tStarted := fun t => by
    rw [tick_of_started _ _ ((hT.jobs p hp).started_ne (by omega))]
  cases e with
  | newJob n t rt pr a blk =>
    obtain ⟨-, -, ha, -⟩ := hwf
    have hpa : p ≠ a := fun e => h.not_onCore_of_alloc ha c (e ▸ hc)
    have hca : some a ∉ s.cJob := fun hm => by
      obtain ⟨c', hc'⟩ := s.mem_cJob_iff.1 hm; exact h.not_onCore_of_alloc ha c' hc'
    have hrec := incrementTimestep_malloc_mem s (arrivalRecord blk n t rt pr) t (fun _ _ _ => h.onCore_inj) hca p
    rw [Function.update_noteq hpa, htick] at hrec
    rcases schedulerNewJob_cases hs with ⟨i, hi, -, -, rfl⟩ | ⟨-, v, hpre, hr, -, -⟩ | ⟨-, -, -, rfl⟩
    · have hic : i ≠ c := by rintro rfl; simp [OnCore, hi] at hc
      refine .inl ⟨?_, ?_⟩
      · simpa [onCore_setCore, hic] using hc
      · simp [startNew_mem, Function.update_noteq hpa, hrec, hst, hjc]
    · rcases preemptCore_scheme hpre hr with h' | h' <;> simp only [incrementTimestep_tScheme,
        countJob_tScheme, setTime_tScheme, malloc_tScheme] at h' <;> simp [h', Scheme.nonpreemptive] at hσ
    · exact .inl ⟨hc, by simp [hrec, hst, hjc]⟩
  | jobFinished c' n t =>
    by_cases hn : n = (s.mem p).jobId
    · exact .inr ⟨c', t, by rw [hn]⟩
    obtain ⟨p', i, hi, hget, hcp', hid, -, m, rfl, -, hd⟩ := h.jobFinished_spec hwf hs
    have hpp : p ≠ p' := by rintro rfl; exact hn hid.symm
    have hcc : c ≠ c'.toNat := by rintro rfl; exact hpp (hc.unique hcp'.2)
    have hw : p ∉ (((((incrementTimestep (s.setTime t)).removeAt i).finish p' t).free p').setCore
        c'.toNat none).waiting := fun hw => by
      have := (mem_waiting.1 hw).2
      simp [Function.update_noteq hpp, hjc] at this
    obtain ⟨-, -, -, -, -, -, -, hmem⟩ := dispatchFirstWaiting_frame hd
    refine .inl ⟨(dispatchFirstWaiting_onCore hd hcc).2 ?_, ?_⟩
    · simpa [onCore_setCore, Ne.symm hcc, OnCore] using hc
    · simp [hmem p hw, Function.update_noteq hpp, htick, hst, hjc]
  | quantumExpired c' t => simp [hwf.1, Scheme.nonpreemptive] at hσ

/-- Along a run that does not report the completion of a running job, the job keeps its core and
its start time. -/
theorem Run.keeps_core {s s' : Sched} {es : List Event} (hr : Run WellFormed s es s')
    (hs : Reachable WellFormed s) (hσ : s.tScheme.nonpreemptive) {c p : Nat} (hc : s.OnCore c p)
    (hes : ∀ e ∈ es, ∀ c' t, e ≠ .jobFinished c' (s.mem p).jobId t) :
    s'.OnCore c p ∧ (s'.mem p).jCore = c ∧ (s'.mem p).tStarted = (s.mem p).tStarted := by
  induction hr with
  | nil s => exact ⟨hc, (hs.owned.onCore c p hc).2, rfl⟩
  | cons hP hstep _ ih =>
    rcases hs.timeInv.keeps_core hs.owned hσ hP hstep hc with ⟨hc', -, hst, hid⟩ | ⟨c', t, rfl⟩
    · obtain ⟨h1, h2, h3⟩ := ih (hs.step hP hstep) (by rwa [hs.owned.step_tScheme hP hstep]) hc'
        (fun e he c' t => by rw [hid]; exact hes e (List.mem_cons_of_mem _ he) c' t)
      exact ⟨h1, h2, h3.trans hst⟩
    · exact absurd rfl (hes _ (List.mem_cons_self _ _) c' t)

/-- **No eviction under FCFS, SJF and PRI.** A job on core `c` stays there, with its `j_core` and
its start time, through every run that does not report its completion; and every job a call
finalizes has waited exactly until it started. -/
theorem no_eviction {s : Sched} (hs : Reachable WellFormed s)
    (hσ : s.tScheme = .fcfs ∨ s.tScheme = .sjf ∨ s.tScheme = .pri) :
    (∀ es s' c p, Run WellFormed s es s' → s.OnCore c p →
      (∀ e ∈ es, ∀ c' t, e ≠ .jobFinished c' (s.mem p).jobId t) →
      s'.OnCore c p ∧ (s'.mem p).jCore = c ∧ (s'.mem p).tStarted = (s.mem p).tStarted) ∧
    (∀ e s' r p, WellFormed s e → s.step e = some (s', r) → s.alloc p = true → s'.alloc p = false →
      (s'.mem p).tWaiting = (s'.mem p).tStarted - (s'.mem p).tArrival) := by
  have hnp : s.tScheme.nonpreemptive := by rcases hσ with h | h | h <;> simp [h, Scheme.nonpreemptive]
  exact ⟨fun es s' c p hr hc hes => hr.keeps_core hs hnp hc hes,
    fun e s' r p hwf hst hp hp' => ((hs.timeInv.step hs.owned hwf hst).2 p hp hp').unpreempted hnp⟩

/-- On one FCFS core, job `1` keeps its core and start time while job `2` arrives, and its
completion finalizes it with waiting time equal to its response time. -/
theorem no_eviction_arrival : ∃ s, Reachable WellFormed s ∧ s.tScheme = .fcfs ∧ s.OnCore 0 0 ∧
    (∃ s', Run WellFormed s [.newJob 2 1 5 0 1 default] s' ∧ s'.OnCore 0 0 ∧ (s'.mem 0).jCore = 0 ∧
      (s'.mem 0).tStarted = (s.mem 0).tStarted) ∧
    ∃ s' r, WellFormed s (.jobFinished 0 1 5) ∧ s.step (.jobFinished 0 1 5) = some (s', r) ∧
      s.alloc 0 = true ∧ s'.alloc 0 = false ∧
      (s'.mem 0).tWaiting = (s'.mem 0).tStarted - (s'.mem 0).tArrival := by
  obtain ⟨s, hs, hv⟩ := exists_of_replay (.startUp 1 .fcfs Nat.one_pos) [.newJob 1 0 5 0 0 default]
    (fun s => ((s.tScheme, s.cJob), ((replay WellFormed s [.newJob 2 1 5 0 1 default]).isSome,
      decide (WellFormed s (.jobFinished 0 1 5)), s.alloc 0),
      (s.step (.jobFinished 0 1 5)).map fun x => x.1.alloc 0))
    (P := WellFormed) (v := ((.fcfs, [some 0]), (true, true, true), some false)) (by decide)
  simp only [Prod.mk.injEq, decide_eq_true_eq] at hv
  obtain ⟨⟨hσ, hc⟩, ⟨hrun, hwf, ha⟩, hst⟩ := hv
  have hon : s.OnCore 0 0 := by simp [OnCore, hc]
  obtain ⟨s₁, hs₁⟩ := Option.isSome_iff_exists.1 hrun
  obtain ⟨⟨s', r⟩, hst, ha'⟩ := Option.map_eq_some'.1 hst
  obtain ⟨hkeep, hfin⟩ := no_eviction hs (.inl hσ)
  refine ⟨s, hs, hσ, hon, ⟨s₁, .of_replay hs₁, hkeep _ s₁ 0 0 (.of_replay hs₁) hon ?_⟩,
    s', r, hwf, hst, ha, ha', hfin _ s' r 0 hwf hst ha ha'⟩
  simp

end Libscheduler
