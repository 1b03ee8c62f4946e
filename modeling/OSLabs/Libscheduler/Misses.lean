import OSLabs.Libscheduler.Spec

/-!
# Unknown ids and the `-1` sentinels

Two places where `libscheduler.c` meets a value its loops do not expect. The search of
`scheduler_job_finished` for the job to finish has no case for an id that no queued job has: it
runs off the end of the queue and finishes whatever `job_finished` last pointed to. The
preemption scans of `scheduler_new_job` start their maxima `corejoblength` and `corepriority` at
`-1`, so a running job whose key is not above `-1` is never chosen, and the PPRI tie test on a
key equal to `-1` reads `c_job[coretochange]` with `coretochange = -1`.

## Main results

* `Libscheduler.finishCore_of_unknown` — on an unknown id, the finishing half of
  `scheduler_job_finished` finishes and frees the last queued job.
* `Libscheduler.jobFinished_unknown_id` — so the call fails on an empty queue and otherwise
  frees a job that stays in the queue and adds its times to the running sums.
* `Libscheduler.ppriScan_below_sentinel` — the PPRI scan names no core when every running job
  has a priority value below `-1`.
* `Libscheduler.newJob_ppri_sentinel` — `scheduler_new_job` under PPRI then preempts nothing,
  whatever the new job's priority, and fails when the first core runs a job of value `-1`.
-/

namespace Libscheduler

open Sched

/-! ### Finishing an unknown id -/

/-- **The search of `scheduler_job_finished` on an unknown id** falls through: the job it
finishes and frees is the last of the queue, which stays queued; on an empty queue the pointer
it would finish was never set. -/
theorem finishCore_of_unknown {s : Sched} {c n t : Int} (hn : ∀ q ∈ s.jobs, (s.mem q).jobId ≠ n) :
    finishCore s c n t = s.jobs.getLast?.bind fun p =>
      (((incrementTimestep (s.setTime t)).finish p t).free p).writeCore c none := by
  have hi : ¬ (s.jobs.findIdx fun p => ((incrementTimestep (s.setTime t)).mem p).jobId = n) <
      s.jobs.length := fun h => by
    obtain ⟨q, hq, hq'⟩ := List.findIdx_lt_length.1 h
    exact hn q hq (by simpa using hq')
  unfold finishCore
  simp only [incrementTimestep_jobs, setTime_jobs, dif_neg hi]
  cases s.jobs.getLast? <;> rfl

/-- The dispatch loop returns on a core in range. -/
theorem dispatchFirstWaiting_some {s : Sched} {c : Int} (h0 : 0 ≤ c) (hlt : c.toNat < s.cJob.length) :
    ∃ s' r, dispatchFirstWaiting s c = some (s', r) := by
  unfold dispatchFirstWaiting
  dsimp only
  split
  · simp [writeCore, h0, hlt]
  · exact ⟨s, -1, rfl⟩

/-- **Finishing an unknown id.** When no queued job has the id `job_number`,
`scheduler_job_finished` has no result on an empty queue (it finishes through an uninitialised
pointer); it returns on any other queue and a core in range; and whenever it returns, it has
freed the last queued job, which is still in the queue, and added that job's turnaround time to
`t_turnaround`. -/
theorem jobFinished_unknown_id {s : Sched} {c n t : Int} (hn : ∀ q ∈ s.jobs, (s.mem q).jobId ≠ n) :
    (s.jobs = [] → schedulerJobFinished s c n t = none) ∧
    (s.jobs ≠ [] → 0 ≤ c → c.toNat < s.cJob.length → ∃ s' r, schedulerJobFinished s c n t = some (s', r)) ∧
    ∀ s' r, schedulerJobFinished s c n t = some (s', r) →
      ∃ p, s.jobs.getLast? = some p ∧ p ∈ s'.jobs ∧ s'.alloc p = false ∧
        s'.tTurnaround = s.tTurnaround + (t - (s.mem p).tArrival) := by
  have hf := finishCore_of_unknown (c := c) (t := t) hn
  refine ⟨fun h0 => by simp [schedulerJobFinished, hf, h0], fun hne h0 hlt => ?_, fun s' r h => ?_⟩
  · obtain ⟨p, hp⟩ := Option.ne_none_iff_exists'.1 (mt List.getLast?_eq_none_iff.1 hne)
    have hlen : s.jobs.length ≠ 0 := mt List.eq_nil_of_length_eq_zero hne
    have hw : (((incrementTimestep (s.setTime t)).finish p t).free p).writeCore c none =
        some ((((incrementTimestep (s.setTime t)).finish p t).free p).setCore c.toNat none) :=
      (writeCore_eq_some _).2 ⟨h0, by simpa using hlt, rfl⟩
    obtain ⟨s', r, hd⟩ := dispatchFirstWaiting_some (s := (((incrementTimestep (s.setTime t)).finish p t).free
      p).setCore c.toNat none) h0 (by simpa using hlt)
    refine ⟨s', r, ?_⟩
    simp only [schedulerJobFinished, hf, hp, Option.bind_eq_bind, Option.some_bind, hw]
    rw [if_neg (by simpa using hlen)]
    exact hd
  · unfold schedulerJobFinished at h
    rw [hf] at h
    obtain ⟨m, hm, hd⟩ := Option.bind_eq_some.1 h
    obtain ⟨p, hp, hw⟩ := Option.bind_eq_some.1 hm
    obtain ⟨-, -, rfl⟩ := (writeCore_eq_some _).1 hw
    refine ⟨p, hp, ?_⟩
    have hmem : p ∈ s.jobs := List.mem_of_getLast?_eq_some hp
    split at hd
    · obtain ⟨rfl, -⟩ := Prod.mk.inj (Option.some.inj hd)
      simp [hmem]
    · obtain ⟨hj, ha, -, -, ht, -⟩ := dispatchFirstWaiting_frame hd
      refine ⟨by rw [hj]; simpa using hmem, by rw [ha]; simp, by rw [ht]; simp⟩

theorem jobFinished_unknown_id_run : ∃ s, Reachable WellFormed s ∧ s.jobs = [0] ∧
    (∀ q ∈ s.jobs, (s.mem q).jobId ≠ 2) ∧
    (s.jobs = [] → schedulerJobFinished s 0 2 1 = none) ∧
    (s.jobs ≠ [] → 0 ≤ (0 : Int) → (0 : Int).toNat < s.cJob.length →
      ∃ s' r, schedulerJobFinished s 0 2 1 = some (s', r)) ∧
    ∀ s' r, schedulerJobFinished s 0 2 1 = some (s', r) →
      ∃ p, s.jobs.getLast? = some p ∧ p ∈ s'.jobs ∧ s'.alloc p = false ∧
        s'.tTurnaround = s.tTurnaround + (1 - (s.mem p).tArrival) := by
  obtain ⟨s, hs, hv⟩ := exists_of_replay (.startUp 1 .fcfs Nat.one_pos) [.newJob 1 0 5 0 0 default]
    (fun s => (s.jobs, (s.mem 0).jobId)) (P := WellFormed) (v := ([0], 1)) (by decide)
  obtain ⟨hj, hid⟩ := Prod.mk.inj hv
  have hn : ∀ q ∈ s.jobs, (s.mem q).jobId ≠ 2 := by
    rw [hj]; simp [hid]
  exact ⟨s, hs, hj, hn, jobFinished_unknown_id hn⟩

/-! ### The `-1` sentinels of the preemption scans -/

/-- **The PPRI scan is blind below `-1`.** Started from the sentinels `coretochange =
corepriority = -1`, a scan over busy cores whose jobs all have priority values below `-1` names
no core, whatever the new job's priority. -/
theorem ppriScan_below_sentinel (mem : Nat → Job) (pr : Int) (cores cs : List (Option Nat)) (i : Nat)
    (hn : none ∉ cs) (hlt : ∀ p, some p ∈ cs → (mem p).priority < -1) :
    ppriScan mem pr cores cs i (-1) (-1) = some (-1) := by
  induction cs generalizing i with
  | nil => rfl
  | cons x cs ih =>
    obtain _ | p := x
    · exact absurd (List.mem_cons_self _ _) hn
    have hp := hlt p (List.mem_cons_self _ _)
    simp only [ppriScan, if_neg (show ¬ (-1 : Int) < (mem p).priority by omega),
      if_neg (show ¬ (mem p).priority = -1 by omega), ite_self]
    exact ih _ (fun h => hn (List.mem_cons_of_mem _ h)) fun q hq => hlt q (List.mem_cons_of_mem _ hq)

/-- **`scheduler_new_job` under PPRI at the sentinel.** On a state whose cores are all busy, the
new job's block `a` being on none of them: if every running job has a priority value below `-1`,
the new job preempts nothing, whatever its own priority; and if the first core runs a job of
value `-1` and the new job's value is below it, the tie test reads `c_job[-1]` and the call has
no result. -/
theorem newJob_ppri_sentinel {s : Sched} {n t rt pr : Int} {a : Nat} {blk : Job}
    (hσ : s.tScheme = .ppri) (hfull : none ∉ s.cJob) (ha : some a ∉ s.cJob) :
    ((∀ p, some p ∈ s.cJob → (s.mem p).priority < -1) →
      ∃ s', schedulerNewJob s n t rt pr a blk = some (s', -1)) ∧
    (∀ p, s.OnCore 0 p → (s.mem p).priority = -1 → pr < -1 → schedulerNewJob s n t rt pr a blk = none) := by
  unfold schedulerNewJob
  dsimp only
  simp only [incrementTimestep_cJob, countJob_cJob, setTime_cJob, malloc_cJob]
  have hi : ¬ s.cJob.findIdx Option.isNone < s.cJob.length := fun h => by
    obtain ⟨x, hx, hx'⟩ := List.findIdx_lt_length.1 h
    exact hfull (Option.isNone_iff_eq_none.1 hx' ▸ hx)
  rw [if_neg hi]
  set s₁ := incrementTimestep ((s.malloc a (arrivalRecord blk n t rt pr)).setTime t).countJob with hs₁
  have hprio : ∀ p, some p ∈ s.cJob → (s₁.mem p).priority = (s.mem p).priority := fun p hp => by
    have hpa : p ≠ a := by rintro rfl; exact ha hp
    simp [hs₁, Function.update_noteq hpa]
  have hpc : preemptCore s₁ (s₁.mem a) = ppriScan s₁.mem pr s.cJob s.cJob 0 (-1) (-1) := by
    simp [preemptCore, hs₁, hσ, arrivalRecord]
  rw [hpc]
  refine ⟨fun hlt => ?_, fun p hp hp1 hpr => ?_⟩
  · rw [ppriScan_below_sentinel _ _ _ _ _ hfull fun p hp => (hprio p hp).symm ▸ hlt p hp]
    exact ⟨_, rfl⟩
  · obtain ⟨rest, hc⟩ := List.head?_eq_some_iff.1 ((List.head?_eq_getElem? _).trans hp)
    have hp₁ : (s₁.mem p).priority = -1 := (hprio p (hc ▸ List.mem_cons_self _ _)).trans hp1
    rw [hc]
    simp [ppriScan, hp₁, hpr]

/-- On one core under PPRI, with job 1 of priority value `-2` running, job 2 of value `-5`
arrives within the contract and is not given the core. -/
theorem newJob_ppri_sentinel_run : ∃ s, Reachable WellFormed s ∧ s.tScheme = .ppri ∧
    s.cJob = [some 0] ∧ (s.mem 0).priority = -2 ∧ WellFormed s (.newJob 2 1 5 (-5) 1 default) ∧
    ∃ s', schedulerNewJob s 2 1 5 (-5) 1 default = some (s', -1) := by
  obtain ⟨s, hs, hv⟩ := exists_of_replay (.startUp 1 .ppri Nat.one_pos) [.newJob 1 0 5 (-2) 0 default]
    (fun s => (s.tScheme, s.cJob, (s.mem 0).priority, decide (WellFormed s (.newJob 2 1 5 (-5) 1 default))))
    (P := WellFormed) (v := (.ppri, [some 0], -2, true)) (by decide)
  simp only [Prod.mk.injEq, decide_eq_true_eq] at hv
  obtain ⟨hσ, hc, hp, hwf⟩ := hv
  refine ⟨s, hs, hσ, hc, hp, hwf, (newJob_ppri_sentinel hσ (by rw [hc]; decide) (by rw [hc]; decide)).1
    fun q hq => ?_⟩
  obtain rfl : q = 0 := by simpa [hc] using hq
  rw [hp]
  decide

end Libscheduler
