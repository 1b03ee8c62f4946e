import OSLabs.Libscheduler.Ownership

/-!
# What the handlers return

The simulator that drives `libscheduler.c` acts on the value each handler returns:
`scheduler_new_job` returns the core the new job should run on, or `-1` when no scheduling change
is to be made; `scheduler_job_finished` and `scheduler_quantum_expired` return the id of the job
that core `core_id` should run, or `-1` when it is to stay idle. This file proves that the values
say that of the state the handler leaves, so that the simulator's picture of the cores and the
scheduler's agree.

## Main definitions

* `Libscheduler.Reports` — a returned value that names what core `c` now holds.

## Main results

* `Libscheduler.dispatchFirstWaiting_reports` — the dispatch loop returns the id of the job it
  hands the core, or `-1` when it leaves the core as it found it.
* `Libscheduler.schedulerNewJob_result` — the core `scheduler_new_job` returns holds the new job;
  on `-1` the job waits and no core changed.
* `Libscheduler.handler_results` — in every reachable state, the values the three handlers
  return mean what their documentation says, and `-1` means an idle core unless a queued job has
  id `-1`.
-/

namespace Libscheduler

open Sched

/-- The value `r` a call returns for core `c` names what the core holds afterwards: `-1` when it
holds nothing, and otherwise the id of the job it holds. -/
def Reports (s' : Sched) (c r : Int) : Prop :=
  (r = -1 ∧ ∀ q, ¬ s'.Holds c q) ∨ ∃ q, s'.Holds c q ∧ (s'.mem q).jobId = r

/-- The dispatch loop returns the id of the job it hands the core, or `-1` when nothing waits; in
that case it reports truly as long as the core was idle whenever nothing waited. -/
theorem dispatchFirstWaiting_reports {m s' : Sched} {c r : Int}
    (hd : dispatchFirstWaiting m c = some (s', r)) (hidle : m.waiting = [] → ∀ q, ¬ m.Holds c q) :
    Reports s' c r := by
  rcases dispatchFirstWaiting_cases hd with ⟨hw, rfl, rfl⟩ | ⟨q, rest, -, h0, hlt, rfl, rfl⟩
  · exact .inl ⟨rfl, hidle hw⟩
  · exact .inr ⟨q, ⟨h0, by simp [onCore_setCore, hlt]⟩, by simp⟩

/-- A retired job's core holds nothing. -/
theorem Retired.not_holds {s m : Sched} {c : Int} {p : Nat} (hr : Retired s m c.toNat p) (q : Nat) :
    ¬ m.Holds c q := by
  simp [Holds, OnCore, hr.cJob, List.getElem?_set]

/-- **`scheduler_new_job` returns the new job's core.** When it returns a core, that core holds
the new job; when it returns `-1`, the new job waits and no core changed. -/
theorem schedulerNewJob_result {s s' : Sched} {n t rt pr r : Int} {a : Nat} {blk : Job}
    (hs : schedulerNewJob s n t rt pr a blk = some (s', r)) :
    (r ≠ -1 → s'.Holds r a) ∧ (r = -1 → a ∈ s'.waiting ∧ s'.cJob = s.cJob) := by
  rcases schedulerNewJob_cases hs with ⟨i, hi, -, rfl, rfl⟩ | ⟨-, v, -, hr, ⟨h0, hv⟩, rfl⟩ |
    ⟨-, -, rfl, rfl⟩
  · have hlt : i < s.cJob.length := (List.getElem?_eq_some_iff.1 hi).1
    exact ⟨fun _ => ⟨by omega, by simp [onCore_setCore, hlt]⟩, fun h => by omega⟩
  · have hlt : r.toNat < s.cJob.length := (List.getElem?_eq_some_iff.1 hv).1
    exact ⟨fun _ => ⟨h0, by simp [onCore_setCore, hlt]⟩, fun h => absurd h hr⟩
  · refine ⟨fun h => absurd rfl h, fun _ => ⟨mem_waiting.2 ⟨?_, ?_⟩, rfl⟩⟩
    · exact (Libpriqueue.mem_offer _ _).2 (.inl rfl)
    · simp [arrivalRecord]

/-- With no queued job of id `-1`, a value that reports truly is `-1` exactly when the core is
idle. -/
theorem Reports.eq_neg_one_iff {s' : Sched} {c r : Int} (h : Reports s' c r) (hown : Owned s')
    (hid : ∀ q ∈ s'.jobs, (s'.mem q).jobId ≠ -1) : r = -1 ↔ ∀ q, ¬ s'.Holds c q := by
  rcases h with ⟨rfl, hn⟩ | ⟨q, hq, rfl⟩
  · exact ⟨fun _ => hn, fun _ => rfl⟩
  · exact ⟨fun e => absurd e (hid q (hown.onCore _ q hq.2).1), fun hn => absurd hq (hn q)⟩

/-- **The handlers return what the documentation says.** In every state reached by calls meeting
the contract: `scheduler_new_job` returns a core that now holds the new job, or `-1` with the job
waiting and the cores unchanged; `scheduler_job_finished` and `scheduler_quantum_expired` return
`-1` when they leave core `core_id` idle, and otherwise the id of the job it now holds. A job may
have id `-1`, so `-1` means an idle core exactly when no queued job has that id. -/
theorem handler_results {s : Sched} (hs : Reachable WellFormed s) :
    (∀ n t rt pr a blk s' r, schedulerNewJob s n t rt pr a blk = some (s', r) →
      (r ≠ -1 → s'.Holds r a) ∧ (r = -1 → a ∈ s'.waiting ∧ s'.cJob = s.cJob)) ∧
    (∀ c n t s' r, WellFormed s (.jobFinished c n t) → schedulerJobFinished s c n t = some (s', r) →
      Reports s' c r ∧ ((∀ q ∈ s'.jobs, (s'.mem q).jobId ≠ -1) → (r = -1 ↔ ∀ q, ¬ s'.Holds c q))) ∧
    (∀ c t s' r, WellFormed s (.quantumExpired c t) → schedulerQuantumExpired s c t = some (s', r) →
      Reports s' c r ∧ ((∀ q ∈ s'.jobs, (s'.mem q).jobId ≠ -1) → (r = -1 ↔ ∀ q, ¬ s'.Holds c q))) := by
  have h := hs.owned
  refine ⟨fun _ _ _ _ _ _ _ _ hst => schedulerNewJob_result hst, fun c n t s' r hwf hst => ?_,
    fun c t s' r hwf hst => ?_⟩
  · obtain ⟨p, m, -, -, hr, hd⟩ := h.jobFinished_cases hwf hst
    have hrep := dispatchFirstWaiting_reports hd fun _ => hr.not_holds
    exact ⟨hrep, hrep.eq_neg_one_iff (h.jobFinished hwf hst)⟩
  · obtain ⟨p, m, hcp, hr | hr, hd⟩ := h.quantumExpired_cases hwf hst
    · -- the re-queued job waits, so the dispatch hands the core a job
      have hp : p ∈ m.waiting :=
        mem_waiting.2 ⟨hr.jobs.mem_iff.2 (h.onCore _ p hcp.2).1, by simp [(hr.mem p).1]⟩
      have hrep := dispatchFirstWaiting_reports hd fun hw => absurd (hw ▸ hp) (List.not_mem_nil p)
      exact ⟨hrep, hrep.eq_neg_one_iff (h.quantumExpired hwf hst)⟩
    · have hrep := dispatchFirstWaiting_reports hd fun _ => hr.not_holds
      exact ⟨hrep, hrep.eq_neg_one_iff (h.quantumExpired hwf hst)⟩

/-- On one RR core running job `1` with job `2` waiting: the completion of job `1` and its quantum
expiring both hand the core job `2`, and a third arrival gets `-1`. -/
theorem handler_results_round_robin : ∃ s, Reachable WellFormed s ∧
    WellFormed s (.jobFinished 0 1 3) ∧ WellFormed s (.quantumExpired 0 3) ∧
    (∃ s', schedulerJobFinished s 0 1 3 = some (s', 2)) ∧
    (∃ s', schedulerQuantumExpired s 0 3 = some (s', 2)) ∧
    (∃ s', schedulerNewJob s 3 2 5 0 2 default = some (s', -1)) ∧
    ((∀ n t rt pr a blk s' r, schedulerNewJob s n t rt pr a blk = some (s', r) →
      (r ≠ -1 → s'.Holds r a) ∧ (r = -1 → a ∈ s'.waiting ∧ s'.cJob = s.cJob)) ∧
    (∀ c n t s' r, WellFormed s (.jobFinished c n t) → schedulerJobFinished s c n t = some (s', r) →
      Reports s' c r ∧ ((∀ q ∈ s'.jobs, (s'.mem q).jobId ≠ -1) → (r = -1 ↔ ∀ q, ¬ s'.Holds c q))) ∧
    (∀ c t s' r, WellFormed s (.quantumExpired c t) → schedulerQuantumExpired s c t = some (s', r) →
      Reports s' c r ∧ ((∀ q ∈ s'.jobs, (s'.mem q).jobId ≠ -1) → (r = -1 ↔ ∀ q, ¬ s'.Holds c q)))) := by
  obtain ⟨s, hs, hv⟩ := exists_of_replay (.startUp 1 .rr Nat.one_pos)
    [.newJob 1 0 5 0 0 default, .newJob 2 1 5 0 1 default]
    (fun s => ((decide (WellFormed s (.jobFinished 0 1 3)), decide (WellFormed s (.quantumExpired 0 3))),
      (schedulerJobFinished s 0 1 3).map Prod.snd, (schedulerQuantumExpired s 0 3).map Prod.snd,
      (schedulerNewJob s 3 2 5 0 2 default).map Prod.snd))
    (P := WellFormed) (v := ((true, true), some 2, some 2, some (-1))) (by decide)
  simp only [Prod.mk.injEq, decide_eq_true_eq] at hv
  obtain ⟨⟨hf, hq⟩, h₁, h₂, h₃⟩ := hv
  obtain ⟨⟨s₁, _⟩, e₁, rfl⟩ := Option.map_eq_some'.1 h₁
  obtain ⟨⟨s₂, _⟩, e₂, rfl⟩ := Option.map_eq_some'.1 h₂
  obtain ⟨⟨s₃, _⟩, e₃, rfl⟩ := Option.map_eq_some'.1 h₃
  exact ⟨s, hs, hf, hq, ⟨s₁, e₁⟩, ⟨s₂, e₂⟩, ⟨s₃, e₃⟩, handler_results hs⟩

end Libscheduler
