import OSLabs.Libscheduler.Timing

/-!
# The dispatch order of FCFS, SJF, PRI and RR

The queue of `libscheduler.c` holds running and waiting jobs together, and the dispatch loop
hands a freed core the first waiting job in queue order. Under FCFS, SJF, PRI and RR the
comparator only ever places a new job before waiting jobs of larger key, so the waiting jobs form
a subsequence of the queue sorted by key and then by the time they became ready. This file proves
that, and that every dispatch therefore picks the least waiting job.

## Main definitions

* `Libscheduler.dispatchKey`, `Libscheduler.readyTime`, `Libscheduler.Before` — the order.

## Main results

* `Libscheduler.dispatch_order` — the waiting jobs are sorted in every reachable state, and the
  job a completion or an expired quantum hands the core is the least of the jobs waiting then.

## Implementation notes

The moment of a dispatch is the state the first half of the handler leaves: `finishCore` for a
completion, `expireCore` after the clock advance for an expired quantum, where the expiring job
has already been re-queued.
-/

namespace Libscheduler

open Sched

/-! ## Waiting lists -/

/-- The waiting list reads only the queue and the cores the records name. -/
theorem waiting_congr {x s : Sched} (hj : x.jobs = s.jobs) (hm : ∀ p ∈ s.jobs, (x.mem p).jCore = (s.mem p).jCore) :
    x.waiting = s.waiting := by
  unfold Sched.waiting; rw [hj]; exact List.filter_congr fun p hp => by rw [hm p hp]



/-- Offering a job that has a core leaves the waiting list as it was. -/
theorem waiting_offer_of_running {x : Sched} {a : Nat} (ha : (x.mem a).jCore ≠ -1) :
    (x.offer a).waiting = x.waiting := by
  simp only [Sched.waiting, offer_jobs, offer_mem]
  exact Libpriqueue.filter_offer_of_not _ (by simpa using ha) _

/-- Offering a waiting job offers it to the waiting list, when the comparator never places it
before a job that has a core. -/
theorem waiting_offer_of_waiting {x : Sched} {a : Nat} (ha : (x.mem a).jCore = -1)
    (hrun : ∀ e ∈ x.jobs, (x.mem e).jCore ≠ -1 → ¬ comparer x.tScheme (x.mem a) (x.mem e) < 0) :
    (x.offer a).waiting = Libpriqueue.offer (fun p q => comparer x.tScheme (x.mem p) (x.mem q)) a x.waiting := by
  simp only [Sched.waiting, offer_jobs, offer_mem]
  rw [Libpriqueue.filter_offer _ _ a (fun e he hw => hrun e he (by simpa using hw)), if_pos (by simpa using ha)]

/-! ## The dispatch order -/

/-- The key the comparator sorts waiting jobs by: the run length under SJF, the priority value
under PRI, nothing under FCFS and RR. -/
def dispatchKey : Scheme → Job → Int
  | .sjf, j => j.tTotal
  | .pri, j => j.priority
  | _, _ => 0

/-- When a waiting job became ready: its arrival, or for a job that has run, when it stopped. -/
def readyTime (j : Job) : Int := if j.tStarted = -1 then j.tArrival else j.tUpdated

/-- Job `p` goes before job `q`: a smaller key, or an equal key and an earlier ready time. -/
def Before (s : Sched) : Nat → Nat → Prop :=
  Libpriqueue.KeyLex (fun p => dispatchKey s.tScheme (s.mem p)) (fun p q => readyTime (s.mem p) ≤ readyTime (s.mem q))

/-- The order reads only the discipline and the records of the jobs compared. -/
theorem sorted_before_congr {x s : Sched} {l : List Nat} (hσ : x.tScheme = s.tScheme)
    (hm : ∀ p ∈ l, x.mem p = s.mem p) (h : l.Sorted (Before s)) : l.Sorted (Before x) :=
  List.Pairwise.imp_of_mem (fun ha hb hab => by
    simp only [Before, Libpriqueue.KeyLex, hσ, hm _ ha, hm _ hb] at hab ⊢; exact hab) h

section Comparer

variable {σ : Scheme} (hσ : σ ≠ .psjf ∧ σ ≠ .ppri)
include hσ

/-- The comparators of these disciplines never place a job before one that has started. -/
theorem comparer_of_started {e : Job} (he : e.tStarted ≠ -1) (x : Job) : ¬ comparer σ x e < 0 := by
  cases σ <;> simp_all [comparer]

/-- On a waiting job, which under SJF and PRI has never run, the comparator compares the keys. -/
theorem comparer_waiting {e : Job} (he : σ.nonpreemptive → e.tStarted = -1 ∧ e.tRemaining = e.tTotal) (x : Job) :
    comparer σ x e < 0 ↔ dispatchKey σ x < dispatchKey σ e := by
  cases σ <;> simp_all [comparer, dispatchKey, Scheme.nonpreemptive] <;> split_ifs <;> omega

end Comparer

/-- A waiting job became ready no later than now. -/
theorem JobTime.readyTime_le {σ : Scheme} {T : Int} {j : Job} (h : JobTime σ T j) (hw : j.jCore = -1) :
    readyTime j ≤ T := by
  unfold readyTime
  rcases h.waiting hw with ⟨hs, -, -⟩ | ⟨-, hu, hran⟩
  · simp [hs, h.arrival_le]
  · rw [if_neg (by have := hran.arrival_le; have := h.arrival_nonneg; omega)]; exact hu

/-- Under a non-preemptive discipline a waiting job has never run. -/
theorem JobTime.never_ran {σ : Scheme} {T : Int} {j : Job} (h : JobTime σ T j) (hw : j.jCore = -1)
    (hσ : σ.nonpreemptive) : j.tStarted = -1 ∧ j.tRemaining = j.tTotal := by
  rcases h.waiting hw with ⟨hs, -, hr⟩ | ⟨hσ', -⟩
  · exact ⟨hs, hr⟩
  · simp [hσ'] at hσ

/-- The dispatch hands the core the first waiting job: if the slot ends up holding `q`, then `q`
was waiting, first in the order the waiting jobs are sorted by. -/
theorem dispatch_head {R : Nat → Nat → Prop} {m s' : Sched} {c r : Int}
    (hd : dispatchFirstWaiting m c = some (s', r)) (ho : m.waiting.Sorted R)
    (hslot : m.waiting = [] → ∀ q, ¬ m.Holds c q) {q : Nat} (hq : s'.Holds c q) :
    q ∈ m.waiting ∧ ∀ q' ∈ m.waiting, q' ≠ q → R q q' := by
  rcases dispatchFirstWaiting_cases hd with ⟨hw, rfl, -⟩ | ⟨q₀, rest, hw, h0, hlt, rfl, -⟩
  · exact absurd hq (hslot hw q)
  · obtain ⟨-, hq⟩ := hq
    simp only [onCore_setCore, if_pos, hlt, true_and, Option.some.injEq] at hq
    obtain ⟨-, rfl⟩ := hq
    rw [hw] at ho ⊢
    exact ⟨List.mem_cons_self _ _, fun q' hq' hne =>
      (List.sorted_cons.1 ho).1 q' ((List.mem_cons.1 hq').resolve_left hne)⟩

/-- The dispatch keeps the waiting jobs sorted: it removes the first. -/
theorem sorted_dispatch {m s' : Sched} {c r : Int} (hnd : m.jobs.Nodup) (ho : m.waiting.Sorted (Before m))
    (hd : dispatchFirstWaiting m c = some (s', r)) : s'.waiting.Sorted (Before s') := by
  rcases dispatchFirstWaiting_cases hd with ⟨-, rfl, -⟩ | ⟨q, rest, hw, h0, -, rfl, -⟩
  · exact ho
  · rw [waiting_dispatch hnd hw h0]
    rw [hw] at ho
    have hq : q ∉ rest := (List.nodup_cons.1 (hw ▸ hnd.filter _)).1
    exact sorted_before_congr (s := m) rfl (fun p hp => by simp [Function.update_noteq (ne_of_mem_of_not_mem hp hq)])
      (List.sorted_cons.1 ho).2

/-- The clock advance leaves the waiting jobs and their records alone. -/
theorem Owned.advance_waiting {s : Sched} (h : Owned s) (t : Int) :
    (incrementTimestep (s.setTime t)).waiting = s.waiting ∧
      ∀ p ∈ s.waiting, (incrementTimestep (s.setTime t)).mem p = s.mem p := by
  refine ⟨waiting_congr rfl fun p _ => by simp, fun p hp => ?_⟩
  refine incrementTimestep_mem_of_not_onCore (s.setTime t) fun c hc => ?_
  have := (h.onCore c p hc).2
  rw [(mem_waiting.1 hp).2] at this; omega

/-- `scheduler_new_job` keeps the waiting jobs sorted: a job that has to wait is inserted after
every job of smaller or equal key, all of which became ready before it. -/
theorem ordered_newJob {s s' : Sched} {n t rt pr ret : Int} {a : Nat} {blk : Job} (h : Owned s)
    (hT : TimeInv s) (hσ : s.tScheme ≠ .psjf ∧ s.tScheme ≠ .ppri) (ho : s.waiting.Sorted (Before s))
    (hwf : WellFormed s (.newJob n t rt pr a blk)) (hs : schedulerNewJob s n t rt pr a blk = some (s', ret)) :
    s'.waiting.Sorted (Before s') := by
  obtain ⟨ht, -, ha, -⟩ := hwf
  have hca : some a ∉ s.cJob := fun hm => by
    obtain ⟨c, hc⟩ := s.mem_cJob_iff.1 hm; exact h.not_onCore_of_alloc ha c hc
  have hna : a ∉ s.jobs := fun hm => by simp [(h.mem_jobs a).1 hm] at ha
  have hmem := incrementTimestep_malloc_mem s (arrivalRecord blk n t rt pr) t (fun _ _ _ => h.onCore_inj) hca
  have h₁ := hT.advance h ht
  obtain ⟨hw₀, hm₀⟩ := h.advance_waiting t
  set s₁ := incrementTimestep ((s.malloc a (arrivalRecord blk n t rt pr)).setTime t).countJob with hs₁
  have hrec : ∀ p ∈ s.jobs, s₁.mem p = (incrementTimestep (s.setTime t)).mem p := fun p hp => by
    rw [hmem, Function.update_noteq (fun e => hna (by subst e; exact hp))]
  have hw₁ : s₁.waiting = s.waiting := hw₀ ▸ waiting_congr rfl fun p hp => by rw [hrec p hp]
  have ho₁ : s₁.waiting.Sorted (Before s₁) := by
    rw [hw₁]
    exact sorted_before_congr (s := s) rfl (fun p hp => (hrec p (mem_waiting.1 hp).1).trans (hm₀ p hp)) ho
  have hpa : ∀ p ∈ s₁.jobs, p ≠ a := fun p hp e => hna (by subst e; exact hp)
  rcases schedulerNewJob_cases hs with ⟨i, -, -, -, rfl⟩ | ⟨-, v, hpre, hr, -, -⟩ | ⟨-, -, -, rfl⟩
  · rw [waiting_offer_of_running (by simp [startNew_mem])]
    have hw : ((s₁.startNew a i).setCore i (some a)).waiting = s₁.waiting :=
      waiting_congr rfl fun p hp => by simp [startNew_mem, Function.update_noteq (hpa p hp)]
    rw [hw]
    exact sorted_before_congr (s := s₁) rfl (fun p hp => by
      simp [startNew_mem, Function.update_noteq (hpa p (mem_waiting.1 hp).1)]) ho₁
  · rcases preemptCore_scheme hpre hr with h' | h' <;> simp [hs₁] at h' <;> simp [h'] at hσ
  · have hwa : (s₁.mem a).jCore = -1 := by simp [hmem, arrivalRecord]
    have hJ : ∀ e ∈ s₁.jobs, JobTime s₁.tScheme t (s₁.mem e) := fun e he => by
      rw [hrec e he]; exact h₁.jobs e he
    rw [waiting_offer_of_waiting hwa fun e he hr' => comparer_of_started hσ ((hJ e he).started_ne hr') _]
    refine Libpriqueue.sorted_offer _ _ _ _ ho₁ (fun e he => ?_) (fun e he => ?_)
    · have hra : readyTime (s₁.mem a) = t := by simp [hmem, readyTime, arrivalRecord]
      show readyTime (s₁.mem e) ≤ readyTime (s₁.mem a)
      rw [hra]; exact (hJ e (mem_waiting.1 he).1).readyTime_le (mem_waiting.1 he).2
    · exact comparer_waiting hσ (fun hnp => (hJ e (mem_waiting.1 he).1).never_ran (mem_waiting.1 he).2 hnp) _

/-- Taking a running job out of the queue, whatever is then written to its record, leaves the
waiting jobs and their records alone. -/
theorem waiting_remove {x y : Sched} (hnd : x.jobs.Nodup) {i p : Nat} (hi : i < x.jobs.length)
    (hget : x.jobs[i] = p) (hp : (x.mem p).jCore ≠ -1) (hj : y.jobs = x.jobs.eraseIdx i)
    (hm : ∀ e, e ≠ p → y.mem e = x.mem e) :
    y.waiting = x.waiting ∧ ∀ e ∈ x.waiting, y.mem e = x.mem e := by
  have hne : ∀ e ∈ x.waiting, e ≠ p := fun e he hep => hp (hep ▸ (mem_waiting.1 he).2)
  refine ⟨?_, fun e he => hm e (hne e he)⟩
  unfold Sched.waiting
  rw [hj, ← filter_eraseIdx_of_not hi (by simp [hget, hp])]
  exact List.filter_congr fun e he => by
    rw [hm e fun hep => ((mem_eraseIdx_of_nodup hnd hi).1 he).1 (hep.trans hget.symm)]

/-- `scheduler_job_finished` reaches its dispatch with the waiting jobs sorted and the core empty. -/
theorem ordered_jobFinished {s s' : Sched} {c n t r : Int} (h : Owned s) (ho : s.waiting.Sorted (Before s))
    (hwf : WellFormed s (.jobFinished c n t)) (hs : schedulerJobFinished s c n t = some (s', r)) :
    ∃ m, finishCore s c n t = some m ∧ m.jobs.Nodup ∧ m.waiting.Sorted (Before m) ∧
      (∀ q, ¬ m.Holds c q) ∧ dispatchFirstWaiting m c = some (s', r) := by
  obtain ⟨p, i, hi, hget, hcp, -, -, m, rfl, hf, hd⟩ := h.jobFinished_spec hwf hs
  obtain ⟨hw₀, hm₀⟩ := h.advance_waiting t
  have hrun : ((incrementTimestep (s.setTime t)).mem p).jCore ≠ -1 := by
    simp [(h.onCore _ p hcp.2).2]; omega
  obtain ⟨hw, hm⟩ := waiting_remove (x := incrementTimestep (s.setTime t)) (y := ((incrementTimestep (s.setTime t)).removeAt i).finish p t) h.nodup hi hget hrun rfl
    fun e he => by simp [Function.update_noteq he]
  refine ⟨_, hf, (List.eraseIdx_sublist _ _).nodup h.nodup, ?_, fun q ⟨_, hq⟩ => ?_, hd⟩
  · rw [hw₀] at hw hm
    show ((((incrementTimestep (s.setTime t)).removeAt i).finish p t)).waiting.Sorted _
    rw [hw]
    exact sorted_before_congr (s := s) rfl (fun e he => (hm e he).trans (hm₀ e he)) ho
  · simp [onCore_setCore] at hq

/-- `scheduler_quantum_expired` reaches its dispatch with the waiting jobs sorted: the expiring
job, ready now, is appended. -/
theorem ordered_quantumExpired {s s' : Sched} {c t r : Int} (h : Owned s) (hT : TimeInv s)
    (ho : s.waiting.Sorted (Before s)) (hwf : WellFormed s (.quantumExpired c t))
    (hs : schedulerQuantumExpired s c t = some (s', r)) :
    ∃ m, expireCore (incrementTimestep (s.setTime t)) c = some m ∧ m.jobs.Nodup ∧
      m.waiting.Sorted (Before m) ∧ (m.waiting = [] → ∀ q, ¬ m.Holds c q) ∧
      dispatchFirstWaiting m c = some (s', r) := by
  obtain ⟨p, i, hi, hget, hcp, hrr, ht, m, he, hd, hm⟩ := h.quantumExpired_spec hwf hs
  obtain ⟨hw₀, hm₀⟩ := h.advance_waiting t
  have hp := hget ▸ List.getElem_mem hi
  have hpr := (h.onCore _ p hcp.2).2
  have hrun : ((incrementTimestep (s.setTime t)).mem p).jCore ≠ -1 := by simp [hpr]; omega
  refine ⟨m, he, ?_⟩
  rcases hm with ⟨-, rfl⟩ | ⟨-, rfl⟩
  · obtain ⟨hw, hmm⟩ := waiting_remove (x := incrementTimestep (s.setTime t)) (y := ((incrementTimestep (s.setTime t)).removeAt i).setJob p
      { (incrementTimestep (s.setTime t)).mem p with jCore := -1, tUpdated := t }) h.nodup hi hget hrun rfl
      fun e he => by simp [Function.update_noteq he]
    rw [hw₀] at hw hmm
    have hpw : p ∉ ((incrementTimestep (s.setTime t)).jobs.eraseIdx i) := fun hm =>
      ((mem_eraseIdx_of_nodup h.nodup hi).1 hm).1 hget.symm
    rw [waiting_offer_of_waiting (by simp) fun e _ _ => by simp [comparer, hrr], hw]
    refine ⟨(Libpriqueue.offer_perm _ _ _).nodup_iff.2 (List.nodup_cons.2 ⟨hpw,
      (List.eraseIdx_sublist _ _).nodup h.nodup⟩), ?_,
      fun hn => by simpa using congrArg List.length hn, hd⟩
    refine Libpriqueue.sorted_offer _ _ _ _ (sorted_before_congr (s := s) (by simp) (fun e he => (hmm e he).trans
      (hm₀ e he)) ho) (fun e he => ?_) (fun e _ => comparer_waiting (by simp [hrr]) (by simp [hrr, Scheme.nonpreemptive]) _)
    have htk := ((hT.advance h ht).jobs p hp).started_ne hrun
    have hle := (hT.jobs e (mem_waiting.1 he).1).readyTime_le (mem_waiting.1 he).2
    show readyTime _ ≤ readyTime _
    rw [offer_mem, hmm e he, hm₀ e he]
    simpa [readyTime, htk] using hle.trans ht
  · obtain ⟨hw, hmm⟩ := waiting_remove (x := incrementTimestep (s.setTime t))
      (y := ((((incrementTimestep (s.setTime t)).removeAt i).finish p t).setCore c.toNat none).free p)
      h.nodup hi hget hrun rfl fun e he => by simp [Function.update_noteq he]
    rw [hw₀] at hw hmm
    refine ⟨(List.eraseIdx_sublist _ _).nodup h.nodup, ?_, fun _ q ⟨_, hq⟩ => by simp [onCore_setCore] at hq, hd⟩
    rw [hw]
    exact sorted_before_congr (s := s) rfl (fun e he => (hmm e he).trans (hm₀ e he)) ho

/-! ## Runs -/

/-- Every handler keeps the waiting jobs sorted. -/
theorem ordered_step {s s' : Sched} {e : Event} {r : Int} (h : Owned s) (hT : TimeInv s)
    (hσ : s.tScheme ≠ .psjf ∧ s.tScheme ≠ .ppri) (ho : s.waiting.Sorted (Before s)) (hwf : WellFormed s e)
    (hs : s.step e = some (s', r)) : s'.waiting.Sorted (Before s') := by
  cases e with
  | newJob => exact ordered_newJob h hT hσ ho hwf hs
  | jobFinished =>
    obtain ⟨m, -, hnd, hm, -, hd⟩ := ordered_jobFinished h ho hwf hs
    exact sorted_dispatch hnd hm hd
  | quantumExpired =>
    obtain ⟨m, -, hnd, hm, -, hd⟩ := ordered_quantumExpired h hT ho hwf hs
    exact sorted_dispatch hnd hm hd

/-- Under FCFS, SJF, PRI and RR the waiting jobs are sorted in every reachable state. -/
theorem Reachable.ordered {s : Sched} (hs : Reachable WellFormed s) (hσ : s.tScheme ≠ .psjf ∧ s.tScheme ≠ .ppri) :
    s.waiting.Sorted (Before s) := by
  induction hs with
  | startUp => exact List.sorted_nil
  | step hr hwf hstep ih =>
    have hσ' : _ ∧ _ := hr.owned.step_tScheme hwf hstep ▸ hσ
    exact ordered_step hr.owned hr.timeInv hσ' (ih hσ') hwf hstep

/-- **Dispatch order under FCFS, SJF, PRI and RR.** In every reachable state the waiting jobs
form a subsequence of the queue sorted by the discipline's key and then by the time they became
ready; and when `scheduler_job_finished` or `scheduler_quantum_expired` leaves a job `q` on the
core, `q` was waiting at the moment of the dispatch and went before every other job waiting then. -/
theorem dispatch_order {s : Sched} (hs : Reachable WellFormed s)
    (hσ : s.tScheme = .fcfs ∨ s.tScheme = .sjf ∨ s.tScheme = .pri ∨ s.tScheme = .rr) :
    s.waiting.Sorted (Before s) ∧
    (∀ c n t s' r, WellFormed s (.jobFinished c n t) → schedulerJobFinished s c n t = some (s', r) →
      ∃ m, finishCore s c n t = some m ∧
        ∀ q, s'.Holds c q → q ∈ m.waiting ∧ ∀ q' ∈ m.waiting, q' ≠ q → Before m q q') ∧
    (∀ c t s' r, WellFormed s (.quantumExpired c t) → schedulerQuantumExpired s c t = some (s', r) →
      ∃ m, expireCore (incrementTimestep (s.setTime t)) c = some m ∧
        ∀ q, s'.Holds c q → q ∈ m.waiting ∧ ∀ q' ∈ m.waiting, q' ≠ q → Before m q q') := by
  have hσ' : s.tScheme ≠ .psjf ∧ s.tScheme ≠ .ppri := by rcases hσ with h | h | h | h <;> simp [h]
  have ho := hs.ordered hσ'
  refine ⟨ho, fun c n t s' r hwf hst => ?_, fun c t s' r hwf hst => ?_⟩
  · obtain ⟨m, hf, -, hm, hslot, hd⟩ := ordered_jobFinished hs.owned ho hwf hst
    exact ⟨m, hf, fun q hq => dispatch_head hd hm (fun _ => hslot) hq⟩
  · obtain ⟨m, he, -, hm, hslot, hd⟩ := ordered_quantumExpired hs.owned hs.timeInv ho hwf hst
    exact ⟨m, he, fun q hq => dispatch_head hd hm hslot hq⟩

/-- On one SJF core, jobs of run lengths `5`, `4` and `3` arrive in turn; when the first completes,
the job of length `3`, which arrived last, takes the core. On one RR core, three jobs of the same
length arrive in turn; when the first one's quantum expires, the second takes the core. -/
theorem dispatch_order_runs :
    (∃ s s' r, Reachable WellFormed s ∧ s.tScheme = .sjf ∧ s.waiting = [2, 1] ∧
      s.waiting.Sorted (Before s) ∧ WellFormed s (.jobFinished 0 1 3) ∧
      schedulerJobFinished s 0 1 3 = some (s', r) ∧ s'.Holds 0 2 ∧
      ∃ m, finishCore s 0 1 3 = some m ∧ 2 ∈ m.waiting ∧ ∀ q' ∈ m.waiting, q' ≠ 2 → Before m 2 q') ∧
    ∃ s s' r, Reachable WellFormed s ∧ s.tScheme = .rr ∧ s.waiting = [1, 2] ∧
      WellFormed s (.quantumExpired 0 3) ∧ schedulerQuantumExpired s 0 3 = some (s', r) ∧ s'.Holds 0 1 ∧
      ∃ m, expireCore (incrementTimestep (s.setTime 3)) 0 = some m ∧ 1 ∈ m.waiting ∧
        ∀ q' ∈ m.waiting, q' ≠ 1 → Before m 1 q' := by
  constructor
  · obtain ⟨s, hs, hv⟩ := exists_of_replay (.startUp 1 .sjf Nat.one_pos)
      [.newJob 1 0 5 0 0 default, .newJob 2 1 4 0 1 default, .newJob 3 2 3 0 2 default]
      (fun s => ((s.tScheme, s.waiting), decide (WellFormed s (.jobFinished 0 1 3)),
        (schedulerJobFinished s 0 1 3).map fun x => x.1.cJob))
      (P := WellFormed) (v := ((.sjf, [2, 1]), true, some [some 2])) (by decide)
    simp only [Prod.mk.injEq, decide_eq_true_eq] at hv
    obtain ⟨⟨hσ, hw⟩, hwf, hst⟩ := hv
    obtain ⟨⟨s', r⟩, hst, hc⟩ := Option.map_eq_some'.1 hst
    have hh : s'.Holds 0 2 := ⟨le_rfl, by rw [OnCore, show s'.cJob = _ from hc]; rfl⟩
    obtain ⟨ho, hfin, -⟩ := dispatch_order hs (.inr (.inl hσ))
    obtain ⟨m, hm, hq⟩ := hfin 0 1 3 s' r hwf hst
    exact ⟨s, s', r, hs, hσ, hw, ho, hwf, hst, hh, m, hm, hq 2 hh⟩
  · obtain ⟨s, hs, hv⟩ := exists_of_replay (.startUp 1 .rr Nat.one_pos)
      [.newJob 1 0 5 0 0 default, .newJob 2 1 5 0 1 default, .newJob 3 2 5 0 2 default]
      (fun s => ((s.tScheme, s.waiting), decide (WellFormed s (.quantumExpired 0 3)),
        (schedulerQuantumExpired s 0 3).map fun x => x.1.cJob))
      (P := WellFormed) (v := ((.rr, [1, 2]), true, some [some 1])) (by decide)
    simp only [Prod.mk.injEq, decide_eq_true_eq] at hv
    obtain ⟨⟨hσ, hw⟩, hwf, hst⟩ := hv
    obtain ⟨⟨s', r⟩, hst, hc⟩ := Option.map_eq_some'.1 hst
    have hh : s'.Holds 0 1 := ⟨le_rfl, by rw [OnCore, show s'.cJob = _ from hc]; rfl⟩
    obtain ⟨-, -, hexp⟩ := dispatch_order hs (.inr (.inr (.inr hσ)))
    obtain ⟨m, hm, hq⟩ := hexp 0 3 s' r hwf hst
    exact ⟨s, s', r, hs, hσ, hw, hwf, hst, hh, m, hm, hq 1 hh⟩

end Libscheduler
