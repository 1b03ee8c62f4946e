import OSLabs.Libscheduler.Spec

/-!
# Job ownership and work conservation

The queue `jobs` and the core slots `c_job` share the job records. This file proves that every
handler, on every path, keeps them consistent: the queue holds each live job once and nothing
else, every busy slot points to a queued job that records the slot in `j_core`, and every
queued job is either waiting (`j_core = -1`) or recorded on the slot that points to it. A job is
live from the `malloc` of its arrival to the `free` of its completion, so the live jobs are
exactly those that arrived and were not finalized.

On top of ownership, the scheduler never leaves a core idle while a job waits.

## Main definitions

* `Libscheduler.Owned` — the ownership invariant.
* `Libscheduler.OwnedBut` — the same with one core's slot left out: the state a dispatch starts
  from.

## Main results

* `Libscheduler.ownership` — ownership holds in every reachable state.
* `Libscheduler.work_conserving` — an idle core means no job waits, in every reachable state.

## Implementation notes

`scheduler_quantum_expired` re-queues the expiring job as waiting while its slot still points to
it; only the dispatch that follows overwrites the slot. That intermediate state is not `Owned`,
which is why the dispatch is proved from `OwnedBut`.
-/

namespace Libscheduler

open Sched

/-- **The ownership invariant.** The queue holds each live job exactly once and nothing else;
a busy slot `c` points to a queued job whose `j_core` is `c`; a queued job waits or sits on the
slot its `j_core` names. Queued jobs also have distinct ids. -/
structure Owned (s : Sched) : Prop where
  nodup : s.jobs.Nodup
  mem_jobs : ∀ p, p ∈ s.jobs ↔ s.alloc p = true
  onCore : ∀ c p, s.OnCore c p → p ∈ s.jobs ∧ (s.mem p).jCore = c
  jCore : ∀ p ∈ s.jobs, (s.mem p).jCore = -1 ∨ ∃ c : Nat, (s.mem p).jCore = c ∧ s.OnCore c p
  ids : ∀ p ∈ s.jobs, ∀ q ∈ s.jobs, (s.mem p).jobId = (s.mem q).jobId → p = q

/-- Ownership with the slot of core `c` left out of account, and no queued job claiming `c`. -/
structure OwnedBut (s : Sched) (c : Nat) : Prop where
  nodup : s.jobs.Nodup
  mem_jobs : ∀ p, p ∈ s.jobs ↔ s.alloc p = true
  onCore : ∀ c' p, c' ≠ c → s.OnCore c' p → p ∈ s.jobs ∧ (s.mem p).jCore = c'
  jCore : ∀ p ∈ s.jobs, (s.mem p).jCore = -1 ∨ ∃ c' : Nat, c' ≠ c ∧ (s.mem p).jCore = c' ∧ s.OnCore c' p
  ids : ∀ p ∈ s.jobs, ∀ q ∈ s.jobs, (s.mem p).jobId = (s.mem q).jobId → p = q

namespace Owned

variable {s : Sched} (h : Owned s)
include h

theorem onCore_inj {c c' p : Nat} (hc : s.OnCore c p) (hc' : s.OnCore c' p) : c = c' := by
  have := (h.onCore c p hc).2; rw [(h.onCore c' p hc').2] at this; exact_mod_cast this.symm

theorem not_onCore_of_alloc {p : Nat} (ha : s.alloc p = false) (c : Nat) : ¬ s.OnCore c p :=
  fun hc => by simpa [ha] using (h.mem_jobs p).1 (h.onCore c p hc).1

/-- Ownership reads only the queue, the live flags, the slots, and the `j_core` and id of
each record. -/
theorem congr {s' : Sched} (hj : s'.jobs = s.jobs) (ha : s'.alloc = s.alloc) (hc : s'.cJob = s.cJob)
    (hm : ∀ p, (s'.mem p).jCore = (s.mem p).jCore ∧ (s'.mem p).jobId = (s.mem p).jobId) : Owned s' := by
  have ho : ∀ c p, s'.OnCore c p ↔ s.OnCore c p := by simp [OnCore, hc]
  refine ⟨hj ▸ h.nodup, fun p => hj ▸ ha ▸ h.mem_jobs p, fun c p hcp => ?_, fun p hp => ?_,
    fun p hp q hq hpq => ?_⟩
  · simpa [hj, (hm p).1] using h.onCore c p ((ho c p).1 hcp)
  · simpa [(hm p).1, ho] using h.jCore p (hj ▸ hp)
  · exact h.ids p (hj ▸ hp) q (hj ▸ hq) (by simpa [hm] using hpq)

/-- The clock advance keeps ownership. -/
theorem advance (t : Int) : Owned (incrementTimestep (s.setTime t)) :=
  h.congr rfl rfl rfl fun p => ⟨incrementTimestep_mem_field _ _ (tick_jCore _) p,
    incrementTimestep_mem_field _ _ (tick_jobId _) p⟩

end Owned

theorem owned_startUp (n : Nat) (scheme : Scheme) : Owned (schedulerStartUp n scheme) where
  nodup := List.nodup_nil
  mem_jobs _ := by simp [schedulerStartUp]
  onCore c p hc := by simp [OnCore, schedulerStartUp, List.getElem?_replicate] at hc
  jCore _ hp := by simp [schedulerStartUp] at hp
  ids _ hp := by simp [schedulerStartUp] at hp

/-- **The dispatch restores ownership.** From a state owned but for core `c`, the dispatch loop
either hands `c` the first waiting job, or finds none, which leaves an empty slot `c` empty. -/
theorem OwnedBut.dispatch {m s' : Sched} {c : Int} {r : Int} (h : OwnedBut m c.toNat)
    (hd : dispatchFirstWaiting m c = some (s', r)) (hidle : m.waiting ≠ [] ∨ m.cJob[c.toNat]? = some none) :
    Owned s' := by
  rcases dispatchFirstWaiting_cases hd with ⟨hw, rfl, -⟩ | ⟨q, rest, hw, h0, hlt, rfl, -⟩
  · have hc := hidle.resolve_left (not_not.2 hw)
    refine ⟨h.nodup, h.mem_jobs, fun c' p hcp => ?_, fun p hp => ?_, h.ids⟩
    · exact h.onCore c' p (fun he => by subst he; simp [OnCore, hc] at hcp) hcp
    · exact (h.jCore p hp).imp_right fun ⟨c', _, hc', hon⟩ => ⟨c', hc', hon⟩
  · have hq : q ∈ m.jobs ∧ (m.mem q).jCore = -1 := by
      simpa [Sched.waiting] using (hw ▸ List.mem_cons_self q rest : q ∈ m.waiting)
    have hcq : ∀ c', ¬ (c' ≠ c.toNat ∧ m.OnCore c' q) := fun c' ⟨hne, hon⟩ => by
      have := (h.onCore c' q hne hon).2; omega
    refine ⟨h.nodup, h.mem_jobs, fun c' p hcp => ?_, fun p hp => ?_, fun p hp p' hp' => ?_⟩
    · rw [onCore_setCore] at hcp
      split_ifs at hcp with he
      · simp only [Option.some.injEq] at hcp
        obtain ⟨-, rfl⟩ := hcp; subst he; simp [Function.update_apply, hq.1, h0]
      · have := h.onCore c' p (Ne.symm he) hcp
        have hpq : p ≠ q := by rintro rfl; exact hcq c' ⟨Ne.symm he, hcp⟩
        simp [Function.update_apply, hpq, this]
    · by_cases hpq : p = q
      · subst hpq
        refine .inr ⟨c.toNat, by simp [Function.update_apply, h0], ?_⟩
        simp [onCore_setCore, hlt]
      · rcases h.jCore p hp with h1 | ⟨c', hne, h1, hon⟩
        · exact .inl (by simp [Function.update_apply, hpq, h1])
        · refine .inr ⟨c', by simp [Function.update_apply, hpq, h1], ?_⟩
          rw [onCore_setCore, if_neg (Ne.symm hne)]
          exact hon
    · have hid : ∀ x, (((m.setJob q { resume m.cTime (m.mem q) with jCore := c }).setCore c.toNat
          (some q)).mem x).jobId = (m.mem x).jobId := by
        intro x; by_cases hx : x = q <;> simp [Function.update_apply, hx]
      intro hpp
      exact h.ids p hp p' hp' (by rwa [hid, hid] at hpp)

/-! ## The handlers -/

/-- **Admission of a new job.** Offering the fresh live job `a`, with a fresh id, to a state whose
slots and records account for `a` as if it were already queued, gives an owned state. -/
theorem owned_offer_admit {s y : Sched} {a : Nat} {n : Int} (h : Owned s) (hna : a ∉ s.jobs)
    (hn : ∀ q ∈ s.jobs, (s.mem q).jobId ≠ n) (hj : y.jobs = s.jobs)
    (ha : y.alloc = Function.update s.alloc a true)
    (hid : ∀ q, (y.mem q).jobId = if q = a then n else (s.mem q).jobId)
    (honc : ∀ c q, y.OnCore c q → (q = a ∨ q ∈ s.jobs) ∧ (y.mem q).jCore = c)
    (hjc : ∀ q, q = a ∨ q ∈ s.jobs → (y.mem q).jCore = -1 ∨ ∃ c : Nat, (y.mem q).jCore = c ∧ y.OnCore c q) :
    Owned (y.offer a) := by
  have hmem : ∀ q, q ∈ (y.offer a).jobs ↔ q = a ∨ q ∈ s.jobs := by simp [hj]
  refine ⟨?_, fun q => ?_, fun c q hc => ?_, fun q hq => hjc q ((hmem q).1 hq), fun p hp q hq => ?_⟩
  · exact (Libpriqueue.offer_perm _ _ _).nodup_iff.2 (List.nodup_cons.2 ⟨hj ▸ hna, hj ▸ h.nodup⟩)
  · rw [hmem, offer_alloc, ha, Function.update_apply]
    by_cases hqa : q = a <;> simp [hqa, h.mem_jobs]
  · exact ⟨(hmem q).2 (honc c q hc).1, (honc c q hc).2⟩
  · have hqa : ∀ x ∈ s.jobs, x ≠ a := fun x hx e => hna (e ▸ hx)
    rw [hmem] at hp hq
    simp only [offer_mem, hid]
    rcases hp with rfl | hp <;> rcases hq with rfl | hq
    · exact fun _ => rfl
    · rw [if_pos rfl, if_neg (hqa q hq)]; exact fun e => absurd e.symm (hn q hq)
    · rw [if_pos rfl, if_neg (hqa p hp)]; exact fun e => absurd e (hn p hp)
    · rw [if_neg (hqa p hp), if_neg (hqa q hq)]; exact h.ids p hp q hq

/-- `scheduler_new_job` keeps ownership: on every branch the new job is queued, and the slot it
takes, if any, is the one its record names. -/
theorem Owned.newJob {s s' : Sched} {n t rt pr ret : Int} {a : Nat} {blk : Job} (h : Owned s)
    (hwf : WellFormed s (.newJob n t rt pr a blk)) (hs : schedulerNewJob s n t rt pr a blk = some (s', ret)) :
    Owned s' := by
  obtain ⟨-, -, ha, hfresh⟩ := hwf
  have hna : a ∉ s.jobs := fun hm => by simp [(h.mem_jobs a).1 hm] at ha
  have hca : ∀ c, ¬ s.OnCore c a := h.not_onCore_of_alloc ha
  have hn : ∀ q ∈ s.jobs, (s.mem q).jobId ≠ n := fun q hq => (hfresh q hq).1
  have hqa : ∀ q, q = a ∨ q ∈ s.jobs → q ≠ a → q ∈ s.jobs := fun q hq hne => hq.resolve_left hne
  rcases schedulerNewJob_cases hs with ⟨i, hi, -, -, rfl⟩ | ⟨-, v, -, -, hv, rfl⟩ | ⟨-, -, -, rfl⟩
  · have hil : i < s.cJob.length := (List.getElem?_eq_some_iff.1 hi).1
    refine owned_offer_admit h hna hn rfl rfl (fun q => ?_) (fun c q hc => ?_) (fun q hq => ?_)
    · by_cases hq : q = a <;> simp [startNew_mem, Function.update_apply, hq, arrivalRecord]
    · rw [onCore_setCore] at hc
      split_ifs at hc with he
      · simp only [Option.some.injEq] at hc
        obtain ⟨-, rfl⟩ := hc; subst he; simp [startNew_mem]
      · replace hc : s.OnCore c q := by simpa using hc
        have := h.onCore c q hc
        have hq : q ≠ a := fun e => hca c (e ▸ hc)
        exact ⟨.inr this.1, by simp [startNew_mem, Function.update_apply, hq, this.2]⟩
    · by_cases hqa' : q = a
      · subst hqa'; exact .inr ⟨i, by simp [startNew_mem], by simp [onCore_setCore, hil]⟩
      · rcases h.jCore q (hqa q hq hqa') with h1 | ⟨c, h1, hon⟩
        · exact .inl (by simp [startNew_mem, Function.update_apply, hqa', h1])
        · refine .inr ⟨c, by simp [startNew_mem, Function.update_apply, hqa', h1], ?_⟩
          rw [onCore_setCore, if_neg (fun e => by subst e; simp [OnCore, hi] at hon)]
          simpa using hon
  · obtain ⟨h0, hvc⟩ := hv
    have hvj := h.onCore _ v hvc
    have hva : v ≠ a := fun e => hca _ (e ▸ hvc)
    have hil : ret.toNat < s.cJob.length := (List.getElem?_eq_some_iff.1 hvc).1
    refine owned_offer_admit h hna hn rfl rfl (fun q => ?_) (fun c q hc => ?_) (fun q hq => ?_)
    · by_cases hq : q = a
      · subst hq; simp [startNew_mem, Function.update_apply, hva.symm, arrivalRecord]
      · by_cases hqv : q = v <;> simp [startNew_mem, Function.update_apply, hq, hqv, hva]
    · rw [onCore_setCore] at hc
      split_ifs at hc with he
      · simp only [Option.some.injEq] at hc
        obtain ⟨-, rfl⟩ := hc; subst he; simp [startNew_mem, Function.update_apply, hva.symm, h0]
      · replace hc : s.OnCore c q := by simpa using hc
        have := h.onCore c q hc
        have hq : q ≠ a := fun e => hca c (e ▸ hc)
        have hqv : q ≠ v := by rintro rfl; exact he (h.onCore_inj hvc hc)
        exact ⟨.inr this.1, by simp [startNew_mem, Function.update_apply, hq, hqv, this.2]⟩
    · by_cases hqa' : q = a
      · subst hqa'
        exact .inr ⟨ret.toNat, by simp [startNew_mem, Function.update_apply, hva.symm, h0],
          by simp [onCore_setCore, hil]⟩
      · by_cases hqv : q = v
        · subst hqv; exact .inl (by simp [startNew_mem, Function.update_apply, hqa'])
        · rcases h.jCore q (hqa q hq hqa') with h1 | ⟨c, h1, hon⟩
          · exact .inl (by simp [startNew_mem, Function.update_apply, hqa', hqv, h1])
          · refine .inr ⟨c, by simp [startNew_mem, Function.update_apply, hqa', hqv, h1], ?_⟩
            rw [onCore_setCore, if_neg (fun e => hqv (by subst e; exact hon.unique hvc))]
            simpa using hon
  · refine owned_offer_admit h hna hn rfl rfl (fun q => ?_) (fun c q hc => ?_) (fun q hq => ?_)
    · by_cases hq : q = a <;> simp [Function.update_apply, hq, arrivalRecord]
    · have := h.onCore c q hc
      have hq : q ≠ a := fun e => hca c (e ▸ hc)
      exact ⟨.inr this.1, by simp [Function.update_apply, hq, this.2]⟩
    · by_cases hqa' : q = a
      · subst hqa'; exact .inl (by simp [arrivalRecord])
      · simpa [Function.update_apply, hqa'] using h.jCore q (hqa q hq hqa')

/-- `m` is `s` with the job `p` of core `c` retired: out of the queue, freed, its slot emptied,
and no record's core or id changed. -/
structure Retired (s m : Sched) (c p : Nat) : Prop where
  jobs : m.jobs = s.jobs.erase p
  alloc : m.alloc = Function.update s.alloc p false
  cJob : m.cJob = s.cJob.set c none
  mem : ∀ q, (m.mem q).jCore = (s.mem q).jCore ∧ (m.mem q).jobId = (s.mem q).jobId

/-- `m` is `s` with the job `p` re-queued as waiting, while its slot still points to it. -/
structure Requeued (s m : Sched) (p : Nat) : Prop where
  jobs : m.jobs.Perm s.jobs
  alloc : m.alloc = s.alloc
  cJob : m.cJob = s.cJob
  mem : ∀ q, (m.mem q).jCore = (if q = p then -1 else (s.mem q).jCore) ∧ (m.mem q).jobId = (s.mem q).jobId

/-- **Retiring a job.** Retiring the job of core `c` leaves a state owned but for `c`. -/
theorem Owned.retire {s m : Sched} {c p : Nat} (h : Owned s) (hc : s.OnCore c p) (hr : Retired s m c p) :
    OwnedBut m c := by
  have hmem : ∀ q, q ∈ m.jobs ↔ q ≠ p ∧ q ∈ s.jobs := fun q => hr.jobs ▸ h.nodup.mem_erase_iff
  have hon : ∀ c' q, c' ≠ c → (m.OnCore c' q ↔ s.OnCore c' q) := fun c' q hne => by
    simp [OnCore, hr.cJob, List.getElem?_set, Ne.symm hne]
  refine ⟨hr.jobs ▸ h.nodup.erase p, fun q => ?_, fun c' q hne hq => ?_, fun q hq => ?_, fun q hq q' hq' => ?_⟩
  · rw [hmem, hr.alloc, Function.update_apply]
    by_cases hqp : q = p <;> simp [hqp, h.mem_jobs]
  · have := h.onCore c' q ((hon c' q hne).1 hq)
    have hqp : q ≠ p := by rintro rfl; exact hne (h.onCore_inj ((hon c' q hne).1 hq) hc)
    exact ⟨(hmem q).2 ⟨hqp, this.1⟩, (hr.mem q).1 ▸ this.2⟩
  · obtain ⟨hqp, hq⟩ := (hmem q).1 hq
    rcases h.jCore q hq with h1 | ⟨c', h1, hc'⟩
    · exact .inl ((hr.mem q).1 ▸ h1)
    · have hne : c' ≠ c := by rintro rfl; exact hqp (hc'.unique hc)
      exact .inr ⟨c', hne, (hr.mem q).1 ▸ h1, (hon c' q hne).2 hc'⟩
  · rw [(hr.mem q).2, (hr.mem q').2]
    exact h.ids q ((hmem q).1 hq).2 q' ((hmem q').1 hq').2

/-- **Re-queueing the job of a core.** Re-queueing the job of core `c` as waiting leaves a state
owned but for `c`. -/
theorem Owned.requeue {s m : Sched} {c p : Nat} (h : Owned s) (hc : s.OnCore c p) (hr : Requeued s m p) :
    OwnedBut m c := by
  have hon : ∀ c' q, m.OnCore c' q ↔ s.OnCore c' q := by simp [OnCore, hr.cJob]
  refine ⟨hr.jobs.nodup_iff.2 h.nodup, fun q => by rw [hr.jobs.mem_iff, hr.alloc]; exact h.mem_jobs q,
    fun c' q hne hq => ?_, fun q hq => ?_, fun q hq q' hq' => ?_⟩
  · have := h.onCore c' q ((hon c' q).1 hq)
    have hqp : q ≠ p := by rintro rfl; exact hne (h.onCore_inj ((hon c' q).1 hq) hc)
    exact ⟨hr.jobs.mem_iff.2 this.1, by rw [(hr.mem q).1, if_neg hqp, this.2]⟩
  · by_cases hqp : q = p
    · exact .inl (by rw [(hr.mem q).1, if_pos hqp])
    · rw [(hr.mem q).1, if_neg hqp]
      rcases h.jCore q (hr.jobs.mem_iff.1 hq) with h1 | ⟨c', h1, hc'⟩
      · exact .inl h1
      · have hne : c' ≠ c := by rintro rfl; exact hqp (hc'.unique hc)
        exact .inr ⟨c', hne, h1, (hon c' q).2 hc'⟩
  · rw [(hr.mem q).2, (hr.mem q').2]
    exact h.ids q (hr.jobs.mem_iff.1 hq) q' (hr.jobs.mem_iff.1 hq')

/-- **`scheduler_job_finished` under the contract**: the id it is given names the job `p` of core
`c`, which the search finds at its position `i` in the queue. -/
theorem Owned.jobFinished_spec {s s' : Sched} {c n t r : Int} (h : Owned s)
    (hwf : WellFormed s (.jobFinished c n t)) (hs : schedulerJobFinished s c n t = some (s', r)) :
    ∃ p i, ∃ hi : i < s.jobs.length, s.jobs[i] = p ∧ s.Holds c p ∧ (s.mem p).jobId = n ∧ s.cTime ≤ t ∧
      ∃ m, m = ((((incrementTimestep (s.setTime t)).removeAt i).finish p t).free p).setCore c.toNat none ∧
        finishCore s c n t = some m ∧ dispatchFirstWaiting m c = some (s', r) := by
  obtain ⟨ht, p, hcp, hid⟩ := hwf
  have hp := (h.onCore _ p hcp.2).1
  obtain ⟨i, hi, m, hget, -, -, hm, hf, hd⟩ := schedulerJobFinished_cases hs hp
    (fun q hq => ⟨fun e => h.ids q hq p hp (e.trans hid.symm), fun e => e ▸ hid⟩)
  exact ⟨p, i, hi, hget, hcp, hid, ht, m, hm, hf, hd⟩

/-- **`scheduler_quantum_expired` under the contract**: after the clock advance, the job `p` of
core `c`, at position `i` of the queue, is re-queued, or finished when it has no time left, and
the dispatch runs. -/
theorem Owned.quantumExpired_spec {s s' : Sched} {c t r : Int} (h : Owned s)
    (hwf : WellFormed s (.quantumExpired c t)) (hs : schedulerQuantumExpired s c t = some (s', r)) :
    ∃ p i, ∃ hi : i < s.jobs.length, s.jobs[i] = p ∧ s.Holds c p ∧ s.tScheme = .rr ∧ s.cTime ≤ t ∧
      ∃ m, expireCore (incrementTimestep (s.setTime t)) c = some m ∧ dispatchFirstWaiting m c = some (s', r) ∧
      ((((incrementTimestep (s.setTime t)).mem p).tRemaining ≠ 0 ∧
        m = (((incrementTimestep (s.setTime t)).removeAt i).setJob p
          { (incrementTimestep (s.setTime t)).mem p with jCore := -1, tUpdated := t }).offer p) ∨
       (((incrementTimestep (s.setTime t)).mem p).tRemaining = 0 ∧
        m = ((((incrementTimestep (s.setTime t)).removeAt i).finish p t).setCore c.toNat none).free p)) := by
  obtain ⟨hrr, ht, p, hcp⟩ := hwf
  have h₁ := h.advance t
  unfold schedulerQuantumExpired at hs
  simp only [Option.bind_eq_bind, Option.bind_eq_some] at hs
  obtain ⟨m, he, hd⟩ := hs
  have hp := (h₁.onCore _ p hcp.2).1
  obtain ⟨i, hi, hget, hm⟩ := expireCore_cases he hcp hp (fun q hq e => h₁.ids q hq p hp e)
  exact ⟨p, i, hi, hget, hcp, hrr, ht, m, he, hd, hm⟩

/-- **`scheduler_job_finished` in ownership terms.** Under the contract, it retires the job `p`
that core `c` holds and runs the dispatch on what is left. -/
theorem Owned.jobFinished_cases {s s' : Sched} {c n t r : Int} (h : Owned s)
    (hwf : WellFormed s (.jobFinished c n t)) (hs : schedulerJobFinished s c n t = some (s', r)) :
    ∃ p m, s.Holds c p ∧ (s.mem p).jobId = n ∧ Retired s m c.toNat p ∧
      dispatchFirstWaiting m c = some (s', r) := by
  obtain ⟨p, i, hi, hget, hcp, hid, -, m, rfl, -, hd⟩ := h.jobFinished_spec hwf hs
  refine ⟨p, _, hcp, hid, ?_, hd⟩
  refine ⟨?_, rfl, rfl, fun q => ?_⟩
  · simp [← hget, h.nodup.erase_getElem]
  · by_cases hq : q = p <;> simp [Function.update_apply, hq]

/-- **`scheduler_quantum_expired` in ownership terms.** Under the contract, it re-queues the job
`p` of core `c`, or retires it when it has no time left, and runs the dispatch. -/
theorem Owned.quantumExpired_cases {s s' : Sched} {c t r : Int} (h : Owned s)
    (hwf : WellFormed s (.quantumExpired c t)) (hs : schedulerQuantumExpired s c t = some (s', r)) :
    ∃ p m, s.Holds c p ∧ (Requeued s m p ∨ Retired s m c.toNat p) ∧
      dispatchFirstWaiting m c = some (s', r) := by
  obtain ⟨p, i, hi, hget, hcp, -, -, m, -, hd, ⟨-, rfl⟩ | ⟨-, rfl⟩⟩ := h.quantumExpired_spec hwf hs
  · refine ⟨p, _, hcp, ?_, hd⟩
    refine .inl ⟨(Libpriqueue.offer_perm _ p _).trans ?_, rfl, rfl, fun q => ?_⟩
    · rw [setJob_jobs, removeAt_jobs, incrementTimestep_jobs, setTime_jobs, ← h.nodup.erase_getElem i hi, hget]
      exact (List.perm_cons_erase (hget ▸ List.getElem_mem hi)).symm
    · by_cases hq : q = p <;> simp [Function.update_apply, hq]
  · refine ⟨p, _, hcp, ?_, hd⟩
    refine .inr ⟨?_, rfl, rfl, fun q => ?_⟩
    · simp [← hget, h.nodup.erase_getElem]
    · by_cases hq : q = p <;> simp [Function.update_apply, hq]

/-- The handlers never change the discipline. -/
theorem Owned.step_tScheme {s s' : Sched} {e : Event} {r : Int} (h : Owned s) (hwf : WellFormed s e)
    (hs : s.step e = some (s', r)) : s'.tScheme = s.tScheme := by
  cases e with
  | newJob =>
    rcases schedulerNewJob_cases hs with ⟨_, _, _, _, rfl⟩ | ⟨_, _, _, _, _, rfl⟩ | ⟨_, _, _, rfl⟩ <;> rfl
  | jobFinished =>
    obtain ⟨_, _, _, -, -, -, -, m, rfl, -, hd⟩ := h.jobFinished_spec hwf hs
    exact (dispatchFirstWaiting_frame hd).2.2.1
  | quantumExpired =>
    obtain ⟨_, _, _, -, -, -, -, m, -, hd, ⟨-, rfl⟩ | ⟨-, rfl⟩⟩ := h.quantumExpired_spec hwf hs <;>
      exact (dispatchFirstWaiting_frame hd).2.2.1

/-- `scheduler_job_finished` keeps ownership. -/
theorem Owned.jobFinished {s s' : Sched} {c n t r : Int} (h : Owned s)
    (hwf : WellFormed s (.jobFinished c n t)) (hs : schedulerJobFinished s c n t = some (s', r)) :
    Owned s' := by
  obtain ⟨p, m, hcp, -, hr, hd⟩ := h.jobFinished_cases hwf hs
  exact OwnedBut.dispatch (h.retire hcp.2 hr) hd
    (.inr (by simp [hr.cJob, List.getElem?_set, (List.getElem?_eq_some_iff.1 hcp.2).1]))

/-- `scheduler_quantum_expired` keeps ownership, through the transient state where the re-queued
job still has its slot. -/
theorem Owned.quantumExpired {s s' : Sched} {c t r : Int} (h : Owned s)
    (hwf : WellFormed s (.quantumExpired c t)) (hs : schedulerQuantumExpired s c t = some (s', r)) :
    Owned s' := by
  obtain ⟨p, m, hcp, hr | hr, hd⟩ := h.quantumExpired_cases hwf hs
  · refine OwnedBut.dispatch (h.requeue hcp.2 hr) hd (.inl ?_)
    rw [← List.length_pos, List.length_pos_iff_exists_mem]
    exact ⟨p, mem_waiting.2 ⟨hr.jobs.mem_iff.2 (h.onCore _ p hcp.2).1, by simp [(hr.mem p).1]⟩⟩
  · exact OwnedBut.dispatch (h.retire hcp.2 hr) hd
      (.inr (by simp [hr.cJob, List.getElem?_set, (List.getElem?_eq_some_iff.1 hcp.2).1]))

/-- Every handler keeps ownership. -/
theorem Owned.step {s s' : Sched} {e : Event} {r : Int} (h : Owned s) (hwf : WellFormed s e)
    (hs : s.step e = some (s', r)) : Owned s' := by
  cases e with
  | newJob => exact h.newJob hwf hs
  | jobFinished => exact h.jobFinished hwf hs
  | quantumExpired => exact h.quantumExpired hwf hs

/-- Ownership holds in every reachable state. -/
theorem Reachable.owned {s : Sched} (hs : Reachable WellFormed s) : Owned s := by
  induction hs with
  | startUp n scheme _ => exact owned_startUp n scheme
  | step _ hwf hstep ih => exact ih.step hwf hstep

/-- **Work conservation**: while some core is idle, no queued job waits. -/
def Conserving (s : Sched) : Prop := none ∈ s.cJob → s.waiting = []

theorem conserving_startUp (n : Nat) (scheme : Scheme) : Conserving (schedulerStartUp n scheme) :=
  fun _ => rfl

/-- The dispatch leaves a state where an idle core means no waiting job, if before it every other
idle core meant at most one waiting job: the one the dispatch then takes. It returns `-1` only
when nothing waits, or when the job it hands the core has id `-1`. -/
theorem dispatch_conserving {m s' : Sched} {c r : Int} (hnd : m.jobs.Nodup)
    (hd : dispatchFirstWaiting m c = some (s', r))
    (hm : ∀ c' : Nat, c' ≠ c.toNat → m.cJob[c']? = some none → m.waiting.length ≤ 1) :
    Conserving s' ∧ (r = -1 → s'.waiting = [] ∨ ∃ q, s'.Holds c q ∧ (s'.mem q).jobId = -1) := by
  rcases dispatchFirstWaiting_cases hd with ⟨hw, rfl, rfl⟩ | ⟨q, rest, hw, h0, hlt, rfl, rfl⟩
  · exact ⟨fun _ => hw, fun _ => .inl hw⟩
  · refine ⟨fun hn => ?_, fun hr => .inr ⟨q, ⟨h0, by simp [onCore_setCore, hlt]⟩, by simpa using hr⟩⟩
    obtain ⟨c', hc'⟩ := List.mem_iff_getElem?.1 hn
    have hne : c' ≠ c.toNat := by rintro rfl; simp [hlt] at hc'
    have := hm c' hne (by simpa [List.getElem?_set, Ne.symm hne] using hc')
    rw [hw, List.length_cons] at this
    rw [waiting_dispatch hnd hw h0, List.length_eq_zero.1 (by omega : rest.length = 0)]

namespace Retired

variable {s m : Sched} {c p : Nat} (hr : Retired s m c p)
include hr

theorem idle {c' : Nat} (hne : c' ≠ c) (h : m.cJob[c']? = some none) : none ∈ s.cJob :=
  List.getElem?_mem (by simpa [hr.cJob, List.getElem?_set, Ne.symm hne] using h)

theorem waiting_eq_nil (hw : s.waiting = []) : m.waiting = [] :=
  waiting_eq_nil_iff.2 fun x hx => (hr.mem x).1 ▸
    waiting_eq_nil_iff.1 hw x (List.mem_of_mem_erase (hr.jobs ▸ hx))

end Retired

namespace Requeued

variable {s m : Sched} {p : Nat} (hr : Requeued s m p)
include hr

theorem idle {c' : Nat} (h : m.cJob[c']? = some none) : none ∈ s.cJob :=
  List.getElem?_mem (hr.cJob ▸ h)

/-- Re-queueing onto a state with nothing waiting leaves only the re-queued job waiting. -/
theorem waiting_length (hnd : s.jobs.Nodup) (hw : s.waiting = []) : m.waiting.length ≤ 1 := by
  have hsub : m.waiting ⊆ [p] := fun x hx => by
    obtain ⟨hxm, hx⟩ := mem_waiting.1 hx
    by_contra hxp
    rw [(hr.mem x).1, if_neg (by simpa using hxp)] at hx
    exact waiting_eq_nil_iff.1 hw x (hr.jobs.mem_iff.1 hxm) hx
  exact (List.subperm_of_subset ((hr.jobs.nodup_iff.2 hnd).filter _) hsub).length_le

end Requeued

/-- `scheduler_new_job` keeps work conservation, and returns `-1` only when every core was busy. -/
theorem Conserving.newJob {s s' : Sched} {n t rt pr ret : Int} {a : Nat} {blk : Job} (h : Owned s)
    (hc : Conserving s) (hwf : WellFormed s (.newJob n t rt pr a blk))
    (hs : schedulerNewJob s n t rt pr a blk = some (s', ret)) :
    Conserving s' ∧ (ret = -1 → none ∉ s.cJob) := by
  obtain ⟨-, -, ha, -⟩ := hwf
  have hna : a ∉ s.jobs := fun hm => by simp [(h.mem_jobs a).1 hm] at ha
  rcases schedulerNewJob_cases hs with ⟨i, hi, -, rfl, rfl⟩ | ⟨hn, v, -, hr, -, rfl⟩ | ⟨hn, -, rfl, rfl⟩
  · refine ⟨fun _ => waiting_eq_nil_iff.2 fun x hx => ?_, fun h => by omega⟩
    have hw := waiting_eq_nil_iff.1 (hc (List.getElem?_mem hi))
    rcases (Libpriqueue.mem_offer _ _).1 hx with rfl | hx
    · simp [startNew_mem]
    · have hxa : x ≠ a := fun e => hna (e ▸ hx)
      simpa [startNew_mem, Function.update_apply, hxa] using hw x hx
  · exact ⟨fun h' => absurd ((List.mem_or_eq_of_mem_set h').resolve_right (by simp)) (by simpa using hn),
      fun h => absurd h hr⟩
  · exact ⟨fun h' => absurd h' (by simpa using hn), fun _ => hn⟩

/-- `scheduler_job_finished` keeps work conservation, and returns `-1` only when nothing is left
waiting or the job it dispatches has id `-1`. -/
theorem Conserving.jobFinished {s s' : Sched} {c n t r : Int} (h : Owned s) (hc : Conserving s)
    (hwf : WellFormed s (.jobFinished c n t)) (hs : schedulerJobFinished s c n t = some (s', r)) :
    Conserving s' ∧ (r = -1 → s'.waiting = [] ∨ ∃ q, s'.Holds c q ∧ (s'.mem q).jobId = -1) := by
  obtain ⟨p, m, -, -, hr, hd⟩ := h.jobFinished_cases hwf hs
  refine dispatch_conserving (hr.jobs ▸ h.nodup.erase p) hd fun c' hne hc' => ?_
  rw [hr.waiting_eq_nil (hc (hr.idle hne hc'))]
  exact Nat.zero_le 1

/-- `scheduler_quantum_expired` keeps work conservation, and returns `-1` only when nothing is
left waiting or the job it dispatches has id `-1`. -/
theorem Conserving.quantumExpired {s s' : Sched} {c t r : Int} (h : Owned s) (hc : Conserving s)
    (hwf : WellFormed s (.quantumExpired c t)) (hs : schedulerQuantumExpired s c t = some (s', r)) :
    Conserving s' ∧ (r = -1 → s'.waiting = [] ∨ ∃ q, s'.Holds c q ∧ (s'.mem q).jobId = -1) := by
  obtain ⟨p, m, -, hr | hr, hd⟩ := h.quantumExpired_cases hwf hs
  · exact dispatch_conserving (hr.jobs.nodup_iff.2 h.nodup) hd fun c' _ hc' =>
      hr.waiting_length h.nodup (hc (hr.idle hc'))
  · refine dispatch_conserving (hr.jobs ▸ h.nodup.erase p) hd fun c' hne hc' => ?_
    rw [hr.waiting_eq_nil (hc (hr.idle hne hc'))]
    exact Nat.zero_le 1

/-- Every handler keeps work conservation. -/
theorem Conserving.step {s s' : Sched} {e : Event} {r : Int} (h : Owned s) (hc : Conserving s)
    (hwf : WellFormed s e) (hs : s.step e = some (s', r)) : Conserving s' := by
  cases e with
  | newJob => exact (hc.newJob h hwf hs).1
  | jobFinished => exact (hc.jobFinished h hwf hs).1
  | quantumExpired => exact (hc.quantumExpired h hwf hs).1

/-- Work conservation holds in every reachable state. -/
theorem Reachable.conserving {s : Sched} (hs : Reachable WellFormed s) : Conserving s := by
  induction hs with
  | startUp n scheme _ => exact conserving_startUp n scheme
  | step hr hwf hstep ih => exact ih.step hr.owned hwf hstep

/-- **Work conservation.** In every reachable state an idle core means that no job waits. So
`scheduler_new_job` returns `-1` only when every core was busy, and `scheduler_job_finished` and
`scheduler_quantum_expired` return `-1` only when no job is left waiting, or when the job they
hand the core has id `-1`: the value they return is the job's id, and `-1` also means idle. -/
theorem work_conserving {s : Sched} (hs : Reachable WellFormed s) :
    Conserving s ∧
    (∀ n t rt pr a blk s', WellFormed s (.newJob n t rt pr a blk) →
      schedulerNewJob s n t rt pr a blk = some (s', -1) → none ∉ s.cJob) ∧
    (∀ c n t s', WellFormed s (.jobFinished c n t) → schedulerJobFinished s c n t = some (s', -1) →
      s'.waiting = [] ∨ ∃ q, s'.Holds c q ∧ (s'.mem q).jobId = -1) ∧
    (∀ c t s', WellFormed s (.quantumExpired c t) → schedulerQuantumExpired s c t = some (s', -1) →
      s'.waiting = [] ∨ ∃ q, s'.Holds c q ∧ (s'.mem q).jobId = -1) :=
  ⟨hs.conserving, fun _ _ _ _ _ _ _ hwf h => (hs.conserving.newJob hs.owned hwf h).2 rfl,
    fun _ _ _ _ hwf h => (hs.conserving.jobFinished hs.owned hwf h).2 rfl,
    fun _ _ _ hwf h => (hs.conserving.quantumExpired hs.owned hwf h).2 rfl⟩

/-- On two RR cores with one job, of run length `2`: a core is idle and nothing waits, and both
the completion of the job and its quantum expiring at time `2` leave its core idle. On one FCFS
core with two jobs, a third arrival gets `-1` and every core is busy. -/
theorem work_conserving_runs :
    (∃ s, Reachable WellFormed s ∧ none ∈ s.cJob ∧ s.waiting = [] ∧
      WellFormed s (.jobFinished 0 1 2) ∧ WellFormed s (.quantumExpired 0 2) ∧
      ∃ s₁ s₂, schedulerJobFinished s 0 1 2 = some (s₁, -1) ∧
        schedulerQuantumExpired s 0 2 = some (s₂, -1) ∧
        (s₁.waiting = [] ∨ ∃ q, s₁.Holds 0 q ∧ (s₁.mem q).jobId = -1) ∧
        (s₂.waiting = [] ∨ ∃ q, s₂.Holds 0 q ∧ (s₂.mem q).jobId = -1)) ∧
    ∃ s s', Reachable WellFormed s ∧ WellFormed s (.newJob 3 2 5 0 2 default) ∧
      schedulerNewJob s 3 2 5 0 2 default = some (s', -1) ∧ none ∉ s.cJob := by
  constructor
  · obtain ⟨s, hs, hv⟩ := exists_of_replay (.startUp 2 .rr (by decide)) [.newJob 1 0 2 0 0 default]
      (fun s => (decide (none ∈ s.cJob), decide (WellFormed s (.jobFinished 0 1 2)),
        decide (WellFormed s (.quantumExpired 0 2)), (schedulerJobFinished s 0 1 2).map Prod.snd,
        (schedulerQuantumExpired s 0 2).map Prod.snd))
      (P := WellFormed) (v := (true, true, true, some (-1), some (-1))) (by decide)
    simp only [Prod.mk.injEq, decide_eq_true_eq] at hv
    obtain ⟨hidle, hf, hq, h₁, h₂⟩ := hv
    obtain ⟨⟨s₁, _⟩, e₁, rfl⟩ := Option.map_eq_some'.1 h₁
    obtain ⟨⟨s₂, _⟩, e₂, rfl⟩ := Option.map_eq_some'.1 h₂
    have hc := work_conserving hs
    exact ⟨s, hs, hidle, hc.1 hidle, hf, hq, s₁, s₂, e₁, e₂, hc.2.2.1 _ _ _ _ hf e₁,
      hc.2.2.2 _ _ _ hq e₂⟩
  · obtain ⟨s, s', hs, hwf, hst, -⟩ := exists_of_replay_step (.startUp 1 .fcfs Nat.one_pos)
      [.newJob 1 0 5 0 0 default, .newJob 2 1 5 0 1 default] (.newJob 3 2 5 0 2 default)
      (fun _ => ()) (P := WellFormed) (r := -1) (v := ()) (by decide)
    exact ⟨s, s', hs, hwf, hst, (work_conserving hs).2.1 _ _ _ _ _ _ _ hwf hst⟩

/-- A job with id `-1` makes `scheduler_job_finished` return `-1` while another job still waits:
on one FCFS core, jobs `0`, `-1` and `7` arrive at times `0`, `1`, `2`, and job `0` finishes at
time `5`. -/
theorem jobFinished_returns_minus_one_while_waiting : ∃ s s', Reachable WellFormed s ∧
    WellFormed s (.jobFinished 0 0 5) ∧ schedulerJobFinished s 0 0 5 = some (s', -1) ∧ s'.waiting ≠ [] := by
  obtain ⟨s, s', hs, hwf, hst, hw⟩ := exists_of_replay_step (.startUp 1 .fcfs Nat.one_pos)
    [.newJob 0 0 5 0 0 default, .newJob (-1) 1 5 0 1 default, .newJob 7 2 5 0 2 default]
    (.jobFinished 0 0 5) Sched.waiting (P := WellFormed) (r := -1) (v := [2]) (by decide)
  exact ⟨s, s', hs, hwf, hst, by simp [hw]⟩

end Libscheduler
