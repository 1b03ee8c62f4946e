import OSLabs.Libscheduler.Order

/-!
# Preemptive disciplines: PPRI and PSJF

Under PPRI and PSJF `scheduler_new_job` scans the cores for a job to evict (`ppriScan`,
`psjfScan`); the evicted job goes back to waiting at the place it already has in the queue.

Under PPRI a job's priority never changes, so the queue stays sorted by priority value and then
by arrival. The scan evicts a running job of greatest priority value, and the dispatch of
`scheduler_job_finished` takes the first waiting job; together they keep every running job at
least as urgent as every waiting one.

Under PSJF the queue is sorted by remaining time at the moment each job was offered. The
remaining times of running jobs shrink afterwards and an evicted job is not offered again, so
the first waiting job need not be the shortest: `psjf_dispatches_longer_job` is such a run.

## Main definitions

* `PriorityContract`, `PsjfContract` — the calls a PPRI or a PSJF run is made of.
* `PriorityOrder` — the PPRI queue order: priority value, then arrival.
* `PpriInv` — the PPRI queue is in that order and no waiting job is more urgent than a
  running one.

## Main results

* `ppriScan_spec` — the PPRI scan names the core of a running job of greatest priority value,
  when that value is above the new job's, and `-1` otherwise.
* `PpriInv.newJob`, `PpriInv.jobFinished`, `Reachable.ppriInv`.
* `ppri_dominance` — priority dominance in every reachable PPRI state; the dispatch of
  `scheduler_job_finished` takes a waiting job of least priority value, the earliest among ties.
* `psjf_dispatches_longer_job` — a PSJF run meeting its contract in which
  `scheduler_job_finished` hands the core a job with more remaining time than one left waiting.

## Implementation notes

Every call brings the record of each running job up to `cTime`, so a running job `p` completes
at `cTime + tRemaining`: `PsjfContract` reads the completion times off that sum.
-/

namespace Libscheduler

open Sched

/-! ### The PPRI preemption scan -/

section PpriScan

variable (mem : Nat → Job) (pr : Int) (cores : List (Option Nat))

/-- The loop invariant of the PPRI scan after `c_job[0..i)`: every job seen has priority value at
most the new job's or at most `cp`, and `ctc` is `-1` or the core of a job of value `cp`, which
is above the new job's. -/
def PpriScanned (i : Nat) (ctc cp : Int) : Prop :=
  (∀ k < i, ∀ u, cores[k]? = some (some u) → (mem u).priority ≤ pr ∨ (mem u).priority ≤ cp) ∧
  (ctc = -1 ∧ cp = -1 ∨ 0 ≤ ctc ∧ ∃ v, cores[ctc.toNat]? = some (some v) ∧ (mem v).priority = cp ∧ pr < cp)

variable {mem pr cores}

/-- One slot of the scan keeps the loop invariant. -/
theorem PpriScanned.next {i : Nat} {ctc cp ctc' cp' : Int} {p : Nat} (h : PpriScanned mem pr cores i ctc cp)
    (hci : cores[i]? = some (some p)) (hp : (mem p).priority ≤ pr ∨ (mem p).priority ≤ cp') (hcp : cp ≤ cp')
    (hfound : ctc' = -1 ∧ cp' = -1 ∨ 0 ≤ ctc' ∧ ∃ v, cores[ctc'.toNat]? = some (some v) ∧ (mem v).priority = cp' ∧ pr < cp') :
    PpriScanned mem pr cores (i + 1) ctc' cp' := by
  refine ⟨fun k hk u hu => ?_, hfound⟩
  rcases Nat.lt_succ_iff_lt_or_eq.1 hk with hk | rfl
  · exact (h.1 k hk u hu).imp_right (·.trans hcp)
  · rw [hci, Option.some.injEq, Option.some.injEq] at hu
    exact hu ▸ hp

/-- The scan from slot `i` on, started in the loop invariant, ends in it. -/
theorem ppriScan_scanned (hpr : 0 ≤ pr) : ∀ (cs : List (Option Nat)) (i : Nat) (ctc cp r : Int),
    cores.drop i = cs → none ∉ cs → PpriScanned mem pr cores i ctc cp →
    ppriScan mem pr cores cs i ctc cp = some r → ∃ cp', PpriScanned mem pr cores cores.length r cp'
  | [], i, ctc, cp, r, hd, _, h, hs => by
    obtain rfl : ctc = r := Option.some_inj.1 hs
    have hlen : cores.length ≤ i := List.drop_eq_nil_iff.1 hd
    exact ⟨cp, fun k hk => h.1 k (by omega), h.2⟩
  | none :: cs, _, _, _, _, _, hn, _, _ => absurd (List.mem_cons_self _ _) hn
  | some p :: cs, i, ctc, cp, r, hd, hn, h, hs => by
    have hci : cores[i]? = some (some p) := by rw [← Nat.add_zero i, ← List.getElem?_drop, hd]; simp
    have hci' : cores[(i : Int).toNat]? = some (some p) := by simpa using hci
    have hd' : cores.drop (i + 1) = cs := by rw [← List.tail_drop, hd]; rfl
    have hn' : none ∉ cs := fun h' => hn (List.mem_cons_of_mem _ h')
    have ih := ppriScan_scanned hpr cs (i + 1)
    simp only [ppriScan] at hs
    by_cases h1 : pr < (mem p).priority
    · rw [if_pos h1] at hs
      by_cases h2 : cp < (mem p).priority
      · rw [if_pos h2] at hs
        exact ih _ _ r hd' hn' (h.next hci (.inr le_rfl) (by omega) (.inr ⟨by omega, p, hci', rfl, h1⟩)) hs
      rw [if_neg h2] at hs
      by_cases h3 : (mem p).priority = cp
      · rw [if_pos h3] at hs
        obtain ⟨hc0, v, hv, hvp, -⟩ := h.2.resolve_left fun ⟨_, hc⟩ => by omega
        simp only [if_pos hc0, hv, Option.bind_eq_bind, Option.some_bind] at hs
        split_ifs at hs
        · exact ih _ _ r hd' hn' (h.next hci (.inr h3.le) le_rfl (.inr ⟨by omega, p, hci', h3, by omega⟩)) hs
        · exact ih _ _ r hd' hn' (h.next hci (.inr h3.le) le_rfl (.inr ⟨hc0, v, hv, hvp, by omega⟩)) hs
      · rw [if_neg h3] at hs
        exact ih _ _ r hd' hn' (h.next hci (.inr (by omega)) le_rfl h.2) hs
    · rw [if_neg h1] at hs
      exact ih _ _ r hd' hn' (h.next hci (.inl (by omega)) le_rfl h.2) hs

/-- **The PPRI scan.** Over busy cores, with a non-negative priority value `pr`, the scan
returns `-1` when no running job has a value above `pr`, and otherwise the core of a running job
of greatest value. -/
theorem ppriScan_spec (hpr : 0 ≤ pr) (hn : none ∉ cores) {r : Int}
    (h : ppriScan mem pr cores cores 0 (-1) (-1) = some r) :
    (r = -1 ∧ ∀ (k : Nat) u, cores[k]? = some (some u) → (mem u).priority ≤ pr) ∨
    (0 ≤ r ∧ ∃ v, cores[r.toNat]? = some (some v) ∧ pr < (mem v).priority ∧
      ∀ (k : Nat) u, cores[k]? = some (some u) → (mem u).priority ≤ (mem v).priority) := by
  obtain ⟨cp, hall, hr⟩ := ppriScan_scanned hpr cores 0 (-1) (-1) r rfl hn
    ⟨fun k hk => absurd hk (Nat.not_lt_zero k), .inl ⟨rfl, rfl⟩⟩ h
  have hall' : ∀ (k : Nat) u, cores[k]? = some (some u) → (mem u).priority ≤ pr ∨ (mem u).priority ≤ cp :=
    fun k u hu => hall k (List.getElem?_eq_some_iff.1 hu).1 u hu
  rcases hr with ⟨rfl, rfl⟩ | ⟨h0, v, hv, rfl, hlt⟩
  · exact .inl ⟨rfl, fun k u hu => (hall' k u hu).elim id fun h' => by omega⟩
  · exact .inr ⟨h0, v, hv, hlt, fun k u hu => (hall' k u hu).elim (fun h' => by omega) id⟩

end PpriScan

/-! ### The PPRI invariant -/

/-- The contract of a PPRI run: the calls of `WellFormed`, with non-negative priorities. -/
def PriorityContract (s : Sched) : Event → Prop
  | .newJob n t rt pr a blk => WellFormed s (.newJob n t rt pr a blk) ∧ 0 ≤ pr
  | .jobFinished c n t => WellFormed s (.jobFinished c n t)
  | .quantumExpired c t => WellFormed s (.quantumExpired c t)

instance (s : Sched) : ∀ e, Decidable (PriorityContract s e)
  | .newJob n t rt pr a blk => inferInstanceAs (Decidable (WellFormed s (.newJob n t rt pr a blk) ∧ 0 ≤ pr))
  | .jobFinished c n t => inferInstanceAs (Decidable (WellFormed s (.jobFinished c n t)))
  | .quantumExpired c t => inferInstanceAs (Decidable (WellFormed s (.quantumExpired c t)))

theorem PriorityContract.wellFormed : ∀ {s : Sched} {e : Event}, PriorityContract s e → WellFormed s e
  | _, .newJob .., h => h.1
  | _, .jobFinished .., h => h
  | _, .quantumExpired .., h => h

/-- The PPRI queue order: smaller priority value first, then earlier arrival. -/
def PriorityOrder (s : Sched) : Nat → Nat → Prop :=
  Libpriqueue.KeyLex (fun p => (s.mem p).priority) (fun p q => (s.mem p).tArrival < (s.mem q).tArrival)

theorem sorted_priorityOrder_congr {x s : Sched} {l : List Nat}
    (hm : ∀ p ∈ l, (x.mem p).priority = (s.mem p).priority ∧ (x.mem p).tArrival = (s.mem p).tArrival)
    (h : l.Sorted (PriorityOrder s)) : l.Sorted (PriorityOrder x) :=
  List.Pairwise.imp_of_mem (fun ha hb hab => by
    simp only [PriorityOrder, Libpriqueue.KeyLex, (hm _ ha).1, (hm _ ha).2, (hm _ hb).1, (hm _ hb).2] at hab ⊢
    exact hab) h

/-- **The PPRI invariant**: the queue is in priority order, and no waiting job has a smaller
priority value than a running one. -/
structure PpriInv (s : Sched) : Prop where
  sorted : s.jobs.Sorted (PriorityOrder s)
  dominance : ∀ c p w, s.OnCore c p → w ∈ s.waiting → (s.mem p).priority ≤ (s.mem w).priority

theorem ppriInv_startUp (n : Nat) (scheme : Scheme) : PpriInv (schedulerStartUp n scheme) :=
  ⟨List.sorted_nil, fun _ _ _ _ hw => by simp [Sched.waiting, schedulerStartUp] at hw⟩

/-- Offering a job that arrives after every queued one keeps the PPRI queue sorted. -/
theorem sorted_offer_ppri {s x : Sched} {a : Nat} (hσ : x.tScheme = .ppri) (hj : x.jobs = s.jobs)
    (hkey : ∀ p ∈ s.jobs, (x.mem p).priority = (s.mem p).priority ∧ (x.mem p).tArrival = (s.mem p).tArrival)
    (hl : s.jobs.Sorted (PriorityOrder s)) (harr : ∀ p ∈ s.jobs, (s.mem p).tArrival < (x.mem a).tArrival) :
    (x.offer a).jobs.Sorted (PriorityOrder (x.offer a)) := by
  rw [offer_jobs, hj]
  refine Libpriqueue.sorted_offer _ _ _ _ (sorted_priorityOrder_congr (hj ▸ hkey) hl)
    (fun e he => show (x.mem e).tArrival < _ by rw [(hkey e he).2]; exact harr e he) (fun e _ => ?_)
  simp only [comparer, hσ, Sched.offer_mem]; split_ifs <;> omega

/-- **`scheduler_new_job` under PPRI** keeps the queue in priority order and every running job
no less urgent than any waiting one. -/
theorem PpriInv.newJob {s s' : Sched} {n t rt pr ret : Int} {a : Nat} {blk : Job} (h : Owned s)
    (hc : Conserving s) (hI : PpriInv s) (hσ : s.tScheme = .ppri)
    (hwf : PriorityContract s (.newJob n t rt pr a blk)) (hs : schedulerNewJob s n t rt pr a blk = some (s', ret)) :
    PpriInv s' := by
  obtain ⟨⟨-, -, ha, hfresh⟩, hpr⟩ := hwf
  have hna : a ∉ s.jobs := fun hm => by simp [(h.mem_jobs a).1 hm] at ha
  have hpa : ∀ p ∈ s.jobs, p ≠ a := fun p hp e => hna (e ▸ hp)
  have hcases := schedulerNewJob_cases hs
  set s₁ := incrementTimestep ((s.malloc a (arrivalRecord blk n t rt pr)).setTime t).countJob with hs₁
  have hkey : ∀ p ∈ s.jobs, (s₁.mem p).priority = (s.mem p).priority ∧
      (s₁.mem p).tArrival = (s.mem p).tArrival ∧ (s₁.mem p).jCore = (s.mem p).jCore := fun p hp => by
    simp [hs₁, Function.update_noteq (hpa p hp)]
  have hrec : (s₁.mem a).priority = pr ∧ (s₁.mem a).tArrival = t := by simp [hs₁, arrivalRecord]
  have harr : ∀ p ∈ s.jobs, (s.mem p).tArrival < t := fun p hp => (hfresh p hp).2
  have hσ₁ : s₁.tScheme = .ppri := by simpa [hs₁] using hσ
  rcases hcases with ⟨i, hi, -, -, rfl⟩ | ⟨hn, v, hpre, hr, hv, rfl⟩ | ⟨hn, hpre, rfl, rfl⟩
  · -- a free core: nothing waits, so only the sorting is at stake
    have hw := waiting_eq_nil_iff.1 (hc (List.getElem?_mem hi))
    refine ⟨sorted_offer_ppri (s := s) (by simpa using hσ₁) rfl (fun p hp => ?_) hI.sorted ?_, fun c p w _ hw' => ?_⟩
    · simp [startNew_mem, Function.update_noteq (hpa p hp), hkey p hp]
    · simpa [startNew_mem, hrec] using harr
    · obtain ⟨hx, hj⟩ := mem_waiting.1 hw'
      rcases (Libpriqueue.mem_offer _ _).1 hx with rfl | hx
      · simp [startNew_mem] at hj
      · replace hx : w ∈ s.jobs := by simpa [hs₁] using hx
        simp [startNew_mem, Function.update_noteq (hpa w hx), (hkey w hx).2.2] at hj
        exact absurd hj (hw w hx)
  · -- the new job evicts the least urgent running job `v`, which starts waiting
    simp only [preemptCore, hσ₁] at hpre
    rw [show s₁.cJob = s.cJob from rfl] at hpre
    rcases ppriScan_spec (by simpa [hrec] using hpr) hn hpre with ⟨rfl, -⟩ | ⟨-, v', hv', hlt, hmax⟩
    · exact absurd rfl hr
    obtain rfl : v = v' := Option.some.inj (Option.some.inj (hv.2.symm.trans hv'))
    have hvj := h.onCore _ _ hv.2
    have hva := hpa v hvj.1
    refine ⟨sorted_offer_ppri (s := s) (by simpa using hσ₁) rfl (fun p hp => ?_) hI.sorted ?_, fun c p w hp hw => ?_⟩
    · by_cases hpv : p = v
      · subst hpv; simp [startNew_mem, Function.update_noteq hva, hkey p hp]
      · simp [startNew_mem, Function.update_noteq hpv, Function.update_noteq (hpa p hp), hkey p hp]
    · simpa [startNew_mem, Function.update_noteq hva.symm, hrec] using harr
    · set y := (s₁.startNew a ret).setJob v (evict t ((s₁.startNew a ret).mem v)) with hy
      have hm' : ∀ q, q ≠ a → q ≠ v → y.mem q = s₁.mem q := fun q hqa hqv => by
        simp [hy, startNew_mem, Function.update_noteq hqa, Function.update_noteq hqv]
      have hmv : (y.mem v).priority = (s.mem v).priority := by
        simp [hy, startNew_mem, Function.update_noteq hva, hkey v hvj.1]
      have hma : (y.mem a).priority = pr ∧ (y.mem a).jCore = ret := by
        simp [hy, startNew_mem, Function.update_noteq hva.symm, hrec]
      obtain ⟨hx, hj⟩ := mem_waiting.1 hw
      rcases (Libpriqueue.mem_offer _ _).1 hx with rfl | hx
      · exact absurd (hma.2.symm.trans hj) hr
      replace hx : w ∈ s.jobs := by simpa [hy, hs₁] using hx
      have hwv : w = v ∨ w ∈ s.waiting ∧ (y.mem w).priority = (s.mem w).priority :=
        or_iff_not_imp_left.2 fun hwv =>
          have hyw := hm' w (hpa w hx) hwv
          ⟨mem_waiting.2 ⟨hx, (hkey w hx).2.2.symm.trans ((congrArg Job.jCore hyw).symm.trans hj)⟩,
            (congrArg Job.priority hyw).trans (hkey w hx).1⟩
      simp only [offer_mem, setCore_mem]
      rw [onCore_offer, onCore_setCore] at hp
      split_ifs at hp with hc
      · obtain ⟨-, ⟨⟩⟩ := hp
        have hlt' : pr < (s.mem v).priority := by simpa [hrec, hkey v hvj.1] using hlt
        rcases hwv with hwv | ⟨hwv, hwp⟩
        · rw [hma.1, hwv, hmv]; omega
        · rw [hma.1, hwp]; have := hI.dominance _ _ _ hv.2 hwv; omega
      · replace hp : s.OnCore c p := by simpa [hy, hs₁] using hp
        have hpj := h.onCore _ _ hp
        have hpv : p ≠ v := by rintro rfl; exact hc (h.onCore_inj hv.2 hp)
        rw [hm' p (hpa p hpj.1) hpv, (hkey p hpj.1).1]
        rcases hwv with hwv | ⟨hwv, hwp⟩
        · have := hmax c p hp
          rw [(hkey p hpj.1).1, (hkey v hvj.1).1] at this
          rwa [hwv, hmv]
        · rw [hwp]; exact hI.dominance c p w hp hwv
  · -- the new job waits: no running job is less urgent than it
    simp only [preemptCore, hσ₁] at hpre
    rcases ppriScan_spec (by simpa [hrec] using hpr) hn hpre with ⟨-, hmax⟩ | ⟨h0, -⟩
    · refine ⟨sorted_offer_ppri (s := s) hσ₁ rfl (fun p hp => ⟨(hkey p hp).1, (hkey p hp).2.1⟩) hI.sorted (by simpa [hrec] using harr), fun c p w hp hw => ?_⟩
      have hpj := h.onCore _ _ hp
      simp only [offer_mem]
      rw [(hkey p hpj.1).1]
      obtain ⟨hx, hj⟩ := mem_waiting.1 hw
      rcases (Libpriqueue.mem_offer _ _).1 hx with rfl | hx
      · have := hmax c p hp
        rwa [(hkey p hpj.1).1] at this
      · rw [(hkey w hx).1]
        exact hI.dominance c p w hp (mem_waiting.2 ⟨hx, (hkey w hx).2.2 ▸ hj⟩)
    · exact absurd h0 (by omega)

/-- The dispatch loop changes no job's priority or arrival time. -/
theorem dispatchFirstWaiting_keys {m s' : Sched} {c r : Int} (hd : dispatchFirstWaiting m c = some (s', r))
    (e : Nat) : (s'.mem e).priority = (m.mem e).priority ∧ (s'.mem e).tArrival = (m.mem e).tArrival := by
  rcases dispatchFirstWaiting_cases hd with ⟨-, rfl, -⟩ | ⟨q, -, -, -, -, rfl, -⟩
  · exact ⟨rfl, rfl⟩
  · by_cases he : e = q
    · subst he; simp
    · simp [Function.update_noteq he]

/-- The PPRI order puts the smaller priority value first. -/
theorem PriorityOrder.le {s : Sched} {p q : Nat} (h : PriorityOrder s p q) :
    (s.mem p).priority ≤ (s.mem q).priority := by
  rcases h with h | ⟨h, -⟩
  exacts [h.le, h.le]

/-- **`scheduler_job_finished` under PPRI** dispatches from a queue in priority order, and keeps
the invariant. -/
theorem PpriInv.jobFinished {s s' : Sched} {c n t r : Int} (h : Owned s) (hI : PpriInv s)
    (hwf : WellFormed s (.jobFinished c n t)) (hs : schedulerJobFinished s c n t = some (s', r)) :
    ∃ m, finishCore s c n t = some m ∧ m.waiting.Sorted (PriorityOrder m) ∧ (∀ q, ¬ m.Holds c q) ∧
      dispatchFirstWaiting m c = some (s', r) ∧ PpriInv s' := by
  obtain ⟨p, i, hi, hget, hcp, -, -, m, rfl, hf, hd⟩ := h.jobFinished_spec hwf hs
  obtain ⟨hw₀, hm₀⟩ := h.advance_waiting t
  have hrun : ((incrementTimestep (s.setTime t)).mem p).jCore ≠ -1 := by
    simp [(h.onCore _ p hcp.2).2]; omega
  obtain ⟨hw, hm⟩ := waiting_remove (x := incrementTimestep (s.setTime t))
    (y := ((incrementTimestep (s.setTime t)).removeAt i).finish p t) h.nodup hi hget hrun rfl
    fun e he => by simp [Function.update_noteq he]
  rw [hw₀] at hw hm
  set m := ((((incrementTimestep (s.setTime t)).removeAt i).finish p t).free p).setCore c.toNat none with hm'
  have hkey : ∀ e, (m.mem e).priority = (s.mem e).priority ∧ (m.mem e).tArrival = (s.mem e).tArrival := fun e => by
    by_cases he : e = p
    · subst he; simp [hm']
    · simp [hm', Function.update_noteq he]
  have hwm : m.waiting = s.waiting := hw
  have hnd : m.jobs.Nodup := (List.eraseIdx_sublist _ _).nodup h.nodup
  have hsorted : m.jobs.Sorted (PriorityOrder m) :=
    sorted_priorityOrder_congr (fun e _ => hkey e) (hI.sorted.sublist (List.eraseIdx_sublist _ _))
  have hkey' := dispatchFirstWaiting_keys hd
  refine ⟨m, hf, hsorted.filter _, fun q ⟨_, hq⟩ => by simp [hm', onCore_setCore] at hq, hd, ?_, ?_⟩
  · rw [(dispatchFirstWaiting_frame hd).1]
    exact sorted_priorityOrder_congr (fun e _ => hkey' e) hsorted
  intro c' q w hq hw'
  rw [(hkey' q).1, (hkey' w).1]
  rcases dispatchFirstWaiting_cases hd with ⟨hw0, rfl, -⟩ | ⟨q₀, rest, hw0, h0, hlt, rfl, -⟩
  · simp [hw0] at hw'
  rw [waiting_dispatch hnd hw0 h0] at hw'
  have hwq : w ∈ m.waiting := hw0 ▸ List.mem_cons_of_mem _ hw'
  rw [onCore_setCore] at hq
  split_ifs at hq with hc
  · obtain ⟨-, ⟨⟩⟩ := hq
    exact PriorityOrder.le (List.rel_of_sorted_cons (hw0 ▸ hsorted.filter _) w hw')
  · have hqs : s.OnCore c' q := by
      simpa [hm', onCore_setCore, hc] using hq
    rw [(hkey q).1, (hkey w).1]
    exact hI.dominance c' q w hqs (hwm ▸ hwq)

/-- `scheduler_job_finished` and `scheduler_new_job` keep the PPRI invariant; quantum expiry
does not happen under PPRI. -/
theorem PpriInv.step {s s' : Sched} {e : Event} {r : Int} (h : Owned s) (hc : Conserving s) (hI : PpriInv s)
    (hσ : s.tScheme = .ppri) (he : PriorityContract s e) (hs : s.step e = some (s', r)) : PpriInv s' := by
  cases e with
  | newJob => exact hI.newJob h hc hσ he hs
  | jobFinished => exact (hI.jobFinished h he hs).choose_spec.2.2.2.2
  | quantumExpired => exact absurd he.1 (by simp [hσ])

/-- The PPRI invariant holds in every reachable state of a PPRI run. -/
theorem Reachable.ppriInv {s : Sched} (hs : Reachable PriorityContract s) (hσ : s.tScheme = .ppri) :
    PpriInv s := by
  induction hs with
  | startUp n scheme _ => exact ppriInv_startUp n scheme
  | step hr hwf hstep ih =>
    have hw := hr.mono fun _ _ => PriorityContract.wellFormed
    have hσ' : _ = _ := hw.owned.step_tScheme hwf.wellFormed hstep ▸ hσ
    exact (ih hσ').step hw.owned hw.conserving hσ' hwf hstep

/-- **Priority dominance under PPRI.** In every state reached under the contract, no waiting job
has a smaller priority value than a job on a core; and when `scheduler_job_finished` leaves a job
`q` on the core, `q` was waiting at the moment of the dispatch, of least priority value among the
jobs waiting then and the earliest arrived among those of equal value. -/
theorem ppri_dominance {s : Sched} (hs : Reachable PriorityContract s) (hσ : s.tScheme = .ppri) :
    (∀ c p w, s.OnCore c p → w ∈ s.waiting → (s.mem p).priority ≤ (s.mem w).priority) ∧
    (∀ c n t s' r, PriorityContract s (.jobFinished c n t) → schedulerJobFinished s c n t = some (s', r) →
      ∃ m, finishCore s c n t = some m ∧ ∀ q, s'.Holds c q → q ∈ m.waiting ∧
        ∀ q' ∈ m.waiting, q' ≠ q → (m.mem q).priority < (m.mem q').priority ∨
          (m.mem q).priority = (m.mem q').priority ∧ (m.mem q).tArrival < (m.mem q').tArrival) := by
  have hI := hs.ppriInv hσ
  have hw := hs.mono fun _ _ => PriorityContract.wellFormed
  refine ⟨hI.dominance, fun c n t s' r hwf hst => ?_⟩
  obtain ⟨m, hf, hm, hslot, hd, -⟩ := hI.jobFinished hw.owned hwf hst
  exact ⟨m, hf, fun q hq => dispatch_head hd hm (fun _ => hslot) hq⟩

/-- On one PPRI core, jobs of priorities `2` and `3` arrive, and then one of priority `1`, which
takes the core from the first; when it completes, the job of priority `2` takes the core back. -/
theorem ppri_dominance_preempted : ∃ s s' r, Reachable PriorityContract s ∧ s.tScheme = .ppri ∧
    s.cJob = [some 2] ∧ s.waiting = [0, 1] ∧ PriorityContract s (.jobFinished 0 3 4) ∧
    schedulerJobFinished s 0 3 4 = some (s', r) ∧ s'.Holds 0 0 ∧
    (∀ w ∈ s.waiting, (s.mem 2).priority ≤ (s.mem w).priority) ∧
    ∃ m, finishCore s 0 3 4 = some m ∧ 0 ∈ m.waiting ∧ ∀ q' ∈ m.waiting, q' ≠ 0 →
      (m.mem 0).priority < (m.mem q').priority ∨
        (m.mem 0).priority = (m.mem q').priority ∧ (m.mem 0).tArrival < (m.mem q').tArrival := by
  obtain ⟨s, hs, hv⟩ := exists_of_replay (.startUp 1 .ppri Nat.one_pos)
    [.newJob 1 0 5 2 0 default, .newJob 2 1 5 3 1 default, .newJob 3 2 5 1 2 default]
    (fun s => ((s.tScheme, s.cJob, s.waiting), decide (PriorityContract s (.jobFinished 0 3 4)),
      (schedulerJobFinished s 0 3 4).map fun x => x.1.cJob))
    (P := PriorityContract) (v := ((.ppri, [some 2], [0, 1]), true, some [some 0])) (by decide)
  simp only [Prod.mk.injEq, decide_eq_true_eq] at hv
  obtain ⟨⟨hσ, hc, hw⟩, hwf, hst⟩ := hv
  obtain ⟨⟨s', r⟩, hst, hc'⟩ := Option.map_eq_some'.1 hst
  have hh : s'.Holds 0 0 := ⟨le_rfl, by rw [OnCore, show s'.cJob = _ from hc']; rfl⟩
  have hon : s.OnCore 0 2 := by rw [OnCore, hc]; rfl
  obtain ⟨hdom, hfin⟩ := ppri_dominance hs hσ
  obtain ⟨m, hm, hq⟩ := hfin 0 3 4 s' r hwf hst
  exact ⟨s, s', r, hs, hσ, hc, hw, hwf, hst, hh, fun w hw' => hdom 0 2 w hon hw', m, hm, hq 0 hh⟩

/-! ### PSJF -/

/-- A statement over the running jobs, as a bounded one over the core slots. -/
theorem forall_onCore_iff {s : Sched} {P : Nat → Prop} :
    (∀ c p, s.OnCore c p → P p) ↔ ∀ x ∈ s.cJob, ∀ p ∈ x.toList, P p := by
  refine ⟨fun h x hx p hp => ?_, fun h c p hc => h _ (List.getElem?_mem hc) p (by simp)⟩
  obtain ⟨c, hc⟩ := List.mem_iff_getElem?.1 hx
  rw [Option.mem_toList, Option.mem_def] at hp
  subst hp; exact h c p hc

/-- A statement over the job of core `c`, as a bounded one over its slot. -/
theorem forall_holds_iff {s : Sched} {c : Int} {P : Nat → Prop} :
    (∀ p, s.Holds c p → P p) ↔ ∀ p ∈ (s.slot c).join.toList, P p := by
  simp only [Option.mem_toList, Option.mem_def, Option.join_eq_some, Sched.slot_eq_some_some]

/-- The contract of a PSJF run: every running job is reported finished at the time its remaining
time runs out, before any later event, and no quantum expires. -/
def PsjfContract (s : Sched) : Event → Prop
  | .newJob n t rt pr a blk => WellFormed s (.newJob n t rt pr a blk) ∧
      ∀ c p, s.OnCore c p → t ≤ s.cTime + (s.mem p).tRemaining
  | .jobFinished c n t => WellFormed s (.jobFinished c n t) ∧
      (∀ c' p, s.OnCore c' p → t ≤ s.cTime + (s.mem p).tRemaining) ∧
      ∀ p, s.Holds c p → s.cTime + (s.mem p).tRemaining = t
  | .quantumExpired _ _ => False

instance (s : Sched) : ∀ e, Decidable (PsjfContract s e)
  | .newJob n t rt pr a blk => decidable_of_iff (WellFormed s (.newJob n t rt pr a blk) ∧
      ∀ x ∈ s.cJob, ∀ p ∈ x.toList, t ≤ s.cTime + (s.mem p).tRemaining)
      (and_congr_right_iff.2 fun _ => forall_onCore_iff.symm)
  | .jobFinished c n t => decidable_of_iff (WellFormed s (.jobFinished c n t) ∧
      (∀ x ∈ s.cJob, ∀ p ∈ x.toList, t ≤ s.cTime + (s.mem p).tRemaining) ∧
      ∀ p ∈ (s.slot c).join.toList, s.cTime + (s.mem p).tRemaining = t)
      (by rw [← forall_onCore_iff, ← forall_holds_iff]; rfl)
  | .quantumExpired _ _ => isFalse id

/-- **PSJF dispatch is not shortest-first.** On two cores, jobs of lengths 10 and 9 start at
times 0 and 1; jobs of length 2 arrive at times 2 and 3 and each evicts the longest running job
(the first on a tie), job 1 with 8 left and then job 2 with 7 left. When job 3 completes at time
4, `scheduler_job_finished` gives core 0 to job 1, the first waiting job in the queue, while job 2
with less time left waits. -/
theorem psjf_dispatches_longer_job : ∃ s s', Reachable PsjfContract s ∧ PsjfContract s (.jobFinished 0 3 4) ∧
    schedulerJobFinished s 0 3 4 = some (s', 1) ∧
    ∃ p w, s'.OnCore 0 p ∧ w ∈ s'.waiting ∧ (s'.mem w).tRemaining < (s'.mem p).tRemaining := by
  obtain ⟨s, s', hs, hP, hst, hv⟩ := exists_of_replay_step (.startUp 2 .psjf (by decide))
    [.newJob 1 0 10 0 0 default, .newJob 2 1 9 0 1 default, .newJob 3 2 2 0 2 default, .newJob 4 3 2 0 3 default]
    (.jobFinished 0 3 4) (fun s' => decide (s'.cJob[0]? = some (some 0) ∧ 1 ∈ s'.waiting ∧
      (s'.mem 1).tRemaining < (s'.mem 0).tRemaining)) (P := PsjfContract) (r := 1) (v := true) (by decide)
  simp only [decide_eq_true_eq] at hv
  exact ⟨s, s', hs, hP, hst, 0, 1, hv⟩

end Libscheduler
