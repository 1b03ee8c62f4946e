import Mathlib.Data.Rat.Defs
import OSLabs.Libscheduler.Basic

/-!
# The scheduler's entry points

`scheduler_start_up`, the three event handlers `scheduler_new_job`, `scheduler_job_finished`
and `scheduler_quantum_expired`, and the three averages, each translated from
`libscheduler.c` over the state of `OSLabs.Libscheduler.Basic`. The section closes with the
events a harness sends, the callers' contract as the claims state it, and the states reachable
from start-up by calls that keep it.

## Main definitions

* `Libscheduler.schedulerNewJob`, `Libscheduler.schedulerJobFinished`,
  `Libscheduler.schedulerQuantumExpired` — the handlers; `none` is undefined behaviour.
* `Libscheduler.Event`, `Libscheduler.Sched.step` — one call of the harness.
* `Libscheduler.WellFormed` — the callers' contract: non-decreasing times, fresh ids, positive
  run lengths, strictly increasing arrivals, completions and quantum expiries only on a core that
  holds a job, quantum expiries only under round robin.
* `Libscheduler.Reachable`, `Libscheduler.Run` — states reached by calls meeting a contract.
-/

namespace Libscheduler

/-- The PSJF scan of `scheduler_new_job` over `c_job[i..]`: among the running jobs longer than
`r`, the core of the longest, the first on ties (`coretochange`, with `corejoblength` the
length found so far). Dereferencing an empty slot is undefined. -/
def psjfScan (mem : Nat → Job) (r : Int) : List (Option Nat) → Nat → Int → Int → Option Int
  | [], _, ctc, _ => some ctc
  | none :: _, _, _, _ => none
  | some p :: cs, i, ctc, cjl =>
    if r < (mem p).tRemaining ∧ cjl < (mem p).tRemaining then psjfScan mem r cs (i + 1) i (mem p).tRemaining
    else psjfScan mem r cs (i + 1) ctc cjl

/-- The PPRI scan of `scheduler_new_job` over `c_job[i..]`: among the running jobs of priority
value greater than `pr`, the core of the greatest, the later arrival on ties (`coretochange`,
with `corepriority` the value found so far). The tie test reads `c_job[coretochange]`, which is
undefined while `coretochange` is still `-1`. -/
def ppriScan (mem : Nat → Job) (pr : Int) (cores : List (Option Nat)) :
    List (Option Nat) → Nat → Int → Int → Option Int
  | [], _, ctc, _ => some ctc
  | none :: _, _, _, _ => none
  | some p :: cs, i, ctc, cp =>
    if pr < (mem p).priority then
      if cp < (mem p).priority then ppriScan mem pr cores cs (i + 1) i (mem p).priority
      else if (mem p).priority = cp then do
        let q ← (← if 0 ≤ ctc then cores[ctc.toNat]? else none)
        if (mem q).tArrival < (mem p).tArrival then ppriScan mem pr cores cs (i + 1) i cp
        else ppriScan mem pr cores cs (i + 1) ctc cp
      else ppriScan mem pr cores cs (i + 1) ctc cp
    else ppriScan mem pr cores cs (i + 1) ctc cp

/-- The core a new job `job` preempts when every core is busy, `-1` for none: only the
preemptive disciplines scan. -/
def preemptCore (s : Sched) (job : Job) : Option Int :=
  match s.tScheme with
  | .psjf => psjfScan s.mem job.tRemaining s.cJob 0 (-1) (-1)
  | .ppri => ppriScan s.mem job.priority s.cJob s.cJob 0 (-1) (-1)
  | _ => some (-1)

/-- `scheduler_start_up(cores, scheme)`. -/
def schedulerStartUp (cores : Nat) (scheme : Scheme) : Sched where
  jobs := []
  mem := fun _ => default
  alloc := fun _ => false
  cJob := List.replicate cores none
  tScheme := scheme
  cTime := 0
  nJobs := 0
  tResponse := 0
  tWait := 0
  tTurnaround := 0

/-- Job `a` is dispatched to core `c` at the current time, having arrived now: the block shared
by the idle-core and the preemption branches of `scheduler_new_job`. -/
def Sched.startNew (s : Sched) (a : Nat) (c : Int) : Sched :=
  s.setJob a { s.mem a with tWaiting := 0, tStarted := s.cTime, tUpdated := s.cTime, jCore := c }

/-- The record `scheduler_new_job` writes into the block `malloc` returned, whose previous
contents were `blk`: the fields the code never writes, `t_waiting` and `t_end`, keep those. -/
def arrivalRecord (blk : Job) (jobNumber time runningTime priority : Int) : Job :=
  { blk with tTotal := runningTime, tRemaining := runningTime, tArrival := time, jobId := jobNumber,
             priority := priority, tStarted := -1, tUpdated := -1, jCore := -1 }

/-- `scheduler_new_job(job_number, time, running_time, priority)`, where `malloc` returns the
address `a` of a block with previous contents `blk`. -/
def schedulerNewJob (s : Sched) (jobNumber time runningTime priority : Int) (a : Nat) (blk : Job) :
    Option (Sched × Int) :=
  let s := s.malloc a (arrivalRecord blk jobNumber time runningTime priority)
  let s := incrementTimestep (s.setTime time).countJob
  let i := s.cJob.findIdx Option.isNone
  if i < s.cJob.length then
    some (((s.startNew a i).setCore i (some a)).offer a, i)
  else do
    let ctc ← preemptCore s (s.mem a)
    if ctc ≠ -1 then do
      let s := s.startNew a ctc
      let v ← (← s.slot ctc)
      let s ← (s.setJob v (evict s.cTime (s.mem v))).writeCore ctc (some a)
      some (s.offer a, ctc)
    else some (s.offer a, -1)

/-- The queued jobs with `j_core = -1`, in queue order: the jobs waiting for a core. -/
def Sched.waiting (s : Sched) : List Nat := s.jobs.filter fun p => (s.mem p).jCore = -1

/-- The dispatch loop shared by `scheduler_job_finished` and `scheduler_quantum_expired`: hand
core `coreId` the first queued job with `j_core = -1` and return its id, or `-1`. -/
def dispatchFirstWaiting (s : Sched) (coreId : Int) : Option (Sched × Int) :=
  let i := s.jobs.findIdx fun p => (s.mem p).jCore = -1
  if h : i < s.jobs.length then
    let q := s.jobs[i]
    let j := { resume s.cTime (s.mem q) with jCore := coreId }
    ((s.setJob q j).writeCore coreId (some q)).map fun s => (s, j.jobId)
  else some (s, -1)

/-- The first half of `scheduler_job_finished(core_id, job_number, time)`: the clock advances, and
the job the id names leaves the queue, is finished and freed, and its core is emptied. The search
leaves `job_finished` at the last job it examined when no id matches, and uninitialised on an
empty queue. -/
def finishCore (s : Sched) (coreId jobNumber time : Int) : Option Sched := do
  let s := incrementTimestep (s.setTime time)
  let i := s.jobs.findIdx fun p => (s.mem p).jobId = jobNumber
  let (p, s) ← if h : i < s.jobs.length then some (s.jobs[i], s.removeAt i)
    else s.jobs.getLast?.map fun p => (p, s)
  ((s.finish p time).free p).writeCore coreId none

/-- `scheduler_job_finished(core_id, job_number, time)`: the finishing half, then the dispatch loop
unless the queue is empty. -/
def schedulerJobFinished (s : Sched) (coreId jobNumber time : Int) : Option (Sched × Int) := do
  let s ← finishCore s coreId jobNumber time
  if s.jobs.length = 0 then some (s, -1) else dispatchFirstWaiting s coreId

/-- The first half of `scheduler_quantum_expired`: the job on core `coreId` leaves the queue,
and goes back to its tail unless it has no time left, in which case it is finished and freed.
The job on the core is read only when the queue is not empty. -/
def expireCore (s : Sched) (coreId : Int) : Option Sched :=
  if s.jobs = [] then some s else do
    let p ← (← s.slot coreId)
    let i := s.jobs.findIdx fun q => (s.mem q).jobId = (s.mem p).jobId
    if h : i < s.jobs.length then
      let a := s.jobs[i]
      let s := s.removeAt i
      if (s.mem a).tRemaining ≠ 0 then
        some ((s.setJob a { s.mem a with jCore := -1, tUpdated := s.cTime }).offer a)
      else ((s.finish a s.cTime).writeCore coreId none).map (·.free a)
    else some s

/-- `scheduler_quantum_expired(core_id, time)`. -/
def schedulerQuantumExpired (s : Sched) (coreId time : Int) : Option (Sched × Int) := do
  let s ← expireCore (incrementTimestep (s.setTime time)) coreId
  dispatchFirstWaiting s coreId

/-- One call of the harness. An arrival also carries what `malloc` returns: the address of the
new `job_t` and the previous contents of its block. -/
inductive Event where
  | newJob (jobNumber time runningTime priority : Int) (addr : Nat) (blk : Job)
  | jobFinished (coreId jobNumber time : Int)
  | quantumExpired (coreId time : Int)

/-- The handler an event calls. -/
def Sched.step (s : Sched) : Event → Option (Sched × Int)
  | .newJob n t r p a blk => schedulerNewJob s n t r p a blk
  | .jobFinished c n t => schedulerJobFinished s c n t
  | .quantumExpired c t => schedulerQuantumExpired s c t

/-- Core `c` (a C `int`) holds a job. -/
def Sched.Holds (s : Sched) (c : Int) (p : Nat) : Prop := 0 ≤ c ∧ s.OnCore c.toNat p

/-- The callers' contract: times never go back; an arrival has a fresh id, a positive run length
and an arrival time after every queued job's, and `malloc` hands out an address not in use; a
completion names a core and the job it holds; quantum expiries come only under round robin and
only for a core that holds a job. -/
def WellFormed (s : Sched) : Event → Prop
  | .newJob n t r _ a _ => s.cTime ≤ t ∧ 0 < r ∧ s.alloc a = false ∧
      ∀ q ∈ s.jobs, (s.mem q).jobId ≠ n ∧ (s.mem q).tArrival < t
  | .jobFinished c n t => s.cTime ≤ t ∧ ∃ p, s.Holds c p ∧ (s.mem p).jobId = n
  | .quantumExpired c t => s.tScheme = .rr ∧ s.cTime ≤ t ∧ ∃ p, s.Holds c p

/-- The states reached from `scheduler_start_up(n, scheme)`, `n ≥ 1`, by calls meeting the
contract `P` that return. -/
inductive Reachable (P : Sched → Event → Prop) : Sched → Prop
  | startUp (n : Nat) (scheme : Scheme) : 0 < n → Reachable P (schedulerStartUp n scheme)
  | step {s s' : Sched} {e : Event} {r : Int} :
      Reachable P s → P s e → s.step e = some (s', r) → Reachable P s'

/-- A run from `s` through the events `es`, each meeting `P`, ending in `s'`. -/
inductive Run (P : Sched → Event → Prop) : Sched → List Event → Sched → Prop
  | nil (s : Sched) : Run P s [] s
  | cons {s s₁ s' : Sched} {e : Event} {es : List Event} {r : Int} :
      P s e → s.step e = some (s₁, r) → Run P s₁ es s' → Run P s (e :: es) s'

theorem Reachable.mono {P Q : Sched → Event → Prop} (hPQ : ∀ s e, P s e → Q s e) {s : Sched}
    (h : Reachable P s) : Reachable Q s := by
  induction h with
  | startUp n scheme hn => exact .startUp n scheme hn
  | step _ he hstep ih => exact .step ih (hPQ _ _ he) hstep

end Libscheduler
