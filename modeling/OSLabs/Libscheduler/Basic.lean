import Mathlib.Logic.Function.Basic
import OSLabs.Libpriqueue.Elems

/-!
# The scheduler of `libscheduler.c`

A shallow embedding of the discrete-event CPU scheduler: its globals, the comparator that
encodes the six disciplines, `increment_timestep`, and the small state updates the handlers of
`OSLabs.Libscheduler.Handlers` are built from.

## Design

The C globals `jobs`, `c_cores`, `t_scheme`, `c_time`, `n_jobs` and the three running sums
become the fields of one record `Libscheduler.Sched`. Jobs are `job_t` records reached through
pointers, and a job is shared between the queue and a core slot, so the model keeps the
pointers: the queue is the element list of job addresses (`OSLabs.Libpriqueue.Elems`), the core
array holds optional addresses, and `mem` maps an address to the record stored there. `alloc`
records which addresses hold a live record: `malloc` sets it and `free` clears it, and the
record itself stays in `mem`, as freed memory keeps its last contents. Reading memory therefore
never fails; the handlers fail (`none`) only on the C code's undefined behaviour that depends on
the shape of the state: dereferencing an empty core slot, indexing `c_job` out of range, or
finishing a job through the uninitialised pointer of an empty search.

Times, lengths and priorities are `Int`, as in the C code. The running sums are `float` there;
the model keeps them as exact integer sums.

## Main definitions

* `Libscheduler.comparer` — the comparator of the six disciplines.
* `Libscheduler.incrementTimestep` — the clock advance run at the start of every event.
* `Libscheduler.resume` — the accounting done when a waiting job is handed a core.
-/

namespace Libscheduler

/-- `scheme_t`: first come first serve, shortest job first, shortest remaining time first,
fixed priority, preemptive priority, round robin. -/
inductive Scheme where
  | fcfs | sjf | psjf | pri | ppri | rr
  deriving DecidableEq, Repr

/-- `job_t`, one unit of work with its statistics. -/
structure Job where
  tArrival : Int
  tTotal : Int
  tRemaining : Int
  tWaiting : Int
  tUpdated : Int
  tStarted : Int
  tEnd : Int
  jobId : Int
  priority : Int
  jCore : Int
  deriving DecidableEq, Repr, Inhabited

/-- The scheduler's globals: the element list of the queue `jobs`, the job records by address
and which of them are live, the core array `c_cores->c_job` (whose length is `n_cores`), and
`t_scheme`, `c_time`, `n_jobs` and the sums `t_response`, `t_wait`, `t_turnaround`. -/
structure Sched where
  jobs : List Nat
  mem : Nat → Job
  alloc : Nat → Bool
  cJob : List (Option Nat)
  tScheme : Scheme
  cTime : Int
  nJobs : Int
  tResponse : Int
  tWait : Int
  tTurnaround : Int

/-- `comparer(p1, p2)`: `-1` when the job being offered goes before the queued one. The `NULL`
test on `p2` is never taken, since the queue holds no `NULL` element. -/
def comparer (scheme : Scheme) (job1 job2 : Job) : Int :=
  match scheme with
  | .fcfs => 1
  | .sjf => if job1.tTotal < job2.tRemaining ∧ job2.tStarted = -1 then -1 else 1
  | .psjf => if job1.tRemaining < job2.tRemaining then -1 else 1
  | .pri => if job1.priority < job2.priority ∧ job2.tStarted = -1 then -1 else 1
  | .ppri => if job1.priority < job2.priority then -1 else 1
  | .rr => 1

/-- One iteration of `increment_timestep` on the job of a busy core: a job that has not started
and was not updated this timestep starts now; any other job has run since its last update. -/
def tick (cTime : Int) (j : Job) : Job :=
  if j.tStarted = -1 ∧ j.tUpdated ≠ cTime then { j with tStarted := j.tUpdated }
  else { j with tRemaining := j.tRemaining - (cTime - j.tUpdated), tUpdated := cTime }

/-- `increment_timestep`: tick the job of every busy core, cores in index order. -/
def incrementTimestep (s : Sched) : Sched :=
  { s with mem := s.cJob.foldl (fun m slot => slot.elim m fun p => Function.update m p (tick s.cTime (m p))) s.mem }

/-- The accounting done when a waiting job is handed a core at `cTime`: a job that never started
starts now and has waited since its arrival; a resumed job has waited since its last update. -/
def resume (cTime : Int) (j : Job) : Job :=
  if j.tStarted = -1 then { j with tStarted := cTime, tUpdated := cTime, tWaiting := cTime - j.tArrival }
  else { j with tWaiting := j.tWaiting + (cTime - j.tUpdated), tUpdated := cTime }

/-- The changes made to a running job that a new arrival evicts: it goes back to waiting, and a
job that was started in this very timestep never really ran, so its start is undone. -/
def evict (cTime : Int) (j : Job) : Job :=
  let j := { j with jCore := -1, tUpdated := cTime }
  if j.tStarted = cTime then { j with tStarted := -1, tUpdated := -1 } else j

namespace Sched

/-- `c_time = time`. -/
@[simps]
def setTime (s : Sched) (t : Int) : Sched := { s with cTime := t }

/-- `n_jobs++`. -/
@[simps]
def countJob (s : Sched) : Sched := { s with nJobs := s.nJobs + 1 }

/-- `priqueue_remove_at(jobs, i)` for an index in range. -/
@[simps]
def removeAt (s : Sched) (i : Nat) : Sched := { s with jobs := s.jobs.eraseIdx i }

/-- Store record `j` at address `p`. -/
@[simps]
def setJob (s : Sched) (p : Nat) (j : Job) : Sched := { s with mem := Function.update s.mem p j }

/-- `malloc` handing out address `p`, initialised to `j`. -/
@[simps]
def malloc (s : Sched) (p : Nat) (j : Job) : Sched :=
  { s with mem := Function.update s.mem p j, alloc := Function.update s.alloc p true }

/-- `free(p)`: the record keeps its contents but is no longer live. -/
@[simps]
def free (s : Sched) (p : Nat) : Sched := { s with alloc := Function.update s.alloc p false }

/-- Write core slot `c`. -/
@[simps]
def setCore (s : Sched) (c : Nat) (x : Option Nat) : Sched := { s with cJob := s.cJob.set c x }

/-- `c_cores->c_job[c] = x` for a C `int` index: undefined outside `0 ≤ c < n_cores`. -/
def writeCore (s : Sched) (c : Int) (x : Option Nat) : Option Sched :=
  if 0 ≤ c ∧ c.toNat < s.cJob.length then some (s.setCore c.toNat x) else none

/-- `c_cores->c_job[c]` for a C `int` index: undefined outside `0 ≤ c < n_cores`. -/
def slot (s : Sched) (c : Int) : Option (Option Nat) :=
  if 0 ≤ c then s.cJob[c.toNat]? else none

/-- `priqueue_offer(jobs, p)` under the current discipline and records. -/
@[simps]
def offer (s : Sched) (p : Nat) : Sched :=
  { s with jobs := Libpriqueue.offer (fun a b => comparer s.tScheme (s.mem a) (s.mem b)) p s.jobs }

/-- Record the end time `tEnd` of job `p` and add its turnaround, waiting and response times to
the running sums: the statistics block shared by the two handlers that finish a job. -/
@[simps]
def finish (s : Sched) (p : Nat) (tEnd : Int) : Sched :=
  { s with
    mem := Function.update s.mem p { s.mem p with tEnd := tEnd }
    tTurnaround := s.tTurnaround + (tEnd - (s.mem p).tArrival)
    tWait := s.tWait + (s.mem p).tWaiting
    tResponse := s.tResponse + ((s.mem p).tStarted - (s.mem p).tArrival) }

/-- Job `p` occupies core `c`. -/
def OnCore (s : Sched) (c p : Nat) : Prop := s.cJob[c]? = some (some p)

end Sched

end Libscheduler
