import OSLabs.Quash.Basic

/-!
# `execute.c`: the handlers of quash

The functions of `execute.c` on the model of `OSLabs.Quash.Basic`: the background-job loops
`check_jobs_bg_status`, `run_kill` and `run_jobs`, the built-ins `run_export` and `run_cd`,
the two dispatchers `child_run_command` and `parent_run_command`, `create_process`, which
forks one process of a job and wires its pipes and redirects, and `run_script`, which runs a
parsed command line. The step relation of the shell, `Quash.Reachable`, calls `run_script`
while the main loop runs.

## Design

`create_process` runs in two processes after `fork`. The parent's branch changes the shell;
the child's branch sets up its descriptors and runs its command. The model returns the shell
after the parent's branch and, for the child, its descriptor table at the moment it runs its
command and what it does then (`Quash.Child`); there is no child when `fork` returned `-1`, or
when the child hit undefined behaviour in its set-up (`fileno(NULL)` after a failed `fopen`).
Undefined behaviour of the parent (indexing `environment_pipes` with `-1`, running off the end
of the holder array, peeking into an empty deque) is a failure (`none`) of the whole call, and
so is quash's own exit when `pipe` fails: in both cases `run_script` does not return.

## Main definitions

* `Quash.checkJobsBgStatus`, `Quash.runKill`, `Quash.runJobs` — the loops over the job queue.
* `Quash.createProcess` — `create_process`.
* `Quash.runScript` — `run_script`.
* `Quash.Reachable` — the states quash reaches from start-up.

## Main results

* `Quash.checkJobsBgStatus_eq` — the check keeps, in order, the jobs with a process still
  running, with just those processes, and reports the others complete.
* `Quash.runKill_eq` — `run_kill` signals every process of every job with the id and empties
  those jobs' deques, leaving the jobs queued.
* `Quash.runJobs_eq` — `run_jobs` lists the queue in order and leaves it as it was.
-/

namespace Quash

/-! ### The loops over the job queue -/

/-- One round of the inner loop of `check_jobs_bg_status`: a process for which
`waitpid(pid, &wait, WNOHANG)` returns `0`, still running, goes back on the deque. -/
def pollStep (alive : Int → Bool) (pid : Int) : Option (Option Int × List Effect) :=
  some (if alive pid then some pid else none, [])

/-- One round of the outer loop of `check_jobs_bg_status`: poll every process of the job. A job
left with none is reported complete (with the pid `1234` the code passes) and dropped; any
other goes back on the queue with the processes still running. -/
def checkStep (alive : Int → Bool) (j : Job) : Option (Option Job × List Effect) :=
  (rotate (pollStep alive) j.pidQueue.length j.pidQueue).map fun r =>
    if r.1.isEmpty then (none, [.bgComplete j.jobId 1234 j.cmd])
    else (some { j with pidQueue := r.1 }, [])

/-- `check_jobs_bg_status()`: one round per job queued when it starts. -/
def checkJobsBgStatus (alive : Int → Bool) (sh : Shell) : Option Shell :=
  (rotate (checkStep alive) sh.jobs.length sh.jobs).map fun r =>
    { sh with jobs := r.1, log := sh.log ++ r.2 }

/-- One round of the inner loop of `run_kill`: pop a process id and `kill(pid, signal)`; the id
is not pushed back. -/
def killPidStep (sig pid : Int) : Option (Option Int × List Effect) :=
  some (none, [.signal pid sig])

/-- One round of the outer loop of `run_kill`: a job with the id has every process popped and
signalled; every job goes back on the queue. -/
def killStep (sig job : Int) (j : Job) : Option (Option Job × List Effect) :=
  if j.jobId = job then
    (rotate (killPidStep sig) j.pidQueue.length j.pidQueue).map fun r =>
      (some { j with pidQueue := r.1 }, r.2)
  else some (some j, [])

/-- `run_kill(cmd)` for `kill signal job`. -/
def runKill (sig job : Int) (sh : Shell) : Option Shell :=
  (rotate (killStep sig job) sh.jobs.length sh.jobs).map fun r =>
    { sh with jobs := r.1, log := sh.log ++ r.2 }

/-- One round of `run_jobs`: print the job (with the pid `1234`) and push it back. -/
def listStep (j : Job) : Option (Option Job × List Effect) :=
  some (some j, [.listed j.jobId 1234 j.cmd])

/-- `run_jobs()` on a job queue. Its loop rereads the length of the queue each round; every
round pops one job and pushes one back, so that is the length it started with. -/
def runJobs (jobs : List Job) : Option (List Job × List Effect) :=
  if jobs.isEmpty then some (jobs, []) else rotate listStep jobs.length jobs

/-! ### Built-ins -/

/-- `setenv(name, val, 1)`, which fails with `EINVAL` on an empty name or one containing
`=`. -/
def setenv (env : String → Option String) (name val : String) : String → Option String :=
  if name = "" ∨ name.contains '=' then env else Function.update env name (some val)

/-- `run_export(cmd)`. -/
def runExport (envVar val : String) (sh : Shell) : Shell :=
  { sh with env := setenv sh.env envVar val }

/-- `run_cd(cmd)`: with no directory, an error; otherwise `chdir(dir)`, whose failure is not
checked, and `PWD` set to `dir` and `OLD_PWD` to the directory before. -/
def runCd (os : Os) (dir : Option String) (sh : Shell) : Shell :=
  match dir with
  | none => { sh with log := sh.log ++ [.error "ERROR: Failed to resolve path"] }
  | some d =>
    { sh with
      cwd := (os.chdir sh.cwd d).getD sh.cwd
      env := setenv (setenv sh.env "PWD" d) "OLD_PWD" sh.cwd }

/-- `parent_run_command(cmd)`: the built-ins that change quash itself. -/
def parentRunCommand (os : Os) (cmd : Command) (sh : Shell) : Option Shell :=
  match cmd with
  | .exportVar envVar val => some (runExport envVar val sh)
  | .cd dir => some (runCd os dir sh)
  | .kill sig job => runKill sig job sh
  | _ => some sh

/-- `child_run_command(cmd)`: what the child does with its command, on its copy of quash's
state. -/
def childRunCommand (os : Os) (cmd : Command) (sh : Shell) : Option (List Effect) :=
  match cmd with
  | .generic args =>
    some (if os.execs args then [.exec args] else [.error "ERROR: Failed to execute program"])
  | .echo args => some [.echo args]
  | .pwd => some [.pwd sh.cwd]
  | .jobs => (runJobs sh.jobs).map (·.2)
  | _ => some []

/-! ### `create_process` -/

/-- A child of quash when it runs its command: its descriptor table and what it does. -/
structure Child where
  fds : Fds
  out : List Effect

/-- A redirect in the child: `fopen(path, mode)` opens the lowest free descriptor and `dup2`
points `target` at it. When `fopen` fails, `fileno(NULL)` is undefined. -/
def redirect (os : Os) (path : String) (mode : FileMode) (target : Nat) (t : Fds) : Option Fds :=
  if os.opens path mode then
    let r := t.alloc (.file path mode)
    some (r.2.dup2 r.1 target)
  else none

/-- The child's branch of `create_process` up to its command: the redirects, then
`dup2(environment_pipes[prev_pipe][READ], STDIN_FILENO)` and
`close(environment_pipes[prev_pipe][WRITE])` for `PIPE_IN`, then
`dup2(environment_pipes[next_pipe][WRITE], STDOUT_FILENO)` and
`close(environment_pipes[next_pipe][READ])` for `PIPE_OUT`, on its copy of the table. -/
def childSetup (os : Os) (holder : CommandHolder) (sh : Shell) : Option Fds :=
  let fl := holder.flags
  (if fl.redirectIn then redirect os holder.redirectIn .read 0 sh.fds else some sh.fds).bind
    fun t₁ =>
  (if fl.redirectOut then
    redirect os holder.redirectOut (if fl.redirectAppend then .append else .write) 1 t₁
  else some t₁).bind fun t₂ =>
  (if fl.pipeIn then (sh.slot sh.prevPipe).map fun p => (t₂.dup2 p.1 0).close p.2
  else some t₂).bind fun t₃ =>
  if fl.pipeOut then (sh.slot sh.nextPipe).map fun p => (t₃.dup2 p.2 1).close p.1 else some t₃

/-- The child of `create_process`: its set-up, then `child_run_command`. -/
def childProcess (os : Os) (holder : CommandHolder) (sh : Shell) : Option Child := do
  let t ← childSetup os holder sh
  let out ← childRunCommand os holder.cmd sh
  pure ⟨t, out⟩

/-- Quash once `pipe(environment_pipes[next_pipe])` has created the next pipe: its two
descriptors are open and stored in the slot. -/
def Shell.addPipe (sh : Shell) : Shell :=
  let r := sh.fds.pipe sh.pipeCount
  { sh with fds := r.2, pipes := sh.pipes.set sh.nextPipe.toNat r.1, pipeCount := sh.pipeCount + 1 }

/-- `pipe(environment_pipes[next_pipe])`; indexing outside the array is undefined, and when
`pipe` fails quash prints `Pipe Error` and exits, so that the call does not return either. -/
def Shell.openPipe (os : Os) (sh : Shell) : Option Shell :=
  if os.pipe sh.pipeCount then (sh.slot sh.nextPipe).map fun _ => sh.addPipe else none

/-- `close(environment_pipes[p][e])` in quash, for the end `e` that `pick` selects. -/
def Shell.closeSlot (sh : Shell) (p : Int) (pick : Nat × Nat → Nat) : Option Shell :=
  (sh.slot p).map fun s => { sh with fds := sh.fds.close (pick s) }

/-- Creating the output pipe, if there is one, gives quash the new pipe or nothing. -/
theorem Shell.openPipe_cases {os : Os} {b : Bool} {sh sh₁ : Shell}
    (h : (if b then sh.openPipe os else some sh) = some sh₁) : sh₁ = sh ∨ sh₁ = sh.addPipe := by
  split_ifs at h
  · unfold Shell.openPipe at h
    split_ifs at h
    obtain ⟨_, -, rfl⟩ := Option.map_eq_some'.1 h
    exact .inr rfl
  · exact .inl (Option.some.inj h).symm

/-- Closing a pipe end, if quash does, changes only its descriptor table. -/
theorem Shell.closeSlot_cases {b : Bool} {sh sh₂ : Shell} {p : Int} {pick : Nat × Nat → Nat}
    (h : (if b then sh.closeSlot p pick else some sh) = some sh₂) : ∃ t, sh₂ = { sh with fds := t } := by
  split_ifs at h
  · obtain ⟨_, -, rfl⟩ := Option.map_eq_some'.1 h
    exact ⟨_, rfl⟩
  · exact ⟨sh.fds, (Option.some.inj h).symm⟩

/-- `create_process(holder, cJob)` as the `i`-th process of its job, with `pids` the job's
deque so far: create the output pipe, fork, and in the parent close the pipe ends the children
use, advance `next_pipe` and `prev_pipe` (with C's `%`), push the pid on the front of the deque
and run `parent_run_command`. -/
def createProcess (os : Os) (i : Nat) (holder : CommandHolder) (sh : Shell) (pids : List Int) :
    Option (Shell × List Int × Option Child) :=
  let fl := holder.flags
  (if fl.pipeOut then sh.openPipe os else some sh).bind fun sh₁ =>
  (if fl.pipeIn then sh₁.closeSlot sh₁.prevPipe Prod.fst else some sh₁).bind fun sh₂ =>
  (if fl.pipeOut then sh₂.closeSlot sh₂.nextPipe Prod.snd else some sh₂).bind fun sh₃ =>
  (parentRunCommand os holder.cmd
    { sh₃ with nextPipe := (sh₃.nextPipe + 1).tmod 2, prevPipe := (sh₃.prevPipe + 1).tmod 2 }).map
    fun sh₄ => (sh₄, os.fork i :: pids, if os.fork i = -1 then none else childProcess os holder sh₁)

/-- The loop of `run_script` that calls `create_process` on `holders[i]`, `holders[i+1]`, … up
to the first `EOC`; running off the end of the array is undefined. -/
def processLoop (os : Os) : Nat → List CommandHolder → Shell → List Int →
    Option (Shell × List Int × List Child)
  | _, [], _, _ => none
  | i, h :: hs, sh, pids =>
    if h.cmd = .eoc then some (sh, pids, [])
    else (createProcess os i h sh pids).bind fun r =>
      (processLoop os (i + 1) hs r.1 r.2.1).map fun s => (s.1, s.2.1, r.2.2.toList ++ s.2.2)

/-- The first call of `run_script` creates the job queue and clears `init_flag`. -/
def Shell.resetJobs (sh : Shell) : Shell :=
  if sh.initFlag then { sh with jobs := [], initFlag := false } else sh

@[simp] theorem Shell.resetJobs_initFlag (sh : Shell) : sh.resetJobs.initFlag = false := by
  unfold Shell.resetJobs
  split_ifs with h
  · rfl
  · simpa using h

@[simp] theorem Shell.resetJobs_log (sh : Shell) : sh.resetJobs.log = sh.log := by
  unfold Shell.resetJobs
  split_ifs <;> rfl

/-- The end of `run_script` once the job's processes are created, from the loop's shell, deque
of pids and children: a foreground job waits for each pid, popped from the front; a background
job is queued with the id one more than the queue's length and announced with the pid at the
front of its deque. -/
def finishJob (os : Os) (background : Bool) (r : Shell × List Int × List Child) :
    Option (Shell × List Child) :=
  if background then
    r.2.1.head?.map fun pid =>
      let job : Job := ⟨r.1.jobs.length + 1, r.2.1, os.cmdString⟩
      ({ r.1 with jobs := r.1.jobs ++ [job], log := r.1.log ++ [.bgStart job.jobId pid job.cmd] },
        r.2.2)
  else some ({ r.1 with log := r.1.log ++ r.2.1.map .wait }, r.2.2)

/-- `run_script(holders)`: on `NULL` nothing; otherwise create the job queue the first time,
check the background jobs, stop on a lone `exit`, create the job's processes, and finish the
job. -/
def runScript (os : Os) (holders : Option (List CommandHolder)) (sh : Shell) :
    Option (Shell × List Child) :=
  match holders with
  | none => some (sh, [])
  | some hs =>
    (checkJobsBgStatus os.alive sh.resetJobs).bind fun sh₂ =>
    (hs[0]?).bind fun h₀ =>
    (if h₀.cmd = .exit then (hs[1]?).map fun h₁ => decide (h₁.cmd = .eoc) else some false).bind
      fun stop =>
    if stop then some ({ sh₂ with running := false }, [])
    else (processLoop os 0 hs sh₂ []).bind (finishJob os h₀.flags.background)

/-- The states quash reaches from start-up with descriptor `i` open exactly when `openFds[i]`:
`run_script` is called while the main loop runs, on command lines that satisfy `P`, what the
parser guarantees. -/
inductive Reachable (P : Option (List CommandHolder) → Prop) (openFds : List Bool) : Shell → Prop
  | init (env : String → Option String) (cwd : String) :
      Reachable P openFds (Shell.init openFds env cwd)
  | step {sh sh' : Shell} {cs : List Child} (os : Os) {hs : Option (List CommandHolder)} :
      Reachable P openFds sh → sh.running = true → P hs → runScript os hs sh = some (sh', cs) →
      Reachable P openFds sh'

/-! ### The loops over the job queue, as list functions -/

/-- The processes of a job still running, in deque order. -/
def Job.alivePids (alive : Int → Bool) (j : Job) : List Int := j.pidQueue.filter alive

theorem rotate_pollStep (alive : Int → Bool) (l : List Int) :
    rotate (pollStep alive) l.length l = some (l.filter alive, []) := by
  rw [rotate_length (f := pollStep alive) (g := fun p => (if alive p then some p else none, []))
    fun _ => rfl]
  congr 2
  · induction l with
    | nil => rfl
    | cons p l ih => by_cases h : alive p <;> simp [List.filter_cons, h, ih]
  · simp

theorem checkStep_eq (alive : Int → Bool) (j : Job) :
    checkStep alive j = some (if (j.alivePids alive).isEmpty then (none, [.bgComplete j.jobId 1234 j.cmd])
      else (some { j with pidQueue := j.alivePids alive }, [])) := by
  simp only [checkStep, rotate_pollStep, Option.map_some', Job.alivePids]

/-- **`check_jobs_bg_status`** keeps, in queue order, every job with a process still running,
holding just those processes in deque order, and reports the others complete, in queue
order. -/
theorem checkJobsBgStatus_eq (alive : Int → Bool) (sh : Shell) :
    checkJobsBgStatus alive sh = some { sh with
      jobs := sh.jobs.filterMap fun j =>
        if (j.alivePids alive).isEmpty then none else some { j with pidQueue := j.alivePids alive }
      log := sh.log ++ sh.jobs.flatMap fun j =>
        if (j.alivePids alive).isEmpty then [.bgComplete j.jobId 1234 j.cmd] else [] } := by
  unfold checkJobsBgStatus
  rw [rotate_length (checkStep_eq alive)]
  simp only [Option.map_some', apply_ite Prod.fst, apply_ite Prod.snd]

theorem rotate_killPidStep (sig : Int) (l : List Int) :
    rotate (killPidStep sig) l.length l = some ([], l.map fun p => .signal p sig) := by
  rw [rotate_length (f := killPidStep sig) (g := fun p => (none, [.signal p sig])) fun _ => rfl]
  simp [← List.map_eq_flatMap]

/-- **`run_kill`** sends the signal to every process of every job with the id, in queue and
deque order, and leaves those jobs on the queue with empty deques; it changes no other job. -/
theorem runKill_eq (sig job : Int) (sh : Shell) :
    runKill sig job sh = some { sh with
      jobs := sh.jobs.map fun j => if j.jobId = job then { j with pidQueue := [] } else j
      log := sh.log ++ sh.jobs.flatMap fun j =>
        if j.jobId = job then j.pidQueue.map fun p => .signal p sig else [] } := by
  unfold runKill
  rw [rotate_length (f := killStep sig job) (g := fun j =>
    (some (if j.jobId = job then { j with pidQueue := [] } else j),
      if j.jobId = job then j.pidQueue.map fun p => .signal p sig else [])) fun j => by
      by_cases h : j.jobId = job <;> simp [killStep, h, rotate_killPidStep]]
  simp only [Option.map_some']
  rw [← Function.comp_def some, List.filterMap_eq_map]

/-- **`run_jobs`** lists every job, in queue order, and leaves the queue as it was. -/
theorem runJobs_eq (jobs : List Job) :
    runJobs jobs = some (jobs, jobs.map fun j => .listed j.jobId 1234 j.cmd) := by
  unfold runJobs
  split_ifs with h
  · simp [List.isEmpty_iff.1 h]
  · rw [rotate_length (f := listStep) (g := fun j => (some j, [.listed j.jobId 1234 j.cmd]))
      fun _ => rfl]
    simp [← List.map_eq_flatMap]

end Quash
