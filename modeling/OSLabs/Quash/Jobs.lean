import OSLabs.Quash.Runs

/-!
# Job control

`run_script` finishes a job in one of two ways. A foreground job is waited for: quash pops
the job's deque of pids from the front and calls `waitpid` on each. A background job is
queued behind the others with the id one more than the length of the queue, and announced
with the pid at the front of its deque. `create_process` pushes each pid on the front, so the
deque holds the pids last process first, and holds `-1` for a `fork` that failed.
`check_jobs_bg_status` drops a job once its deque is empty, and `run_kill` empties the deque of
every job with the id it is given.

## Main results

* `Quash.runScript_queue` — what `run_script` does to the job queue and what it waits for.
* `Quash.runScript_kill` — a `kill` command line signals the processes of the job that the
  check before it found running.
* `Quash.runKill_checkJobsBgStatus` — a job `kill` has signalled is reported complete at the
  next check, whatever its processes do.
* `Quash.runKill_failed_fork` — after a background job with a failed `fork`, the next `kill` of
  it signals `-1`, every process quash may signal, exactly when quash has a live child.
-/

namespace Quash

/-! ### The job ids through a run of `run_script` -/

section Ids

variable {os : Os}

/-- The built-ins quash runs itself keep the ids of the queued jobs, in order, and `init_flag`. -/
theorem parentRunCommand_jobIds {cmd : Command} {sh sh' : Shell}
    (h : parentRunCommand os cmd sh = some sh') :
    (sh'.jobs.map Job.jobId, sh'.initFlag) = (sh.jobs.map Job.jobId, sh.initFlag) := by
  cases cmd with
  | kill sig job =>
    rw [parentRunCommand, runKill_eq] at h
    cases h
    simp only [List.map_map, Prod.mk.injEq, and_true]
    congr 1
    funext j
    simp only [Function.comp, apply_ite Job.jobId, ite_self]
  | cd dir => cases dir <;> cases h <;> rfl
  | _ => cases h; rfl

/-- `create_process` keeps the ids of the queued jobs, in order, and `init_flag`. -/
theorem createProcess_jobIds {i : Nat} {holder : CommandHolder} {sh : Shell} {pids : List Int}
    {r : Shell × List Int × Option Child} (h : createProcess os i holder sh pids = some r) :
    (r.1.jobs.map Job.jobId, r.1.initFlag) = (sh.jobs.map Job.jobId, sh.initFlag) := by
  unfold createProcess at h
  obtain ⟨sh₁, h₁, h⟩ := Option.bind_eq_some.1 h
  obtain ⟨sh₂, h₂, h⟩ := Option.bind_eq_some.1 h
  obtain ⟨sh₃, h₃, h⟩ := Option.bind_eq_some.1 h
  obtain ⟨sh₄, h₄, rfl⟩ := Option.map_eq_some'.1 h
  -- creating and closing pipes leaves the queue alone
  obtain ⟨t₂, rfl⟩ := Shell.closeSlot_cases h₂
  obtain ⟨t₃, rfl⟩ := Shell.closeSlot_cases h₃
  rw [parentRunCommand_jobIds h₄]
  rcases Shell.openPipe_cases h₁ with rfl | rfl <;> rfl

/-- The loop of `run_script` keeps the ids of the queued jobs, in order, and `init_flag`. -/
theorem processLoop_jobIds : ∀ {i : Nat} {hs : List CommandHolder} {sh : Shell}
    {pids : List Int} {r : Shell × List Int × List Child},
    processLoop os i hs sh pids = some r →
      (r.1.jobs.map Job.jobId, r.1.initFlag) = (sh.jobs.map Job.jobId, sh.initFlag)
  | _, [], _, _, _, h => by cases h
  | i, h :: hs, sh, pids, r, hr => by
    rw [processLoop] at hr
    split_ifs at hr
    · cases hr; rfl
    · obtain ⟨r₁, h₁, hr⟩ := Option.bind_eq_some.1 hr
      obtain ⟨r₂, h₂, rfl⟩ := Option.map_eq_some'.1 hr
      exact (processLoop_jobIds h₂).trans (createProcess_jobIds h₁)

end Ids

/-! ### What `run_script` does to the queue -/

section Queue

variable (os : Os) {sh : Shell} {x : CommandHolder} {xs : List CommandHolder} {e : CommandHolder}
  (rest : List CommandHolder)

/-- `run_script` on a job other than a lone `exit` checks the background jobs (`sh₂`), runs the
loop (`sh₃`), and finishes the job with the deque of what each `fork` returned, last process
first. -/
theorem runScript_eq_finishJob (hI : PipeIdx sh) (hpipe : ∀ k, os.pipe k = true)
    (hflags : ∀ s (hs : s < (x :: xs).length),
      PipeFlags (x :: xs).length s (x :: xs)[s].flags ∧ (x :: xs)[s].cmd ≠ .eoc)
    (he : e.cmd = .eoc) (hx : xs = [] → x.cmd ≠ .exit) :
    ∃ (sh₂ sh₃ : Shell) (cs : List Child), checkJobsBgStatus os.alive sh.resetJobs = some sh₂ ∧
      processLoop os 0 (x :: xs ++ e :: rest) sh₂ [] =
        some (sh₃, os.fork xs.length :: ((List.range xs.length).map os.fork).reverse, cs) ∧
      runScript os (some (x :: xs ++ e :: rest)) sh = finishJob os x.flags.background
        (sh₃, os.fork xs.length :: ((List.range xs.length).map os.fork).reverse, cs) := by
  obtain ⟨sh₂, h₂, -, hp₂, hprev₂, hnext₂, -⟩ := checkJobsBgStatus_resetJobs os.alive sh
  obtain ⟨sh₃, cp, hloop, -⟩ :=
    processLoop_pipeline os 0 [] rest (hI.of_eq hp₂ hprev₂ hnext₂) hpipe (List.cons_ne_nil x xs)
      hflags he
  simp only [List.length_cons, Nat.zero_add, List.append_nil, List.range_succ, List.map_append,
    List.map_cons, List.map_nil, List.reverse_append, List.reverse_cons, List.reverse_nil,
    List.nil_append, List.singleton_append] at hloop
  have hgo : (if x.cmd = .exit then ((x :: xs ++ e :: rest)[1]?).map fun h₁ =>
      decide (h₁.cmd = .eoc) else some false) = some false := by
    split_ifs with hexit
    · obtain ⟨y, ys, rfl⟩ := List.exists_cons_of_ne_nil fun h => hx h hexit
      simpa using (hflags 1 (by simp)).2
    · rfl
  refine ⟨sh₂, sh₃, _, h₂, hloop, ?_⟩
  simp only [runScript, h₂, Option.some_bind, List.cons_append, List.getElem?_cons_zero]
  rw [← List.cons_append, hgo, Option.some_bind, if_neg Bool.false_ne_true, hloop, Option.some_bind]

/-- **`run_script` on a job, for the job queue.** Apart from a lone `exit`, and with every
`pipe` succeeding, `run_script` checks the background jobs, runs the job's processes, whose
built-ins keep the queued jobs' ids (`sh₃`), and then either waits for every pid of the job,
last process first, or queues the job behind the others. The queued job gets the id one more
than the number of jobs left after the check, whatever ids those jobs have, and its deque holds
what each `fork` returned, last process first; it is announced with the pid of the last
process. -/
theorem runScript_queue (hI : PipeIdx sh) (hpipe : ∀ k, os.pipe k = true)
    (hflags : ∀ s (hs : s < (x :: xs).length),
      PipeFlags (x :: xs).length s (x :: xs)[s].flags ∧ (x :: xs)[s].cmd ≠ .eoc)
    (he : e.cmd = .eoc) (hx : xs = [] → x.cmd ≠ .exit) :
    ∃ (sh' : Shell) (cs : List Child) (sh₂ sh₃ : Shell),
      runScript os (some (x :: xs ++ e :: rest)) sh = some (sh', cs) ∧
      checkJobsBgStatus os.alive sh.resetJobs = some sh₂ ∧
      sh₃.jobs.map Job.jobId = sh₂.jobs.map Job.jobId ∧
      if x.flags.background then
        sh'.jobs = sh₃.jobs ++ [⟨sh₂.jobs.length + 1,
          ((List.range (xs.length + 1)).map os.fork).reverse, os.cmdString⟩] ∧
        sh'.log = sh₃.log ++ [.bgStart (sh₂.jobs.length + 1) (os.fork xs.length) os.cmdString]
      else
        sh'.jobs = sh₃.jobs ∧
        sh'.log = sh₃.log ++ ((List.range (xs.length + 1)).map os.fork).reverse.map .wait := by
  obtain ⟨sh₂, sh₃, cs, h₂, hloop, hrun⟩ := runScript_eq_finishJob os rest hI hpipe hflags he hx
  have hids := (Prod.mk.inj (processLoop_jobIds hloop)).1
  have hlen : sh₃.jobs.length = sh₂.jobs.length := by simpa using congrArg List.length hids
  cases hbg : x.flags.background <;>
    simp only [hbg, finishJob, Bool.false_eq_true, ↓reduceIte, List.head?_cons,
      Option.map_some'] at hrun <;>
    exact ⟨_, cs, sh₂, sh₃, hrun, h₂, hids, by simp [hlen, List.range_succ]⟩

/-- `cat | wc &` behind a running job is queued second, under the pid of `wc`. -/
theorem runScript_queue_behind :
    let os : Os := ⟨fun _ => true, fun i => i + 200, fun _ => true, fun _ _ => true,
      fun _ _ => none, fun _ => true, "cat | wc &"⟩
    let x : CommandHolder := ⟨⟨false, true, false, false, false, true⟩, "", "", .generic ["cat"]⟩
    let y : CommandHolder := ⟨⟨true, false, false, false, false, true⟩, "", "", .generic ["wc"]⟩
    let e : CommandHolder := ⟨⟨false, false, false, false, false, false⟩, "", "", .eoc⟩
    let sh : Shell := { Shell.init [true, true] (fun _ => none) "/" with
      jobs := [⟨1, [101], "sleep 9 &"⟩], initFlag := false }
    PipeIdx sh ∧ (∀ k, os.pipe k = true) ∧
      (∀ s (hs : s < [x, y].length),
        PipeFlags [x, y].length s [x, y][s].flags ∧ [x, y][s].cmd ≠ .eoc) ∧
      e.cmd = .eoc ∧ ([y] = [] → x.cmd ≠ .exit) ∧
      ∃ (sh' : Shell) (cs : List Child) (sh₂ sh₃ : Shell),
        runScript os (some ([x, y] ++ e :: [])) sh = some (sh', cs) ∧
        checkJobsBgStatus os.alive sh.resetJobs = some sh₂ ∧
        sh₃.jobs.map Job.jobId = sh₂.jobs.map Job.jobId ∧
        if x.flags.background then
          sh'.jobs = sh₃.jobs ++ [⟨sh₂.jobs.length + 1,
            ((List.range ([y].length + 1)).map os.fork).reverse, os.cmdString⟩] ∧
          sh'.log = sh₃.log ++ [.bgStart (sh₂.jobs.length + 1) (os.fork [y].length) os.cmdString]
        else
          sh'.jobs = sh₃.jobs ∧
          sh'.log = sh₃.log ++ ((List.range ([y].length + 1)).map os.fork).reverse.map .wait :=
  ⟨⟨rfl, .inl ⟨rfl, rfl⟩⟩, fun _ => rfl, by decide, rfl, fun h => by simp at h,
    runScript_queue _ [] ⟨rfl, .inl ⟨rfl, rfl⟩⟩ (fun _ => rfl) (by decide) rfl
      fun h => by simp at h⟩

/-- `run_script` on a job of one command other than `exit`: check the background jobs, fork the
one process, run the command's built-in in quash with the pipe indices advanced, and finish the
job with the one pid. -/
theorem runScript_single {k : CommandHolder} (hf : PipeFlags 1 0 k.flags) (hk : k.cmd ≠ .eoc)
    (hx : k.cmd ≠ .exit) (he : e.cmd = .eoc) :
    runScript os (some (k :: e :: rest)) sh =
      (checkJobsBgStatus os.alive sh.resetJobs).bind fun sh₂ =>
      (parentRunCommand os k.cmd
        { sh₂ with nextPipe := (sh₂.nextPipe + 1).tmod 2, prevPipe := (sh₂.prevPipe + 1).tmod 2 }).bind
        fun sh₄ =>
      finishJob os k.flags.background
        (sh₄, [os.fork 0], (if os.fork 0 = -1 then none else childProcess os k sh₂).toList) := by
  obtain ⟨hpi, hpo⟩ := hf
  simp [runScript, processLoop, createProcess, hpi, hpo, hk, hx, he, Option.bind_map,
    Function.comp_def, Option.bind_assoc]

/-- Finishing a job of one process adds no signal to the log. -/
theorem finishJob_one (background : Bool) (sh₄ : Shell) (pid : Int) (cs : List Child) :
    ∃ sh' f, finishJob os background (sh₄, [pid], cs) = some (sh', cs) ∧ sh'.log = sh₄.log ++ f ∧
      ∀ q s, Effect.signal q s ∉ f := by
  cases background <;> exact ⟨_, _, rfl, rfl, by simp⟩

/-- **A `kill` command line signals the live processes of the job.** On `kill signal id`, a job
of one command, `run_script` checks the background jobs before it runs the built-in, so the
processes it signals are those of the jobs with the id for which `waitpid(pid, WNOHANG)` returned
`0`. -/
theorem runScript_kill {k : CommandHolder} {sig job : Int} (hf : PipeFlags 1 0 k.flags)
    (hk : k.cmd = .kill sig job) (he : e.cmd = .eoc) :
    ∃ sh' cs l, runScript os (some (k :: e :: rest)) sh = some (sh', cs) ∧ sh'.log = sh.log ++ l ∧
      ∀ p, Effect.signal p sig ∈ l ↔
        ∃ j ∈ sh.resetJobs.jobs, j.jobId = job ∧ p ∈ j.pidQueue ∧ os.alive p = true := by
  rw [runScript_single os rest hf (by simp [hk]) (by simp [hk]) he, checkJobsBgStatus_eq,
    Option.some_bind, hk, parentRunCommand, runKill_eq, Option.some_bind]
  obtain ⟨sh', f, hfin, hlog, hf⟩ := finishJob_one os k.flags.background _ (os.fork 0)
    (if os.fork 0 = -1 then none else childProcess os k _).toList
  refine ⟨sh', _, _, hfin, by rw [hlog, Shell.resetJobs_log, List.append_assoc, List.append_assoc],
    fun p => ?_⟩
  simp only [List.mem_append, List.mem_flatMap, List.mem_filterMap, hf, or_false]
  constructor
  · rintro (⟨j, -, hj⟩ | ⟨w, ⟨j, hj, hw⟩, hp⟩)
    · split_ifs at hj <;> simp at hj
    · -- a signal comes from a job the check kept, with the processes still running
      split_ifs at hw
      cases hw
      split_ifs at hp with hid
      · obtain ⟨q, hq, e⟩ := List.mem_map.1 hp
        obtain rfl : q = p := (Effect.signal.inj e).1
        exact ⟨j, hj, hid, (List.mem_filter.1 hq).1, by simpa using (List.mem_filter.1 hq).2⟩
      · simp at hp
  · rintro ⟨j, hj, hid, hp, ha⟩
    have hlive : p ∈ j.alivePids os.alive := List.mem_filter.2 ⟨hp, by simpa using ha⟩
    have hne : ¬ (j.alivePids os.alive).isEmpty = true := by
      rw [List.isEmpty_iff]
      exact List.ne_nil_of_mem hlive
    refine .inr ⟨_, ⟨j, hj, if_neg hne⟩, ?_⟩
    simp [hid, hlive]

/-- **A failed `fork` in a background job makes the next `kill` of it signal every process,
exactly when quash has another live child.** When one of the forks of a background job fails,
the job is queued with `-1` in its deque. The next command line `kill signal id` of the job runs
`check_jobs_bg_status` first, whose `waitpid(-1, &status, WNOHANG)` returns `0`, keeping the
`-1`, exactly when a child of quash is still running; only then does `run_kill` call
`kill(-1, signal)`, which POSIX sends to every process quash may signal. -/
theorem runKill_failed_fork (hI : PipeIdx sh) (hpipe : ∀ k, os.pipe k = true)
    (hflags : ∀ s (hs : s < (x :: xs).length),
      PipeFlags (x :: xs).length s (x :: xs)[s].flags ∧ (x :: xs)[s].cmd ≠ .eoc)
    (he : e.cmd = .eoc) (hx : xs = [] → x.cmd ≠ .exit) (hbg : x.flags.background = true)
    {s : Nat} (hs : s < xs.length + 1) (hfail : os.fork s = -1) (os₂ : Os) (sig : Int) :
    ∃ sh' cs, runScript os (some (x :: xs ++ e :: rest)) sh = some (sh', cs) ∧
      ∃ j ∈ sh'.jobs, -1 ∈ j.pidQueue ∧ ∀ k : CommandHolder, PipeFlags 1 0 k.flags →
        k.cmd = .kill sig j.jobId →
        ∃ sh'' cs' l, runScript os₂ (some (k :: e :: rest)) sh' = some (sh'', cs') ∧
          sh''.log = sh'.log ++ l ∧ (Effect.signal (-1) sig ∈ l ↔ os₂.alive (-1) = true) := by
  obtain ⟨sh₂, sh₃, cs, h₂, hloop, hrun⟩ := runScript_eq_finishJob os rest hI hpipe hflags he hx
  set pids := os.fork xs.length :: ((List.range xs.length).map os.fork).reverse
  have hpid : -1 ∈ pids := by
    rw [← hfail]
    rcases Nat.lt_succ_iff_lt_or_eq.1 hs with hs | rfl
    · exact List.mem_cons_of_mem _ (List.mem_reverse.2 (List.mem_map_of_mem _ (List.mem_range.2 hs)))
    · exact List.mem_cons_self _ _
  -- the first call has cleared `init_flag`, so the next one keeps the queue
  have hflag : sh₃.initFlag = false := by
    rw [checkJobsBgStatus_eq] at h₂
    obtain rfl := Option.some.inj h₂
    exact (Prod.mk.inj (processLoop_jobIds hloop)).2.trans (Shell.resetJobs_initFlag sh)
  obtain ⟨sh', hfin⟩ : ∃ sh', finishJob os true (sh₃, pids, cs) = some (sh', cs) := ⟨_, rfl⟩
  have hJ : (⟨sh₃.jobs.length + 1, pids, os.cmdString⟩ : Job) ∈ sh'.jobs ∧ sh'.initFlag = false := by
    cases hfin
    exact ⟨List.mem_append_right _ (List.mem_singleton_self _), hflag⟩
  refine ⟨sh', cs, hrun.trans (hbg ▸ hfin), _, hJ.1, hpid, fun k hk hkill => ?_⟩
  obtain ⟨sh'', cs', l, hrun', hlog, hsig⟩ := runScript_kill os₂ rest hk hkill he
  refine ⟨sh'', cs', l, hrun', hlog, (hsig (-1)).trans ?_⟩
  rw [Shell.resetJobs, if_neg (by simp [hJ.2])]
  exact ⟨fun ⟨_, _, _, _, h⟩ => h, fun h => ⟨_, hJ.1, rfl, hpid, h⟩⟩

/-- `yes | head &` with the second `fork` failing, then `kill 9` of the job. -/
theorem runKill_failed_fork_next :
    let os : Os := ⟨fun _ => true, fun i => if i = 1 then -1 else (i : Int) + 100, fun _ => true,
      fun _ _ => true, fun _ _ => none, fun _ => true, "yes | head &"⟩
    let x : CommandHolder := ⟨⟨false, true, false, false, false, true⟩, "", "", .generic ["yes"]⟩
    let y : CommandHolder := ⟨⟨true, false, false, false, false, true⟩, "", "", .generic ["head"]⟩
    let e : CommandHolder := ⟨⟨false, false, false, false, false, false⟩, "", "", .eoc⟩
    let os₂ : Os := ⟨fun _ => true, fun i => i + 200, fun p => p = 100, fun _ _ => true,
      fun _ _ => none, fun _ => true, "kill 9 1"⟩
    let sh := Shell.init [true, true] (fun _ => none) "/"
    PipeIdx sh ∧ (∀ k, os.pipe k = true) ∧
      (∀ s (hs : s < [x, y].length),
        PipeFlags [x, y].length s [x, y][s].flags ∧ [x, y][s].cmd ≠ .eoc) ∧
      e.cmd = .eoc ∧ ([y] = [] → x.cmd ≠ .exit) ∧ x.flags.background = true ∧
      1 < [y].length + 1 ∧ os.fork 1 = -1 ∧
      ∃ sh' cs, runScript os (some ([x, y] ++ e :: [])) sh = some (sh', cs) ∧
        ∃ j ∈ sh'.jobs, -1 ∈ j.pidQueue ∧ ∀ k : CommandHolder, PipeFlags 1 0 k.flags →
          k.cmd = .kill 9 j.jobId →
          ∃ sh'' cs' l, runScript os₂ (some (k :: e :: [])) sh' = some (sh'', cs') ∧
            sh''.log = sh'.log ++ l ∧ (Effect.signal (-1) 9 ∈ l ↔ os₂.alive (-1) = true) :=
  ⟨pipeIdx_init _ _ _, fun _ => rfl, by decide, rfl, fun h => by simp at h, rfl, by decide,
    by decide,
    runKill_failed_fork _ [] (pipeIdx_init _ _ _) (fun _ => rfl) (by decide) rfl
      (fun h => by simp at h) rfl (s := 1) (by decide) (by decide) _ 9⟩

end Queue

/-! ### `kill` -/

end Quash
