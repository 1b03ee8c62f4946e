import OSLabs.Quash.Wiring

/-!
# Runs of quash

The main loop of quash calls `run_script` on each command line the parser returns while
`end_main_loop` has not been called. The parser hands over the holders of a job, each with the
pipe flags of its place in the pipeline, ended by an `EOC` holder (`Quash.IsJob`).

Over every run of such command lines quash's own descriptor table is the one it started with
and its pipe indices stay in order (`Quash.reachable_fds`): every pipe end quash creates, it
closes, and `run_script` is defined in every state a run reaches (`Quash.runScript_defined`).
From any such state a pipeline of up to three commands is wired as a shell should, its pipes
taking precedence over its redirects (`Quash.pipeline_wired`), and every pipeline of four or
more is broken (`Quash.pipeline_unwritten`): the third process and every later one but the last
write to quash's standard output, and the process after each reads a pipe whose write end no
process holds.

## Main definitions

* `Quash.IsJob` — a command line as the parser builds it.

## Main results

* `Quash.runScript_job` — one call of `run_script` on a job.
* `Quash.reachable_fds` — quash's descriptor table over every run.
* `Quash.runScript_defined` — no undefined behaviour of quash in any reachable state.
* `Quash.pipeline_wired` — pipelines of up to three commands, redirects included.
* `Quash.pipeline_unwritten` — the pipes a pipeline of four or more leaves without a writer.
-/

namespace Quash

/-- A command line as the parser builds it: the holders `js` of a job of one or more commands,
each with the pipe flags of its place, then an `EOC` holder. -/
def IsJob (hs : List CommandHolder) : Prop :=
  ∃ js e rest, hs = js ++ e :: rest ∧ js ≠ [] ∧
    (∀ s (h : s < js.length), PipeFlags js.length s js[s].flags ∧ js[s].cmd ≠ .eoc) ∧
    e.cmd = .eoc

/-- What the parser may return: `NULL`, or a job. -/
def Parsed : Option (List CommandHolder) → Prop
  | none => True
  | some hs => IsJob hs

/-! ### One call of `run_script` -/

section Script

variable (os : Os) {sh : Shell}

/-- Creating the job queue and checking the background jobs leave the pipes and descriptors
alone. -/
theorem checkJobsBgStatus_resetJobs (alive : Int → Bool) (sh : Shell) :
    ∃ sh₂, checkJobsBgStatus alive sh.resetJobs = some sh₂ ∧ sh₂.fds = sh.fds ∧
      sh₂.pipes = sh.pipes ∧ sh₂.prevPipe = sh.prevPipe ∧ sh₂.nextPipe = sh.nextPipe ∧
      sh₂.pipeCount = sh.pipeCount := by
  refine ⟨_, checkJobsBgStatus_eq alive _, ?_⟩
  unfold Shell.resetJobs
  split_ifs <;> exact ⟨rfl, rfl, rfl, rfl, rfl⟩

/-- Waiting for a job, or queueing it, leaves the pipes and descriptors alone. -/
theorem finishJob_frame (background : Bool) {r : Shell × List Int × List Child}
    (hr : r.2.1 ≠ []) :
    ∃ sh', finishJob os background r = some (sh', r.2.2) ∧ sh'.fds = r.1.fds ∧
      sh'.pipes = r.1.pipes ∧ sh'.prevPipe = r.1.prevPipe ∧ sh'.nextPipe = r.1.nextPipe ∧
      sh'.pipeCount = r.1.pipeCount := by
  obtain ⟨pid, pids, hp⟩ := List.exists_cons_of_ne_nil hr
  unfold finishJob
  split_ifs
  · rw [hp]
    exact ⟨_, rfl, rfl, rfl, rfl, rfl, rfl⟩
  · exact ⟨_, rfl, rfl, rfl, rfl, rfl, rfl⟩

/-- The answers of `os`, with every `pipe` succeeding. -/
def Os.pipesSucceed (os : Os) : Os := { os with pipe := fun _ => true }

@[simp] theorem Os.pipesSucceed_alive : os.pipesSucceed.alive = os.alive := rfl

theorem finishJob_pipesSucceed : finishJob os.pipesSucceed = finishJob os := rfl

/-- `create_process` reads the answer of `pipe` only to fail: a call that returns, returns the
same when every `pipe` succeeds. -/
theorem createProcess_pipesSucceed {i : Nat} {holder : CommandHolder} {pids : List Int}
    {r : Shell × List Int × Option Child} (h : createProcess os i holder sh pids = some r) :
    createProcess os.pipesSucceed i holder sh pids = some r := by
  dsimp only [createProcess] at h ⊢
  obtain ⟨sh₁, h₁, h⟩ := Option.bind_eq_some.1 h
  have h₁' : (if holder.flags.pipeOut then sh.openPipe os.pipesSucceed else some sh) = some sh₁ := by
    split_ifs at h₁ ⊢
    · unfold Shell.openPipe at h₁ ⊢
      split_ifs at h₁
      exact (if_pos rfl).trans h₁
    · exact h₁
  rw [h₁', Option.some_bind]
  exact h

theorem processLoop_pipesSucceed {js : List CommandHolder} :
    ∀ {i : Nat} {sh : Shell} {pids : List Int} {r : Shell × List Int × List Child},
      processLoop os i js sh pids = some r → processLoop os.pipesSucceed i js sh pids = some r := by
  induction js with
  | nil => exact fun h => absurd h (by simp [processLoop])
  | cons x xs ih =>
    intro i sh pids r h
    rw [processLoop] at h ⊢
    split_ifs at h ⊢
    · exact h
    · obtain ⟨r₁, h₁, h⟩ := Option.bind_eq_some.1 h
      obtain ⟨r₂, h₂, rfl⟩ := Option.map_eq_some'.1 h
      rw [createProcess_pipesSucceed os h₁, Option.some_bind, ih h₂, Option.map_some']

/-- A call of `run_script` that returns, returns the same when every `pipe` succeeds. -/
theorem runScript_pipesSucceed {holders : Option (List CommandHolder)} {r : Shell × List Child}
    (h : runScript os holders sh = some r) : runScript os.pipesSucceed holders sh = some r := by
  cases holders with
  | none => exact h
  | some hs =>
    simp only [runScript, Os.pipesSucceed_alive, finishJob_pipesSucceed] at h ⊢
    obtain ⟨sh₂, h₂, h⟩ := Option.bind_eq_some.1 h
    obtain ⟨h₀, h₀', h⟩ := Option.bind_eq_some.1 h
    obtain ⟨stop, hst, h⟩ := Option.bind_eq_some.1 h
    rw [h₂, Option.some_bind, h₀', Option.some_bind, hst, Option.some_bind]
    split_ifs at h ⊢
    · exact h
    · obtain ⟨r₁, h₁, h⟩ := Option.bind_eq_some.1 h
      rw [processLoop_pipesSucceed os h₁, Option.some_bind]
      exact h

/-- **`run_script` on a job.** From a state whose pipe indices are in order, with every `pipe`
succeeding, the call returns, quash's descriptors are as before and its pipe indices in order. Unless the command line is a
lone `exit`, the children are those of `Quash.processLoop_pipeline`, one per successful `fork`,
and `n - 1` pipes were created. -/
theorem runScript_job {js : List CommandHolder} {e : CommandHolder} (rest : List CommandHolder)
    (hI : PipeIdx sh) (hpipe : ∀ k, os.pipe k = true) (hjs : js ≠ [])
    (hflags : ∀ s (hs : s < js.length), PipeFlags js.length s js[s].flags ∧ js[s].cmd ≠ .eoc)
    (he : e.cmd = .eoc) :
    ∃ sh' cs, runScript os (some (js ++ e :: rest)) sh = some (sh', cs) ∧ PipeIdx sh' ∧
      (∀ g, sh'.fds.get g = sh.fds.get g) ∧
      ((∃ x, js = [x] ∧ x.cmd = .exit ∧ cs = []) ∨
        ∃ cp : Nat → Option Child,
          cs = (List.range js.length).filterMap (fun s => if os.fork s = -1 then none else cp s) ∧
          sh'.pipeCount = sh.pipeCount + (js.length - 1) ∧
          ∀ s (hs : s < js.length), ChildOk os sh.fds sh.pipeCount js.length s js[s] (cp s)) := by
  obtain ⟨sh₂, h₂, hfds₂, hp₂, hprev₂, hnext₂, hc₂⟩ := checkJobsBgStatus_resetJobs os.alive sh
  have hI₂ : PipeIdx sh₂ := hI.of_eq hp₂ hprev₂ hnext₂
  obtain ⟨x, xs, rfl⟩ := List.exists_cons_of_ne_nil hjs
  have hx := (hflags 0 (by simp)).2
  by_cases hstop : xs = [] ∧ x.cmd = .exit
  · -- a lone `exit` ends the main loop
    obtain ⟨rfl, hexit⟩ := hstop
    refine ⟨{ sh₂ with running := false }, [], ?_, hI₂.of_eq rfl rfl rfl,
      fun g => by rw [← hfds₂], .inl ⟨x, rfl, hexit, rfl⟩⟩
    simp [runScript, h₂, hexit, he]
  · -- otherwise the job's processes are created
    have hgo : (if x.cmd = .exit then ((x :: xs ++ e :: rest)[1]?).map fun h₁ =>
        decide (h₁.cmd = .eoc) else some false) = some false := by
      split_ifs with hexit
      · obtain ⟨y, ys, rfl⟩ := List.exists_cons_of_ne_nil fun h => hstop ⟨h, hexit⟩
        simpa using (hflags 1 (by simp)).2
      · rfl
    obtain ⟨sh₃, cp, hloop, hI₃, hfds₃, hc₃, hok⟩ :=
      processLoop_pipeline os 0 [] rest hI₂ hpipe hjs hflags he
    obtain ⟨sh', hfin, hfds', hp', hprev', hnext', hc'⟩ :=
      finishJob_frame os x.flags.background
        (r := (sh₃, ((List.range (x :: xs).length).map fun s => os.fork (0 + s)).reverse ++ [],
          (List.range (x :: xs).length).filterMap fun s =>
            if os.fork (0 + s) = -1 then none else cp s)) (by simp)
    refine ⟨sh', (List.range (x :: xs).length).filterMap fun s =>
      if os.fork s = -1 then none else cp s, ?_, hI₃.of_eq hp' hprev' hnext',
      fun g => by rw [hfds', hfds₃, hfds₂], .inr ⟨cp, rfl, by rw [hc', hc₃, hc₂],
        by rwa [hfds₂, hc₂] at hok⟩⟩
    simp only [runScript, h₂, Option.some_bind, List.cons_append, List.getElem?_cons_zero]
    rw [← List.cons_append, hgo, Option.some_bind, if_neg Bool.false_ne_true, hloop]
    simpa using hfin

/-- `run_script` on whatever the parser returns, from a state whose pipe indices are in order and
with every `pipe` succeeding, returns with quash's descriptors as before and its pipe indices in
order. -/
theorem runScript_frame {holders : Option (List CommandHolder)} (hI : PipeIdx sh)
    (hpipe : ∀ k, os.pipe k = true) (hP : Parsed holders) :
    ∃ sh' cs, runScript os holders sh = some (sh', cs) ∧ PipeIdx sh' ∧
      ∀ g, sh'.fds.get g = sh.fds.get g := by
  cases holders with
  | none => exact ⟨sh, [], rfl, hI, fun _ => rfl⟩
  | some hs =>
    obtain ⟨js, e, rest, rfl, hjs, hflags, he⟩ := hP
    obtain ⟨sh', cs, h, hI', hfds', -⟩ := runScript_job os rest hI hpipe hjs hflags he
    exact ⟨sh', cs, h, hI', hfds'⟩

end Script

/-! ### Runs -/

/-- **Quash's descriptors over every run.** In every state quash reaches on command lines the
parser builds, its descriptor table is the one it started with and its pipe indices are in
order: every pipe end it creates, it closes. -/
theorem reachable_fds {openFds : List Bool} {sh : Shell} (h : Reachable Parsed openFds sh) :
    PipeIdx sh ∧ ∀ g, sh.fds.get g = (Fds.inherited openFds).get g := by
  induction h with
  | init env cwd => exact ⟨pipeIdx_init openFds env cwd, fun _ => rfl⟩
  | step os _ _ hP hrun ih =>
    obtain ⟨sh', cs, h, hI', hfds'⟩ := runScript_frame os.pipesSucceed ih.1 (fun _ => rfl) hP
    obtain ⟨rfl, -⟩ :=
      Prod.mk.inj (Option.some.inj ((runScript_pipesSucceed os hrun).symm.trans h))
    exact ⟨hI', fun g => (hfds' g).trans (ih.2 g)⟩

/-- In every state a run reaches, each descriptor quash holds is the one it inherited under that
number: quash holds no pipe end. -/
theorem reachable_get_eq_some {openFds : List Bool} {sh : Shell}
    (hR : Reachable Parsed openFds sh) {g : Nat} {o : Obj} (h : sh.fds.get g = some o) :
    o = .inherited g := by
  rw [(reachable_fds hR).2, Fds.get_inherited] at h
  split_ifs at h
  exact (Option.some.inj h).symm

/-- **`run_script` is defined in every reachable state.** On whatever the parser returns, from
any state a run reaches, and with every `pipe` succeeding (quash exits when one fails),
`run_script` never indexes `environment_pipes` with `-1`, never runs off the holder array and
never peeks into an empty deque; it returns with quash's descriptor table the one quash
inherited. -/
theorem runScript_defined {openFds : List Bool} {sh : Shell} (hR : Reachable Parsed openFds sh)
    (os : Os) (hpipe : ∀ k, os.pipe k = true) {holders : Option (List CommandHolder)}
    (hP : Parsed holders) :
    ∃ sh' cs, runScript os holders sh = some (sh', cs) ∧
      ∀ g, sh'.fds.get g = (Fds.inherited openFds).get g := by
  obtain ⟨sh', cs, h, -, hfds⟩ := runScript_frame os (reachable_fds hR).1 hpipe hP
  exact ⟨sh', cs, h, fun g => (hfds g).trans ((reachable_fds hR).2 g)⟩

/-- `cat | wc &` creates a pipe in the slot `next_pipe` names and queues the job under the pid
at the front of its deque. -/
theorem runScript_defined_background :
    let os : Os := ⟨fun _ => true, fun i => i + 100, fun _ => true, fun _ _ => true,
      fun _ _ => none, fun _ => true, "cat | wc &"⟩
    let hs : Option (List CommandHolder) :=
      some [⟨⟨false, true, false, false, false, true⟩, "", "", .generic ["cat"]⟩,
        ⟨⟨true, false, false, false, false, true⟩, "", "", .generic ["wc"]⟩,
        ⟨⟨false, false, false, false, false, false⟩, "", "", .eoc⟩]
    Reachable Parsed [true, true] (Shell.init [true, true] (fun _ => none) "/") ∧
      (∀ k, os.pipe k = true) ∧ Parsed hs ∧
      ∃ sh' cs, runScript os hs (Shell.init [true, true] (fun _ => none) "/") = some (sh', cs) ∧
        ∀ g, sh'.fds.get g = (Fds.inherited [true, true]).get g :=
  ⟨.init _ _, fun _ => rfl, ⟨[_, _], _, [], rfl, List.cons_ne_nil _ _, by decide, rfl⟩,
    runScript_defined (.init _ _) _ (fun _ => rfl)
      ⟨[_, _], _, [], rfl, List.cons_ne_nil _ _, by decide, rfl⟩⟩

/-! ### Pipelines from a reachable state -/

section Pipelines

variable {openFds : List Bool} {sh : Shell} (os : Os) {js : List CommandHolder} {e : CommandHolder}
  (rest : List CommandHolder)

/-- A job, not a lone `exit`, run from a reachable state with quash's standard input and output
open: `run_script` returns with quash's table as before, and each child exists exactly when the
files of its redirects open, and is then `Wired` in that table. -/
theorem runScript_wired (hR : Reachable Parsed openFds sh) (h0 : openFds[0]? = some true)
    (h1 : openFds[1]? = some true) (hpipe : ∀ k, os.pipe k = true) (hjs : js ≠ [])
    (hexit : ∀ x, js = [x] → x.cmd ≠ .exit)
    (hflags : ∀ s (hs : s < js.length), PipeFlags js.length s js[s].flags ∧ js[s].cmd ≠ .eoc)
    (he : e.cmd = .eoc) :
    ∃ (sh' : Shell) (cp : Nat → Option Child), runScript os (some (js ++ e :: rest)) sh =
        some (sh', (List.range js.length).filterMap fun s => if os.fork s = -1 then none else cp s) ∧
      (∀ g, sh'.fds.get g = sh.fds.get g) ∧
      ∀ s (hs : s < js.length), (cp s = none ↔ ¬ Opens os js[s]) ∧
        ∀ c, cp s = some c → Wired sh.fds sh.pipeCount js.length s js[s] c := by
  have ht := (reachable_fds hR).2
  obtain ⟨sh', cs, hrun, -, hfds', ⟨x, rfl, hx, -⟩ | ⟨cp, rfl, -, hok⟩⟩ :=
    runScript_job os rest (reachable_fds hR).1 hpipe hjs hflags he
  · exact absurd hx (hexit x rfl)
  refine ⟨sh', cp, hrun, hfds', fun s hs => hok s hs ?_ ?_⟩
  · rw [ht, Fds.get_inherited, if_pos h0]; simp
  · rw [ht, Fds.get_inherited, if_pos h1]; simp

/-- **Every pipeline of four or more is broken.** From any state a run reaches, with quash's
standard input and output open, run a pipeline of `n ≥ 4` commands without redirects. For every
`s` with `2 ≤ s ≤ n - 2`, the `s`-th child writes quash's standard output instead of the `s`-th
pipe, the next child reads that pipe, and no process, quash or any child, holds the pipe's write
end: the reader sees end of file at once. -/
theorem pipeline_unwritten (hR : Reachable Parsed openFds sh) (h0 : openFds[0]? = some true)
    (h1 : openFds[1]? = some true) (hpipe : ∀ k, os.pipe k = true) (hn : 4 ≤ js.length)
    (hflags : ∀ s (hs : s < js.length), PipeFlags js.length s js[s].flags ∧
      js[s].cmd ≠ .eoc ∧ js[s].flags.redirectIn = false ∧ js[s].flags.redirectOut = false)
    (he : e.cmd = .eoc) :
    ∃ (sh' : Shell) (cp : Nat → Option Child), runScript os (some (js ++ e :: rest)) sh =
        some (sh', (List.range js.length).filterMap fun s => if os.fork s = -1 then none else cp s) ∧
      ∀ s, 2 ≤ s → s + 1 < js.length → ∃ c c', cp s = some c ∧ cp (s + 1) = some c' ∧
        c.fds.get 1 = some (.inherited 1) ∧ c'.fds.get 0 = some (.pipeRead (sh.pipeCount + s)) ∧
        (∀ g, sh'.fds.get g ≠ some (.pipeWrite (sh.pipeCount + s))) ∧
        ∀ r < js.length, ∀ c'', cp r = some c'' →
          ∀ g, c''.fds.get g ≠ some (.pipeWrite (sh.pipeCount + s)) := by
  have ht := (reachable_fds hR).2
  obtain ⟨sh', cp, hrun, hfds', hw⟩ := runScript_wired os rest hR h0 h1 hpipe
    (fun h => by simp [h] at hn) (fun x h => by simp [h] at hn)
    (fun s hs => ⟨(hflags s hs).1, (hflags s hs).2.1⟩) he
  -- without redirects every child exists
  have hc : ∀ r (hr : r < js.length), ∃ c, cp r = some c ∧
      Wired sh.fds sh.pipeCount js.length r js[r] c := fun r hr => by
    obtain ⟨c, hc⟩ := Option.ne_none_iff_exists'.1 fun h => (hw r hr).1.1 h
      ⟨fun e => by simp [(hflags r hr).2.2.1] at e, fun e => by simp [(hflags r hr).2.2.2] at e⟩
    exact ⟨c, hc, (hw r hr).2 c hc⟩
  refine ⟨sh', cp, hrun, fun s hs2 hsn => ?_⟩
  obtain ⟨c, hc₁, -, hw1, -⟩ := hc s (by omega)
  obtain ⟨c', hc', hw0', -, -⟩ := hc (s + 1) hsn
  refine ⟨c, c', hc₁, hc', ?_, ?_, fun g h => ?_, fun r hr c'' hc'' g hg => ?_⟩
  · rw [hw1, if_neg (by omega), redirectedOut, if_neg (by simp [(hflags s (by omega)).2.2.2]),
      ht, Fds.get_inherited, if_pos h1]
  · rw [hw0', if_neg (by omega), ← Nat.add_assoc, Nat.add_sub_cancel]
  · rw [hfds'] at h
    cases reachable_get_eq_some hR h
  · -- a child holds a write end it inherited from quash, or the one of its own pipe
    obtain ⟨c₀, hc₀, -, -, hx⟩ := hc r hr
    obtain rfl := Option.some.inj (hc₀.symm.trans hc'')
    rcases hx g _ hg with h | ⟨h, -, h2⟩
    · cases reachable_get_eq_some hR h
    · omega

theorem pipeline_unwritten_init :
    let os : Os := ⟨fun _ => true, fun i => i + 100, fun _ => true, fun _ _ => true,
      fun _ _ => none, fun _ => true, "cat | cat | cat | cat"⟩
    let holder (i o : Bool) (c : Command) : CommandHolder :=
      ⟨⟨i, o, false, false, false, false⟩, "", "", c⟩
    let js := [holder false true (.generic ["cat"]), holder true true (.generic ["cat"]),
      holder true true (.generic ["cat"]), holder true false (.generic ["cat"])]
    let e := holder false false .eoc
    let sh := Shell.init [true, true] (fun _ => none) "/"
    Reachable Parsed [true, true] sh ∧ [true, true][0]? = some true ∧ [true, true][1]? = some true ∧
      (∀ k, os.pipe k = true) ∧ 4 ≤ js.length ∧
      (∀ s (hs : s < js.length), PipeFlags js.length s js[s].flags ∧
        js[s].cmd ≠ .eoc ∧ js[s].flags.redirectIn = false ∧ js[s].flags.redirectOut = false) ∧
      e.cmd = .eoc ∧
      ∃ (sh' : Shell) (cp : Nat → Option Child), runScript os (some (js ++ e :: [])) sh =
          some (sh', (List.range js.length).filterMap fun s => if os.fork s = -1 then none else cp s) ∧
        ∀ s, 2 ≤ s → s + 1 < js.length → ∃ c c', cp s = some c ∧ cp (s + 1) = some c' ∧
          c.fds.get 1 = some (.inherited 1) ∧ c'.fds.get 0 = some (.pipeRead (sh.pipeCount + s)) ∧
          (∀ g, sh'.fds.get g ≠ some (.pipeWrite (sh.pipeCount + s))) ∧
          ∀ r < js.length, ∀ c'', cp r = some c'' →
            ∀ g, c''.fds.get g ≠ some (.pipeWrite (sh.pipeCount + s)) :=
  ⟨.init _ _, rfl, rfl, fun _ => rfl, by decide, by decide, rfl,
    pipeline_unwritten _ [] (.init _ _) rfl rfl (fun _ => rfl) (by decide) (by decide) rfl⟩

end Pipelines

end Quash
