import Mathlib.Logic.Function.Basic
import OSLabs.Quash.Descriptors

/-!
# The state of quash

`execute.c` is the half of the quash shell that runs what the parser hands it: an array of
command holders ending in `EOC`. Its state is the job queue `job_queue_pointer` of background
jobs, each with the deque of its process ids, the two-slot pipe array `environment_pipes` with
the indices `prev_pipe` and `next_pipe`, and what it holds of the operating system: its
descriptor table, its environment variables and its working directory.

## Design

The headers `quash.h`, `command.h` and `deque.h` are not in the repository. A command holder is
its flags, the two redirect paths and its command, as `create_process` reads them; the flags
are the booleans it tests. The deques of `deque.h` are their front-to-back lists, and popping
an empty one is a failure (`none`) of the model, as of the C code.

What quash prints, the signals it sends and the processes it waits for are appended to a log,
so that the statements about runs can speak of them. The answers of the operating system that
the code reads (what `fork` returns, which children `waitpid` finds still running, whether
`fopen`, `chdir` and `execvp` succeed, and the command line the parser stored) are an `Os`
record given to each call.

Every loop of `execute.c` over a deque pops the front element a fixed number of times, acts on
it, and pushes back what it keeps. `Quash.rotate` is that loop once, for all four uses.

## Main definitions

* `Quash.Shell` — the globals of `execute.c` and the state of the quash process.
* `Quash.rotate` — the pop-act-push loop over a deque.

## Main results

* `Quash.rotate_length` — the loop run once over the whole deque keeps, in order, what the
  action keeps of each element, and emits what it emits for each.
-/

namespace Quash

/-- The flags of a command holder that `create_process` and `run_script` test: `PIPE_IN`,
`PIPE_OUT`, `REDIRECT_IN`, `REDIRECT_OUT`, `REDIRECT_APPEND` and `BACKGROUND`. -/
structure Flags where
  pipeIn : Bool
  pipeOut : Bool
  redirectIn : Bool
  redirectOut : Bool
  redirectAppend : Bool
  background : Bool
  deriving DecidableEq, Repr

/-- A parsed command, by its `CommandType`: `GENERIC`, `ECHO`, `EXPORT`, `CD` (whose directory
may be `NULL`), `KILL`, `PWD`, `JOBS`, `EXIT` and the terminator `EOC`. -/
inductive Command where
  | generic (args : List String)
  | echo (args : List String)
  | exportVar (envVar val : String)
  | cd (dir : Option String)
  | kill (sig job : Int)
  | pwd
  | jobs
  | exit
  | eoc
  deriving DecidableEq, Repr

/-- `CommandHolder`: a command with its flags and redirect targets. -/
structure CommandHolder where
  flags : Flags
  redirectIn : String
  redirectOut : String
  cmd : Command
  deriving DecidableEq, Repr

/-- `struct Job`: a background job, with the deque of its process ids from the front. -/
structure Job where
  jobId : Int
  pidQueue : List Int
  cmd : String
  deriving DecidableEq, Repr

/-- What quash, or a child before it runs its program, does that others can observe. -/
inductive Effect where
  /-- `print_job_bg_start(job_id, pid, cmd)`. -/
  | bgStart (jobId pid : Int) (cmd : String)
  /-- `print_job_bg_complete(job_id, pid, cmd)`. -/
  | bgComplete (jobId pid : Int) (cmd : String)
  /-- `print_job(job_id, pid, cmd)` in `run_jobs`. -/
  | listed (jobId pid : Int) (cmd : String)
  /-- `kill(pid, sig)`. -/
  | signal (pid sig : Int)
  /-- `waitpid(pid, &wait, 0)`, blocking until the child `pid` changes state. -/
  | wait (pid : Int)
  /-- A message printed with `perror`. -/
  | error (msg : String)
  /-- `execvp(args[0], args)` replacing the child with a program. -/
  | exec (args : List String)
  /-- `printf(str[i])` of each argument in turn, then a newline. -/
  | echo (args : List String)
  /-- `printf(cwd)` of the working directory, then a newline. -/
  | pwd (dir : String)
  deriving DecidableEq, Repr

/-- The answers of the operating system to one call of `run_script`: whether the `k`-th `pipe`
of the session succeeds, what its `i`-th `fork` returns to quash (`-1` when it fails), whether `waitpid(pid, WNOHANG)` returns `0` because the
child `pid` is still running, whether `fopen` of a path in a mode succeeds, where `chdir` from a
directory to a path leads (`none` when it fails), whether `execvp` of an argument vector
succeeds, and the command line `get_command_string` returns. -/
structure Os where
  pipe : Nat → Bool
  fork : Nat → Int
  alive : Int → Bool
  opens : String → FileMode → Bool
  chdir : String → String → Option String
  execs : List String → Bool
  cmdString : String

/-- The globals of `execute.c` and what the quash process holds: the job queue, the flag
`init_flag`, the pipe array `environment_pipes` (each slot the descriptors `[READ, WRITE]`)
with `prev_pipe` and `next_pipe`, the descriptor table, the environment and working
directory, the flag of the main loop that `end_main_loop` clears, the number of pipes created
so far (which names the next one), and the log of what quash has done. -/
structure Shell where
  jobs : List Job
  initFlag : Bool
  pipes : List (Nat × Nat)
  prevPipe : Int
  nextPipe : Int
  fds : Fds
  env : String → Option String
  cwd : String
  running : Bool
  pipeCount : Nat
  log : List Effect

/-- Quash at start-up: the statics of `execute.c` as the C runtime initialises them, and the
descriptors, environment and working directory it was started with. -/
def Shell.init (openFds : List Bool) (env : String → Option String) (cwd : String) : Shell where
  jobs := []
  initFlag := true
  pipes := [(0, 0), (0, 0)]
  prevPipe := -1
  nextPipe := 0
  fds := Fds.inherited openFds
  env := env
  cwd := cwd
  running := true
  pipeCount := 0
  log := []

/-- The slot `environment_pipes[p]`; indexing outside the array is undefined (`none`). -/
def Shell.slot (sh : Shell) (p : Int) : Option (Nat × Nat) :=
  if 0 ≤ p then sh.pipes[p.toNat]? else none

/-! ### The deque loops -/

section Rotate

variable {α β : Type} (f : α → Option (Option α × List β))

/-- `n` rounds of: pop the front of the deque, act on it with `f`, which gives what to push
back (if anything) and what the round emits. Popping an empty deque fails. -/
def rotate : Nat → List α → Option (List α × List β)
  | 0, q => some (q, [])
  | _ + 1, [] => none
  | n + 1, x :: q =>
    (f x).bind fun r => (rotate n (q ++ r.1.toList)).map fun s => (s.1, r.2 ++ s.2)

variable {f} {g : α → Option α × List β}

/-- `n` rounds over a deque whose first `n` elements are `q` leave the rest in front and push
what the rounds keep behind it. -/
theorem rotate_append (hf : ∀ x, f x = some (g x)) :
    ∀ (q acc : List α), rotate f q.length (q ++ acc) =
      some (acc ++ q.filterMap fun x => (g x).1, q.flatMap fun x => (g x).2)
  | [], acc => by simp [rotate]
  | x :: q, acc => by
    rw [List.length_cons, List.cons_append, rotate, hf, Option.some_bind, List.append_assoc,
      rotate_append hf q]
    cases h : (g x).1 <;> simp [h]

/-- **One pass over the whole deque** keeps, in order, what the action keeps of each element,
and emits, in order, what it emits for each. -/
theorem rotate_length (hf : ∀ x, f x = some (g x)) (q : List α) :
    rotate f q.length q = some (q.filterMap fun x => (g x).1, q.flatMap fun x => (g x).2) := by
  simpa using rotate_append hf q []

end Rotate

end Quash
