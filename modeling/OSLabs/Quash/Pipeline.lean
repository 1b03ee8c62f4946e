import OSLabs.Quash.Execute

/-!
# `create_process` once

A pipeline `c₀ | c₁ | … | cₙ₋₁` reaches `execute.c` as `n` command holders, the first with
`PIPE_OUT`, the last with `PIPE_IN`, the others with both. For each, `create_process` creates
the output pipe in quash and forks. The child points its standard input at the read end of the
previous pipe and its standard output at the write end of its own, closing the other end of
each, while quash closes the ends it no longer needs and moves both pipe indices on.

Before its pipes the child makes its redirects: `fopen` opens the file on the lowest free
descriptor and `dup2` points standard input or output at it. The pipes come after, so on the
side where a command has both, the pipe wins.

This file proves what one call does, for any flags, on any state whose pipe indices are in
order; `OSLabs.Quash.Wiring` follows a whole pipeline.

## Main definitions

* `Quash.PipeIdx` — the values `prev_pipe` and `next_pipe` take.
* `Quash.forkedFrom` — quash as the child is forked from it.
* `Quash.childRedirects` — the redirects of the child's set-up; `Quash.Opens` — their files
  open.

## Main results

* `Quash.createProcess_spec` — quash's side of `create_process`: its closes, the pipe slots,
  the deque of pids.
* `Quash.childRedirects_eq_none`, `Quash.childRedirects_get` — the redirects fail exactly when a
  file does not open, and otherwise point standard input and output at the files.
* `Quash.childProcess_spec` — the child's side: its redirects, then its `dup2`s and closes.
-/

namespace Quash

/-! ### The pipe slots -/

/-- The indices of the pipe array in every state of quash: `prev_pipe` and `next_pipe` name
its two slots, or `prev_pipe` is still `-1` before the first process; the array has two
slots. -/
def PipeIdx (sh : Shell) : Prop :=
  sh.pipes.length = 2 ∧ (sh.prevPipe = -1 ∧ sh.nextPipe = 0 ∨ sh.prevPipe = 0 ∧ sh.nextPipe = 1 ∨
    sh.prevPipe = 1 ∧ sh.nextPipe = 0)

theorem pipeIdx_init (openFds : List Bool) (env : String → Option String) (cwd : String) :
    PipeIdx (Shell.init openFds env cwd) :=
  ⟨rfl, .inl ⟨rfl, rfl⟩⟩

section Slots

variable {sh : Shell}

/-- `PipeIdx` reads only the pipe array and the two indices. -/
theorem PipeIdx.of_eq {sh' : Shell} (hI : PipeIdx sh) (hp : sh'.pipes = sh.pipes)
    (hprev : sh'.prevPipe = sh.prevPipe) (hnext : sh'.nextPipe = sh.nextPipe) : PipeIdx sh' := by
  rwa [PipeIdx, hp, hprev, hnext]

theorem PipeIdx.slot_next (hI : PipeIdx sh) : ∃ p, sh.slot sh.nextPipe = some p := by
  obtain ⟨hlen, ⟨-, h⟩ | ⟨-, h⟩ | ⟨-, h⟩⟩ := hI <;>
    exact ⟨_, by rw [Shell.slot, h]; exact List.getElem?_eq_getElem (by simp; omega)⟩

theorem PipeIdx.slot_prev (hI : PipeIdx sh) (hp : sh.prevPipe ≠ -1) :
    ∃ p, sh.slot sh.prevPipe = some p := by
  obtain ⟨hlen, ⟨h, -⟩ | ⟨h, -⟩ | ⟨h, -⟩⟩ := hI
  · exact absurd h hp
  all_goals exact ⟨_, by rw [Shell.slot, h]; exact List.getElem?_eq_getElem (by simp; omega)⟩

theorem addPipe_slot_next (hI : PipeIdx sh) :
    sh.addPipe.slot sh.nextPipe = some (sh.fds.pipe sh.pipeCount).1 := by
  obtain ⟨hlen, ⟨-, h⟩ | ⟨-, h⟩ | ⟨-, h⟩⟩ := hI <;>
    simp [Shell.addPipe, Shell.slot, h, List.getElem?_set, hlen]

theorem addPipe_slot_prev (hI : PipeIdx sh) : sh.addPipe.slot sh.prevPipe = sh.slot sh.prevPipe := by
  obtain ⟨hlen, ⟨h, h'⟩ | ⟨h, h'⟩ | ⟨h, h'⟩⟩ := hI <;>
    simp [Shell.addPipe, Shell.slot, h, h', List.getElem?_set]

@[simp] theorem addPipe_fds : sh.addPipe.fds = (sh.fds.pipe sh.pipeCount).2 := rfl
@[simp] theorem addPipe_pipeCount : sh.addPipe.pipeCount = sh.pipeCount + 1 := rfl
@[simp] theorem addPipe_prevPipe : sh.addPipe.prevPipe = sh.prevPipe := rfl
@[simp] theorem addPipe_nextPipe : sh.addPipe.nextPipe = sh.nextPipe := rfl

theorem PipeIdx.addPipe (hI : PipeIdx sh) : PipeIdx sh.addPipe :=
  ⟨by simpa [Shell.addPipe] using hI.1, hI.2⟩

/-- After a process, `prev_pipe` names the slot `next_pipe` named, and `next_pipe` the other. -/
theorem PipeIdx.advance (hI : PipeIdx sh) :
    PipeIdx { sh with nextPipe := (sh.nextPipe + 1).tmod 2, prevPipe := (sh.prevPipe + 1).tmod 2 } ∧
      (sh.prevPipe + 1).tmod 2 = sh.nextPipe := by
  obtain ⟨hlen, ⟨h, h'⟩ | ⟨h, h'⟩ | ⟨h, h'⟩⟩ := hI <;>
    simp only [h, h'] <;> exact ⟨⟨hlen, by dsimp only; decide⟩, by decide⟩

end Slots

/-! ### `parent_run_command` keeps the pipe state -/

/-- The built-ins quash runs itself never touch its descriptors or pipe slots, and always
return. -/
theorem parentRunCommand_frame (os : Os) (cmd : Command) (sh : Shell) :
    ∃ sh', parentRunCommand os cmd sh = some sh' ∧ sh'.fds = sh.fds ∧ sh'.pipes = sh.pipes ∧
      sh'.prevPipe = sh.prevPipe ∧ sh'.nextPipe = sh.nextPipe ∧ sh'.pipeCount = sh.pipeCount := by
  cases cmd with
  | cd dir => cases dir <;> exact ⟨_, rfl, rfl, rfl, rfl, rfl, rfl⟩
  | kill sig job => exact ⟨_, runKill_eq sig job sh, rfl, rfl, rfl, rfl, rfl⟩
  | _ => exact ⟨_, rfl, rfl, rfl, rfl, rfl, rfl⟩

/-! ### `create_process` once -/

section Create

variable (os : Os) (i : Nat) (holder : CommandHolder) {sh : Shell} (pids : List Int)

/-- The shell the child of `create_process` is forked from: quash after creating the output
pipe, if there is one. -/
def forkedFrom (holder : CommandHolder) (sh : Shell) : Shell :=
  if holder.flags.pipeOut then sh.addPipe else sh

/-- **`create_process`, the parent's side.** From a state whose pipe indices are in order, with
`PIPE_IN` only once a process has run, and with `pipe` succeeding for `PIPE_OUT`, the call
returns; the pid goes on the front of the deque;
the child is forked from quash after the pipe is created; quash closes the read end in the
previous slot for `PIPE_IN` and the write end of the new pipe for `PIPE_OUT`; and the slot
`prev_pipe` names afterwards holds the new pipe. -/
theorem createProcess_spec (hI : PipeIdx sh) (hin : holder.flags.pipeIn = true → sh.prevPipe ≠ -1)
    (hpipe : holder.flags.pipeOut = true → os.pipe sh.pipeCount = true) :
    ∃ sh', createProcess os i holder sh pids = some (sh', os.fork i :: pids,
        if os.fork i = -1 then none else childProcess os holder (forkedFrom holder sh)) ∧
      PipeIdx sh' ∧ sh'.prevPipe ≠ -1 ∧
      sh'.slot sh'.prevPipe = (forkedFrom holder sh).slot sh.nextPipe ∧
      sh'.pipeCount = (forkedFrom holder sh).pipeCount ∧
      sh'.fds = (if holder.flags.pipeOut then fun t => t.close (sh.fds.pipe sh.pipeCount).1.2 else id)
        (if holder.flags.pipeIn then (forkedFrom holder sh).fds.close ((sh.slot sh.prevPipe).getD (0, 0)).1
          else (forkedFrom holder sh).fds) := by
  set sh₁ := forkedFrom holder sh with hsh₁
  have hI₁ : PipeIdx sh₁ := by
    rw [hsh₁, forkedFrom]; split_ifs
    · exact hI.addPipe
    · exact hI
  have hopen : (if holder.flags.pipeOut then sh.openPipe os else some sh) = some sh₁ := by
    rw [hsh₁, forkedFrom]; split_ifs with hpo
    · obtain ⟨p, hp⟩ := hI.slot_next
      simp [Shell.openPipe, hp, hpipe hpo]
    · rfl
  have hprev₁ : sh₁.slot sh₁.prevPipe = sh.slot sh.prevPipe := by
    rw [hsh₁, forkedFrom]; split_ifs
    · exact addPipe_slot_prev hI
    · rfl
  -- the parent's closes
  obtain ⟨sh₂, h₂, hfds₂, hp₂, hpp₂, hn₂, hc₂⟩ : ∃ sh₂,
      (if holder.flags.pipeIn then sh₁.closeSlot sh₁.prevPipe Prod.fst else some sh₁) = some sh₂ ∧
      sh₂.fds = (if holder.flags.pipeIn then sh₁.fds.close ((sh.slot sh.prevPipe).getD (0, 0)).1
        else sh₁.fds) ∧ sh₂.pipes = sh₁.pipes ∧ sh₂.prevPipe = sh₁.prevPipe ∧
      sh₂.nextPipe = sh₁.nextPipe ∧ sh₂.pipeCount = sh₁.pipeCount := by
    split_ifs with hpin
    · obtain ⟨p, hp⟩ := hI₁.slot_prev (by simpa [hsh₁, forkedFrom, apply_ite Shell.prevPipe] using hin hpin)
      refine ⟨{ sh₁ with fds := sh₁.fds.close p.1 }, by simp [Shell.closeSlot, hp], ?_, rfl, rfl,
        rfl, rfl⟩
      simp [← hprev₁, hp]
    · exact ⟨sh₁, rfl, rfl, rfl, rfl, rfl, rfl⟩
  obtain ⟨sh₃, h₃, hfds₃, hp₃, hpp₃, hn₃, hc₃⟩ : ∃ sh₃,
      (if holder.flags.pipeOut then sh₂.closeSlot sh₂.nextPipe Prod.snd else some sh₂) = some sh₃ ∧
      sh₃.fds = (if holder.flags.pipeOut then sh₂.fds.close (sh.fds.pipe sh.pipeCount).1.2
        else sh₂.fds) ∧ sh₃.pipes = sh₂.pipes ∧ sh₃.prevPipe = sh₂.prevPipe ∧
      sh₃.nextPipe = sh₂.nextPipe ∧ sh₃.pipeCount = sh₂.pipeCount := by
    split_ifs with hpout
    · have hslot : sh₂.slot sh₂.nextPipe = some (sh.fds.pipe sh.pipeCount).1 := by
        have : sh₂.slot sh₂.nextPipe = sh₁.slot sh₁.nextPipe := by simp only [Shell.slot, hp₂, hn₂]
        rw [this, hsh₁, forkedFrom, if_pos hpout, addPipe_nextPipe]
        exact addPipe_slot_next hI
      exact ⟨{ sh₂ with fds := sh₂.fds.close (sh.fds.pipe sh.pipeCount).1.2 },
        by simp [Shell.closeSlot, hslot], rfl, rfl, rfl, rfl, rfl⟩
    · exact ⟨sh₂, rfl, rfl, rfl, rfl, rfl, rfl⟩
  have hI₃ : PipeIdx sh₃ := ⟨by rw [hp₃, hp₂]; exact hI₁.1, by rw [hpp₃, hn₃, hpp₂, hn₂]; exact hI₁.2⟩
  obtain ⟨hIa, hprev⟩ := hI₃.advance
  obtain ⟨sh₄, h₄, hfds₄, hp₄, hpp₄, hn₄, hc₄⟩ := parentRunCommand_frame os holder.cmd
    { sh₃ with nextPipe := (sh₃.nextPipe + 1).tmod 2, prevPipe := (sh₃.prevPipe + 1).tmod 2 }
  have hn₁ : sh₁.nextPipe = sh.nextPipe := by rw [hsh₁, forkedFrom]; split_ifs <;> rfl
  refine ⟨sh₄, ?_, ⟨by rw [hp₄]; exact hIa.1, by rw [hpp₄, hn₄]; exact hIa.2⟩, ?_, ?_, ?_, ?_⟩
  · simp only [createProcess, hopen, Option.some_bind, h₂, h₃, h₄, Option.map_some']
  · rw [hpp₄]; dsimp only; rw [hprev, hn₃, hn₂, hn₁]
    obtain ⟨-, ⟨-, h⟩ | ⟨-, h⟩ | ⟨-, h⟩⟩ := hI <;> omega
  · simp only [Shell.slot, hpp₄, hp₄, hprev, hn₃, hn₂, hn₁, hp₃, hp₂]
  · rw [hc₄]; dsimp only; rw [hc₃, hc₂]
  · rw [hfds₄]; dsimp only; rw [hfds₃, hfds₂]
    cases holder.flags.pipeOut <;> rfl

end Create

/-! ### The child's side -/

/-- The redirects of the child's set-up, on its copy `t` of quash's table: `<`, then `>` or
`>>`. -/
def childRedirects (os : Os) (holder : CommandHolder) (t : Fds) : Option Fds :=
  (if holder.flags.redirectIn then redirect os holder.redirectIn .read 0 t else some t).bind
    fun t₁ =>
  if holder.flags.redirectOut then
    redirect os holder.redirectOut (if holder.flags.redirectAppend then .append else .write) 1 t₁
  else some t₁

/-- `fopen` succeeds on the file of each redirect of the holder. -/
def Opens (os : Os) (holder : CommandHolder) : Prop :=
  (holder.flags.redirectIn = true → os.opens holder.redirectIn .read = true) ∧
  (holder.flags.redirectOut = true →
    os.opens holder.redirectOut (if holder.flags.redirectAppend then .append else .write) = true)

/-- Standard input after the child's redirects: the file of its `<`, or what it is in `t`. -/
def redirectedIn (holder : CommandHolder) (t : Fds) : Option Obj :=
  if holder.flags.redirectIn then some (.file holder.redirectIn .read) else t.get 0

/-- Standard output after the child's redirects: the file of its `>` or `>>`, or what it is
in `t`. -/
def redirectedOut (holder : CommandHolder) (t : Fds) : Option Obj :=
  if holder.flags.redirectOut then
    some (.file holder.redirectOut (if holder.flags.redirectAppend then .append else .write))
  else t.get 1

section Redirects

variable {os : Os} {holder : CommandHolder} {path : String} {mode : FileMode} {target : Nat}
  {t u : Fds}

/-- The set-up of the child is its redirects, then its pipes. -/
theorem childSetup_eq (sh : Shell) : childSetup os holder sh =
    (childRedirects os holder sh.fds).bind fun t₂ =>
      (if holder.flags.pipeIn then (sh.slot sh.prevPipe).map fun p => (t₂.dup2 p.1 0).close p.2
      else some t₂).bind fun t₃ =>
      if holder.flags.pipeOut then (sh.slot sh.nextPipe).map fun p => (t₃.dup2 p.2 1).close p.1
      else some t₃ := by
  rw [childRedirects, Option.bind_assoc]
  rfl

/-- A redirect, when `b` asks for one, points `target` at the file, also opened on the lowest
free descriptor, and keeps every other open descriptor. -/
theorem redirect_step {b : Bool} (h : (if b then redirect os path mode target t else some t) = some u) :
    u.get target = (if b then some (.file path mode) else t.get target) ∧
      (∀ g, g ≠ target → t.get g ≠ none → u.get g = t.get g) ∧
      ∀ g o, u.get g = some o → t.get g = some o ∨ o = .file path mode := by
  cases b
  · cases h
    exact ⟨rfl, fun _ _ _ => rfl, fun _ _ h => .inl h⟩
  · simp only [if_true, redirect] at h
    split_ifs at h
    cases h
    have hu : ∀ g, ((t.alloc (.file path mode)).2.dup2 (t.alloc (.file path mode)).1 target).get g =
        if g = target then some (.file path mode) else if g = t.lowestFree then
          some (.file path mode) else t.get g := fun g => by
      rw [Fds.get_dup2_of_some (by rw [Fds.get_alloc, Fds.alloc_fst, if_pos rfl]), Fds.get_alloc]
    refine ⟨by rw [hu, if_pos rfl, if_pos rfl], fun g hg ho => ?_, fun g o ho => ?_⟩
    · rw [hu, if_neg hg, if_neg fun e => ho (by rw [e]; exact Fds.get_lowestFree)]
    · rw [hu] at ho
      split_ifs at ho
      exacts [.inr (Option.some.inj ho).symm, .inr (Option.some.inj ho).symm, .inl ho]

/-- The redirects fail, `fopen` returning `NULL` and `fileno(NULL)` being undefined, exactly
when a file does not open. -/
theorem childRedirects_eq_none : childRedirects os holder t = none ↔ ¬ Opens os holder := by
  unfold childRedirects Opens redirect
  cases holder.flags.redirectIn <;> cases holder.flags.redirectOut <;>
    cases os.opens holder.redirectIn .read <;>
    cases os.opens holder.redirectOut (if holder.flags.redirectAppend then .append else .write) <;>
    simp

/-- **The child's redirects.** With standard input and output open in `t`, the redirects point
them at their files, keep every other open descriptor, and open no pipe end. -/
theorem childRedirects_get (h : childRedirects os holder t = some u) (h0 : t.get 0 ≠ none)
    (h1 : t.get 1 ≠ none) :
    u.get 0 = redirectedIn holder t ∧ u.get 1 = redirectedOut holder t ∧
      (∀ g, g ≠ 0 → g ≠ 1 → t.get g ≠ none → u.get g = t.get g) ∧
      ∀ g m, u.get g = some (.pipeWrite m) → t.get g = some (.pipeWrite m) := by
  obtain ⟨t₁, h₁, h₂⟩ := Option.bind_eq_some.1 h
  obtain ⟨a₁, b₁, c₁⟩ := redirect_step h₁
  obtain ⟨a₂, b₂, c₂⟩ := redirect_step h₂
  have h₁0 : t₁.get 0 ≠ none := by rw [a₁]; split_ifs <;> simp [h0]
  refine ⟨by rw [b₂ 0 Nat.zero_ne_one h₁0, a₁]; rfl, by rw [a₂, b₁ 1 Nat.one_ne_zero h1]; rfl,
    fun g g0 g1 hg => by rw [b₂ g g1 (by rwa [b₁ g g0 hg]), b₁ g g0 hg], fun g m hg => ?_⟩
  rcases c₂ g _ hg with hg | hg
  · rcases c₁ g _ hg with hg | hg
    exacts [hg, Obj.noConfusion hg]
  · exact Obj.noConfusion hg

end Redirects

section Child

variable (os : Os) (holder : CommandHolder) {sh : Shell}

/-- `child_run_command` always has a result. -/
theorem childRunCommand_isSome (os : Os) (cmd : Command) (sh : Shell) :
    ∃ out, childRunCommand os cmd sh = some out := by
  cases cmd <;> simp [childRunCommand, runJobs_eq]

/-- **The child's set-up.** After its redirects, which fail when a file does not open, it points
standard input at the read end in the previous slot and closes that slot's write end (for
`PIPE_IN`), then points standard output at the write end of the new pipe and closes its read
end (for `PIPE_OUT`), on a copy of quash's table after the pipe is created. -/
theorem childProcess_spec (hI : PipeIdx sh) (hin : holder.flags.pipeIn = true → sh.prevPipe ≠ -1) :
    ∃ out, childProcess os holder (forkedFrom holder sh) =
      (childRedirects os holder (forkedFrom holder sh).fds).map fun u => ⟨(if holder.flags.pipeOut then
        fun u => (u.dup2 (sh.fds.pipe sh.pipeCount).1.2 1).close (sh.fds.pipe sh.pipeCount).1.1
        else id)
      (if holder.flags.pipeIn then
        (u.dup2 ((sh.slot sh.prevPipe).getD (0, 0)).1 0).close ((sh.slot sh.prevPipe).getD (0, 0)).2
      else u), out⟩ := by
  set sh₁ := forkedFrom holder sh with hsh₁
  obtain ⟨out, hout⟩ := childRunCommand_isSome os holder.cmd sh₁
  have hprev₁ : sh₁.slot sh₁.prevPipe = sh.slot sh.prevPipe := by
    rw [hsh₁, forkedFrom]; split_ifs
    · exact addPipe_slot_prev hI
    · rfl
  have hnext : holder.flags.pipeOut = true →
      sh₁.slot sh₁.nextPipe = some (sh.fds.pipe sh.pipeCount).1 := fun hpo => by
    rw [hsh₁, forkedFrom, if_pos hpo, addPipe_nextPipe]; exact addPipe_slot_next hI
  refine ⟨out, ?_⟩
  simp only [childProcess, childSetup_eq, hout]
  cases childRedirects os holder sh₁.fds with
  | none => rfl
  | some u =>
    by_cases hpi : holder.flags.pipeIn <;> by_cases hpo : holder.flags.pipeOut <;>
      simp only [hpi, hpo, if_true, if_false, Bool.false_eq_true, id, Option.some_bind]
    · obtain ⟨p, hp⟩ := hI.slot_prev (hin hpi)
      simp [hprev₁, hp, hnext hpo]
    · obtain ⟨p, hp⟩ := hI.slot_prev (hin hpi)
      simp [hprev₁, hp]
    · simp [hnext hpo]
    · rfl

end Child


end Quash
