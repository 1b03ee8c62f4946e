import OSLabs.Quash.Pipeline

/-!
# The wiring of a pipeline

The loop of `run_script` calls `create_process` on each holder of a job. In a pipeline each
child closes the write end of the previous pipe through the number `pipe` stored for it in
`environment_pipes`. Quash closed that descriptor when it forked the previous process, so by
the time it creates the next pipe the number is free again, and from the third process on
`pipe` hands it out as the write end of the new pipe. The child then closes its own output
pipe's write end, and its `dup2` onto standard output fails with `EBADF`. Every process
strictly between the second and the last writes to quash's own standard output, and the
process after it reads a pipe whose write end is open nowhere.

## Design

Only the three lowest free descriptors `f₀ < f₁ < f₂` of quash's table when the job starts
change in quash during the job (`Quash.Fds.ThreeFree`). The first pipe takes `f₀` and `f₁`;
every later one takes for its read end whichever of `f₀`, `f₁` quash does not hold, and `f₂`
for its write end. Between two processes quash holds just the read end of the last pipe
(`Quash.Mid`). Each process is one lemma (`Quash.stage_first`, `Quash.stage_mid`,
`Quash.stage_last`, `Quash.stage_single`), and the loop is an induction over the holders left.
A child's redirects only open files on descriptors quash left free and point standard input and
output at them, so each child lemma takes the child's table after its redirects and needs of it
only that it keeps quash's pipe ends and adds no other.

## Main definitions

* `Quash.PipeFlags` — the pipe flags of the `s`-th of the `n` commands of a job.
* `Quash.Wired` — what a child of the job reads, writes, and holds of the pipes.

## Main results

* `Quash.processLoop_pipeline` — the loop over a job: which child exists, which descriptor it
  reads and writes, that no child holds a write end it should not, and that quash ends with the
  table it started with.
-/

namespace Quash

/-- The pipe flags the parser gives the `s`-th of the `n` commands `c₀ | … | cₙ₋₁` of a job:
`PIPE_IN` on all but the first, `PIPE_OUT` on all but the last. -/
def PipeFlags (n s : Nat) (fl : Flags) : Prop :=
  fl.pipeIn = decide (s ≠ 0) ∧ fl.pipeOut = decide (s + 1 < n)

instance (n s : Nat) (fl : Flags) : Decidable (PipeFlags n s fl) :=
  inferInstanceAs (Decidable (_ ∧ _))

/-- Quash between two processes of a pipeline: the read end of the `k`-th pipe is open on `h`
and stored, with the number `w` of its write end, in the slot `prev_pipe` names; every other
descriptor is as in `t`. -/
structure Mid (t : Fds) (k h w : Nat) (sh : Shell) : Prop where
  idx : PipeIdx sh
  prev : sh.prevPipe ≠ -1
  count : sh.pipeCount = k + 1
  slot : sh.slot sh.prevPipe = some (h, w)
  fds : ∀ g, sh.fds.get g = if g = h then some (.pipeRead k) else t.get g

/-- What the `s`-th child of an `n`-process job holds when it runs its command, the job's first
pipe being the `k`-th and `t` quash's table when the job started. Standard input is the read end
of the pipe before it, for all but the first child, and otherwise its `<` file or quash's.
Standard output is the write end of its own pipe for the first and the second child when another
follows, and otherwise its `>` file or quash's. Every pipe write end it holds is its own, or one
quash held at the same number. -/
def Wired (t : Fds) (k n s : Nat) (holder : CommandHolder) (c : Child) : Prop :=
  c.fds.get 0 = (if s = 0 then redirectedIn holder t else some (.pipeRead (k + s - 1))) ∧
  c.fds.get 1 =
    (if s + 1 < n ∧ s < 2 then some (.pipeWrite (k + s)) else redirectedOut holder t) ∧
  ∀ g m, c.fds.get g = some (.pipeWrite m) →
    t.get g = some (.pipeWrite m) ∨ m = k + s ∧ s + 1 < n ∧ s < 2

/-- With quash's standard input and output open, the child of the `s`-th process exists exactly
when the files of its redirects open, and it is `Wired`. -/
def ChildOk (os : Os) (t : Fds) (k n s : Nat) (holder : CommandHolder) (co : Option Child) :
    Prop :=
  t.get 0 ≠ none → t.get 1 ≠ none →
    (co = none ↔ ¬ Opens os holder) ∧ ∀ c, co = some c → Wired t k n s holder c

/-! ### The child's table -/

section Child

variable {t T u : Fds} {f₀ f₁ f₂ : Nat}

/-- The first child's set-up, on its table `u` after its redirects, forked from quash's table
`T` holding the `k`-th pipe on `f₀` and `f₁`: it writes the pipe. -/
theorem child_first {k : Nat} (hT : Fds.ThreeFree t f₀ f₁ f₂)
    (hget : ∀ g, T.get g = if g = f₁ then some (.pipeWrite k)
      else if g = f₀ then some (.pipeRead k) else t.get g)
    (hu : ∀ g, g ≠ 0 → g ≠ 1 → T.get g ≠ none → u.get g = T.get g)
    (hwr : ∀ g m, u.get g = some (.pipeWrite m) → T.get g = some (.pipeWrite m))
    (h0 : t.get 0 ≠ none) (h1 : t.get 1 ≠ none) :
    ((u.dup2 f₁ 1).close f₀).get 0 = u.get 0 ∧
      ((u.dup2 f₁ 1).close f₀).get 1 = some (.pipeWrite k) ∧
      ∀ g m, ((u.dup2 f₁ 1).close f₀).get g = some (.pipeWrite m) →
        t.get g = some (.pipeWrite m) ∨ m = k := by
  obtain ⟨n0₀, n0₁, -⟩ := hT.ne_of_open h0
  obtain ⟨n1₀, n1₁, -⟩ := hT.ne_of_open h1
  have hf₁ : T.get f₁ = some (.pipeWrite k) := by rw [hget, if_pos rfl]
  have hc : ∀ g, ((u.dup2 f₁ 1).close f₀).get g =
      if g = f₀ then none else if g = 1 then some (.pipeWrite k) else u.get g := fun g => by
    rw [Fds.get_close, Fds.get_dup2_of_some (by rw [hu f₁ n0₁.symm n1₁.symm (by simp [hf₁]), hf₁])]
  refine ⟨by rw [hc, if_neg n0₀, if_neg Nat.zero_ne_one], by rw [hc, if_neg n1₀, if_pos rfl],
    fun g m hg => ?_⟩
  -- a write end is the pipe's, on `1` or `f₁`, or was quash's
  rw [hc] at hg
  simp only [ite_eq_iff, reduceCtorEq, Option.some.injEq, Obj.pipeWrite.injEq, false_and,
    and_false, false_or, or_false] at hg
  rcases hg with ⟨-, ⟨-, rfl⟩ | ⟨-, hg⟩⟩
  · exact .inr rfl
  have hg := hwr g m hg
  rw [hget] at hg
  simp only [ite_eq_iff, reduceCtorEq, Option.some.injEq, Obj.pipeWrite.injEq, false_and,
    and_false, false_or, or_false] at hg
  rcases hg with ⟨-, rfl⟩ | ⟨-, -, hg⟩
  exacts [.inr rfl, .inl hg]

/-- A middle child's set-up, on its table `u` after its redirects, forked from quash's table `T`
holding the read end of the `k`-th pipe on `h` and the new pipe on `h'` and `f₂`, the previous
pipe's write end having been stored as `w`. It reads the `k`-th pipe, and writes the new one
only if `w` is `f₁`. -/
theorem child_mid {k h h' w : Nat} (hT : Fds.ThreeFree t f₀ f₁ f₂)
    (hget : ∀ g, T.get g = if g = f₂ then some (.pipeWrite (k + 1))
      else if g = h' then some (.pipeRead (k + 1)) else if g = h then some (.pipeRead k)
      else t.get g)
    (hu : ∀ g, g ≠ 0 → g ≠ 1 → T.get g ≠ none → u.get g = T.get g)
    (hwr : ∀ g m, u.get g = some (.pipeWrite m) → T.get g = some (.pipeWrite m))
    (hh : h = f₀ ∧ h' = f₁ ∨ h = f₁ ∧ h' = f₀) (hw : w = f₁ ∨ w = f₂)
    (h0 : t.get 0 ≠ none) (h1 : t.get 1 ≠ none) :
    ((((u.dup2 h 0).close w).dup2 f₂ 1).close h').get 0 = some (.pipeRead k) ∧
      ((((u.dup2 h 0).close w).dup2 f₂ 1).close h').get 1 =
        (if w = f₁ then some (.pipeWrite (k + 1)) else u.get 1) ∧
      ∀ g m, ((((u.dup2 h 0).close w).dup2 f₂ 1).close h').get g = some (.pipeWrite m) →
        t.get g = some (.pipeWrite m) ∨ m = k + 1 ∧ w = f₁ := by
  have h₀₁ := hT.lt₀₁
  have h₁₂ := hT.lt₁₂
  obtain ⟨n0₀, n0₁, n0₂⟩ := hT.ne_of_open h0
  obtain ⟨n1₀, n1₁, n1₂⟩ := hT.ne_of_open h1
  obtain ⟨a₁, a₂, a₃, a₅, a₆, a₇, a₉⟩ : h ≠ f₂ ∧ h' ≠ f₂ ∧ h ≠ h' ∧ 0 ≠ h' ∧ 1 ≠ h ∧ 1 ≠ h' ∧
      0 ≠ h := by
    clear hw; rcases hh with ⟨rfl, rfl⟩ | ⟨rfl, rfl⟩ <;> omega
  obtain ⟨a₄, a₈⟩ : 0 ≠ w ∧ 1 ≠ w := by rcases hw with rfl | rfl <;> omega
  have hTh : T.get h = some (.pipeRead k) := by rw [hget, if_neg a₁, if_neg a₃, if_pos rfl]
  -- after the `PIPE_IN` half
  have hv : ∀ g, ((u.dup2 h 0).close w).get g =
      if g = w then none else if g = 0 then some (.pipeRead k) else u.get g := fun g => by
    rw [Fds.get_close, Fds.get_dup2_of_some (by rw [hu h a₉.symm a₆.symm (by simp [hTh]), hTh])]
  have hv0 : ((u.dup2 h 0).close w).get 0 = some (.pipeRead k) := by rw [hv, if_neg a₄, if_pos rfl]
  rcases hw with hw | hw
  · -- the second process: the new pipe's write end is still open
    have hTf₂ : T.get f₂ = some (.pipeWrite (k + 1)) := by rw [hget, if_pos rfl]
    have hc : ∀ g, ((((u.dup2 h 0).close w).dup2 f₂ 1).close h').get g =
        if g = h' then none else if g = 1 then some (.pipeWrite (k + 1))
        else ((u.dup2 h 0).close w).get g := fun g => by
      rw [Fds.get_close, Fds.get_dup2_of_some (by rw [hv, if_neg (by omega), if_neg n0₂.symm,
        hu f₂ n0₂.symm n1₂.symm (by simp [hTf₂]), hTf₂])]
    refine ⟨by rw [hc, if_neg a₅, if_neg Nat.zero_ne_one, hv0],
      by rw [hc, if_neg a₇, if_pos rfl, if_pos hw], fun g m hg => ?_⟩
    -- a write end is the new pipe's, on `1` or `f₂`, or was quash's
    rw [hc, hv] at hg
    simp only [ite_eq_iff, reduceCtorEq, Option.some.injEq, Obj.pipeWrite.injEq, false_and,
      and_false, false_or, or_false] at hg
    rcases hg with ⟨-, ⟨-, rfl⟩ | ⟨-, -, -, hg⟩⟩
    · exact .inr ⟨rfl, hw⟩
    have hg := hwr g m hg
    rw [hget] at hg
    simp only [ite_eq_iff, reduceCtorEq, Option.some.injEq, Obj.pipeWrite.injEq, false_and,
      and_false, false_or, or_false] at hg
    rcases hg with ⟨-, rfl⟩ | ⟨-, -, -, hg⟩
    exacts [.inr ⟨rfl, hw⟩, .inl hg]
  · -- a later process: it has just closed the new pipe's write end
    have hc : ∀ g, ((((u.dup2 h 0).close w).dup2 f₂ 1).close h').get g =
        if g = h' then none else ((u.dup2 h 0).close w).get g := fun g => by
      rw [Fds.get_close, Fds.get_dup2_of_none (by rw [hv, if_pos hw.symm])]
    refine ⟨by rw [hc, if_neg a₅, hv0],
      by rw [hc, if_neg a₇, hv, if_neg a₈, if_neg Nat.one_ne_zero, if_neg (by omega)],
      fun g m hg => ?_⟩
    -- the new pipe's write end on `f₂` is closed
    rw [hc, hv] at hg
    simp only [ite_eq_iff, reduceCtorEq, Option.some.injEq, Obj.pipeWrite.injEq, false_and,
      and_false, false_or, or_false] at hg
    obtain ⟨-, hgw, -, hg⟩ := hg
    have hg := hwr g m hg
    rw [hget] at hg
    simp only [ite_eq_iff, reduceCtorEq, Option.some.injEq, Obj.pipeWrite.injEq, false_and,
      and_false, false_or, or_false] at hg
    rcases hg with ⟨hg₂, -⟩ | ⟨-, -, -, hg⟩
    exacts [absurd (hg₂.trans hw.symm) hgw, .inl hg]

/-- The last child's set-up, on its table `u` after its redirects, forked from quash's table `T`
holding the read end of the `k`-th pipe on `h`: it reads the pipe. -/
theorem child_last {k h w : Nat} (hT : Fds.ThreeFree t f₀ f₁ f₂)
    (hget : ∀ g, T.get g = if g = h then some (.pipeRead k) else t.get g)
    (hu : ∀ g, g ≠ 0 → g ≠ 1 → T.get g ≠ none → u.get g = T.get g)
    (hwr : ∀ g m, u.get g = some (.pipeWrite m) → T.get g = some (.pipeWrite m))
    (hh : h = f₀ ∨ h = f₁) (hw : w = f₁ ∨ w = f₂) (hwh : w ≠ h)
    (h0 : t.get 0 ≠ none) (h1 : t.get 1 ≠ none) :
    ((u.dup2 h 0).close w).get 0 = some (.pipeRead k) ∧ ((u.dup2 h 0).close w).get 1 = u.get 1 ∧
      ∀ g m, ((u.dup2 h 0).close w).get g = some (.pipeWrite m) →
        t.get g = some (.pipeWrite m) := by
  have h₀₁ := hT.lt₀₁
  have h₁₂ := hT.lt₁₂
  obtain ⟨n0₀, n0₁, n0₂⟩ := hT.ne_of_open h0
  obtain ⟨n1₀, n1₁, n1₂⟩ := hT.ne_of_open h1
  obtain ⟨a₁, a₂, a₃, a₄⟩ : 0 ≠ w ∧ 1 ≠ w ∧ 1 ≠ h ∧ 0 ≠ h := by omega
  have hTh : T.get h = some (.pipeRead k) := by rw [hget, if_pos rfl]
  have hc : ∀ g, ((u.dup2 h 0).close w).get g =
      if g = w then none else if g = 0 then some (.pipeRead k) else u.get g := fun g => by
    rw [Fds.get_close, Fds.get_dup2_of_some (by rw [hu h a₄.symm a₃.symm (by simp [hTh]), hTh])]
  refine ⟨by rw [hc, if_neg a₁, if_pos rfl], by rw [hc, if_neg a₂, if_neg Nat.one_ne_zero],
    fun g m hg => ?_⟩
  rw [hc] at hg
  simp only [ite_eq_iff, reduceCtorEq, Option.some.injEq, Obj.pipeWrite.injEq, false_and,
    and_false, false_or, or_false] at hg
  have hg := hwr g m hg.2.2
  rw [hget] at hg
  simp only [ite_eq_iff, reduceCtorEq, Option.some.injEq, Obj.pipeWrite.injEq, false_and,
    and_false, false_or, or_false] at hg
  exact hg.2

end Child

/-! ### One process of a pipeline -/

section Stages

variable {t : Fds} {f₀ f₁ f₂ : Nat} (os : Os) (i : Nat) {holder : CommandHolder} {sh : Shell}
  (pids : List Int)

/-- The child of `create_process` when its redirects fail, and, when they succeed, its table
after them, from quash's table `T` with standard input and output open. -/
theorem childProcess_cases {T : Fds} {f : Fds → Fds} {out : List Effect}
    (hc : childProcess os holder (forkedFrom holder sh) =
      (childRedirects os holder T).map fun u => ⟨f u, out⟩)
    (h0 : T.get 0 ≠ none) (h1 : T.get 1 ≠ none) :
    (childProcess os holder (forkedFrom holder sh) = none ↔ ¬ Opens os holder) ∧
      ∀ c, childProcess os holder (forkedFrom holder sh) = some c → ∃ u, c.fds = f u ∧
        u.get 0 = redirectedIn holder T ∧ u.get 1 = redirectedOut holder T ∧
        (∀ g, g ≠ 0 → g ≠ 1 → T.get g ≠ none → u.get g = T.get g) ∧
        ∀ g m, u.get g = some (.pipeWrite m) → T.get g = some (.pipeWrite m) := by
  rw [hc]
  refine ⟨by rw [Option.map_eq_none', childRedirects_eq_none], fun c hc' => ?_⟩
  obtain ⟨u, hu, rfl⟩ := Option.map_eq_some'.1 hc'
  exact ⟨u, rfl, childRedirects_get hu h0 h1⟩

/-- **The first process** of a pipeline of two or more: the first pipe gets `f₀` and `f₁`,
quash keeps its read end, and the child writes the pipe. -/
theorem stage_first (hT : Fds.ThreeFree t f₀ f₁ f₂) (hI : PipeIdx sh)
    (hfds : ∀ g, sh.fds.get g = t.get g) (hpi : holder.flags.pipeIn = false)
    (hpo : holder.flags.pipeOut = true) (hpipe : os.pipe sh.pipeCount = true) {n : Nat} (hn : 1 < n) :
    ∃ sh', createProcess os i holder sh pids = some (sh', os.fork i :: pids,
        if os.fork i = -1 then none else childProcess os holder (forkedFrom holder sh)) ∧
      Mid t sh.pipeCount f₀ f₁ sh' ∧
      ChildOk os t sh.pipeCount n 0 holder (childProcess os holder (forkedFrom holder sh)) := by
  have h₀₁ := hT.lt₀₁
  have h₁₂ := hT.lt₁₂
  have hr : sh.fds.lowestFree = f₀ :=
    hT.lowestFree_eq (fun g _ _ => hfds g) (by omega) (by rw [hfds]; exact hT.free₀)
      (fun g hg h => by omega)
  have hw : (sh.fds.alloc (.pipeRead sh.pipeCount)).2.lowestFree = f₁ :=
    hT.lowestFree_eq (fun g h₀ _ => by rw [Fds.get_alloc, hr, if_neg h₀, hfds]) h₁₂.le
      (by rw [Fds.get_alloc, hr, if_neg h₀₁.ne', hfds]; exact hT.free₁)
      (fun g hg h => by rw [Fds.get_alloc, hr, if_pos (by omega)]; simp)
  -- quash's table once the pipe is created
  have hget : ∀ g, (sh.fds.pipe sh.pipeCount).2.get g = if g = f₁ then some (.pipeWrite sh.pipeCount)
      else if g = f₀ then some (.pipeRead sh.pipeCount) else t.get g := fun g => by
    rw [Fds.get_pipe, hw, hr, hfds]
  have hf : forkedFrom holder sh = sh.addPipe := if_pos hpo
  have hff : (forkedFrom holder sh).fds = (sh.fds.pipe sh.pipeCount).2 := by rw [hf]; rfl
  have hp : (sh.fds.pipe sh.pipeCount).1 = (f₀, f₁) := by rw [Fds.pipe_fst, hr, hw]
  obtain ⟨sh', hcp, hI', hprev', hslot', hcount', hfds'⟩ :=
    createProcess_spec os i holder pids hI (by simp [hpi]) fun _ => hpipe
  refine ⟨sh', hcp, ⟨hI', hprev', by rw [hcount', hf, addPipe_pipeCount], ?_, fun g => ?_⟩, ?_⟩
  · rw [hslot', hf, addPipe_slot_next hI, hp]
  · rw [hfds', hf]
    simp only [hpi, hpo, if_true, Bool.false_eq_true, if_false, hp, addPipe_fds, Fds.get_close,
      hget]
    split_ifs <;> (try subst g) <;> first | rfl | (exfalso; omega) | exact hT.free₁.symm
  · intro h0 h1
    obtain ⟨n0₀, n0₁, -⟩ := hT.ne_of_open h0
    obtain ⟨n1₀, n1₁, -⟩ := hT.ne_of_open h1
    have hT0 : (sh.fds.pipe sh.pipeCount).2.get 0 = t.get 0 := by
      rw [hget, if_neg n0₁, if_neg n0₀]
    have hT1 : (sh.fds.pipe sh.pipeCount).2.get 1 = t.get 1 := by
      rw [hget, if_neg n1₁, if_neg n1₀]
    obtain ⟨out, hc⟩ := childProcess_spec os holder hI (by simp [hpi])
    simp only [hpi, hpo, if_true, Bool.false_eq_true, if_false, hff, hp, id] at hc
    obtain ⟨hnone, hsome⟩ := childProcess_cases os hc (by rwa [hT0]) (by rwa [hT1])
    refine ⟨hnone, fun c hc' => ?_⟩
    obtain ⟨u, hcf, u0, -, hu, hwr⟩ := hsome c hc'
    obtain ⟨e0, e1, ex⟩ := child_first hT hget hu hwr h0 h1
    refine ⟨by rw [hcf, e0, u0, if_pos rfl, redirectedIn, redirectedIn, hT0],
      by rw [hcf, e1, if_pos ⟨hn, by omega⟩, Nat.add_zero], fun g m hg => ?_⟩
    rw [hcf] at hg
    simpa [hn] using ex g m hg

/-- **A middle process.** The new pipe's read end takes `h'`, whichever of `f₀`, `f₁` quash does
not hold, and its write end `f₂`; quash then holds just its read end. The child reads the
previous pipe. It writes the new pipe only when the previous pipe's write end was `f₁`, that is
for the second process; otherwise that number is now the new pipe's write end, which the child
closes before its `dup2` onto standard output, and it writes where its redirects left standard
output. -/
theorem stage_mid (hT : Fds.ThreeFree t f₀ f₁ f₂) {k h w h' : Nat} (hM : Mid t k h w sh)
    (hh : h = f₀ ∧ h' = f₁ ∨ h = f₁ ∧ h' = f₀) (hw : w = f₁ ∨ w = f₂) (hwh : w ≠ h)
    (hpi : holder.flags.pipeIn = true) (hpo : holder.flags.pipeOut = true)
    (hpipe : os.pipe sh.pipeCount = true) {k₀ n s : Nat}
    (hks : k + 1 = k₀ + s) (hs : 0 < s) (hsn : s + 1 < n) (hsw : s < 2 ↔ w = f₁) :
    ∃ sh', createProcess os i holder sh pids = some (sh', os.fork i :: pids,
        if os.fork i = -1 then none else childProcess os holder (forkedFrom holder sh)) ∧
      Mid t (k + 1) h' f₂ sh' ∧
      ChildOk os t k₀ n s holder (childProcess os holder (forkedFrom holder sh)) := by
  have h₀₁ := hT.lt₀₁
  have h₁₂ := hT.lt₁₂
  have hth : t.get h = none := by rcases hh with ⟨rfl, -⟩ | ⟨rfl, -⟩ <;> simp [hT.free₀, hT.free₁]
  have hth' : t.get h' = none := by
    rcases hh with ⟨-, rfl⟩ | ⟨-, rfl⟩ <;> simp [hT.free₀, hT.free₁]
  obtain ⟨a₁, a₂, a₃, a₄⟩ : h ≠ f₂ ∧ h' ≠ f₂ ∧ h ≠ h' ∧ h' ≤ f₂ := by
    rcases hh with ⟨rfl, rfl⟩ | ⟨rfl, rfl⟩ <;> omega
  have hne : ∀ g, g ≠ f₀ → g ≠ f₁ → g ≠ h ∧ g ≠ h' := fun g h₀ h₁ => by
    rcases hh with ⟨rfl, rfl⟩ | ⟨rfl, rfl⟩
    exacts [⟨h₀, h₁⟩, ⟨h₁, h₀⟩]
  have hmem : ∀ g, g = f₀ ∨ g = f₁ → g = h ∨ g = h' := fun g hg => by
    rcases hh with ⟨rfl, rfl⟩ | ⟨rfl, rfl⟩
    exacts [hg, hg.symm]
  have hr : sh.fds.lowestFree = h' :=
    hT.lowestFree_eq (fun g h₀ h₁ => by rw [hM.fds, if_neg (hne g h₀ h₁).1]) a₄
      (by rw [hM.fds, if_neg a₃.symm, hth'])
      (fun g hg hg' => by rw [hM.fds, if_pos ((hmem g hg').resolve_right hg.ne)]; simp)
  have hw₂ : (sh.fds.alloc (.pipeRead (k + 1))).2.lowestFree = f₂ :=
    hT.lowestFree_eq
      (fun g h₀ h₁ => by
        rw [Fds.get_alloc, hr, if_neg (hne g h₀ h₁).2, hM.fds, if_neg (hne g h₀ h₁).1])
      le_rfl (by rw [Fds.get_alloc, hr, if_neg a₂.symm, hM.fds, if_neg a₁.symm]; exact hT.free₂)
      (fun g _ hg' => by
        rw [Fds.get_alloc, hr, hM.fds]; rcases hmem g hg' with rfl | rfl <;> simp [a₃])
  -- quash's table once the new pipe is created
  have hget : ∀ g, (sh.fds.pipe (k + 1)).2.get g = if g = f₂ then some (.pipeWrite (k + 1))
      else if g = h' then some (.pipeRead (k + 1)) else if g = h then some (.pipeRead k)
      else t.get g := fun g => by
    rw [Fds.get_pipe, hw₂, hr, hM.fds]
  have hf : forkedFrom holder sh = sh.addPipe := if_pos hpo
  have hff : (forkedFrom holder sh).fds = (sh.fds.pipe (k + 1)).2 := by rw [hf, ← hM.count]; rfl
  have hp : (sh.fds.pipe (k + 1)).1 = (h', f₂) := by rw [Fds.pipe_fst, hr, hw₂]
  obtain ⟨sh', hcp, hI', hprev', hslot', hcount', hfds'⟩ :=
    createProcess_spec os i holder pids hM.idx (fun _ => hM.prev) fun _ => hpipe
  refine ⟨sh', hcp, ⟨hI', hprev', by rw [hcount', hf, addPipe_pipeCount, hM.count], ?_,
    fun g => ?_⟩, ?_⟩
  · rw [hslot', hf, addPipe_slot_next hM.idx, hM.count, hp]
  · rw [hfds', hf]
    simp only [hpi, hpo, if_true, hp, addPipe_fds, hM.slot, Option.getD_some, Fds.get_close,
      hM.count, hget]
    by_cases e₂ : g = f₂
    · simp only [e₂, if_true, if_neg a₂.symm, hT.free₂]
    by_cases e : g = h
    · simp only [e, if_neg a₁, if_true, if_neg a₃, hth]
    simp only [e₂, e, if_false]
  · intro h0 h1
    obtain ⟨n0₀, n0₁, n0₂⟩ := hT.ne_of_open h0
    obtain ⟨n1₀, n1₁, n1₂⟩ := hT.ne_of_open h1
    obtain ⟨b₀, b₁⟩ : (0 ≠ h ∧ 0 ≠ h') ∧ (1 ≠ h ∧ 1 ≠ h') := ⟨hne 0 n0₀ n0₁, hne 1 n1₀ n1₁⟩
    have hT1 : (sh.fds.pipe (k + 1)).2.get 1 = t.get 1 := by
      rw [hget, if_neg n1₂, if_neg b₁.2, if_neg b₁.1]
    obtain ⟨out, hc⟩ := childProcess_spec os holder hM.idx (fun _ => hM.prev)
    simp only [hpi, hpo, if_true, hff, hM.count, hp, hM.slot, Option.getD_some] at hc
    obtain ⟨hnone, hsome⟩ := childProcess_cases os hc
      (by rwa [hget, if_neg n0₂, if_neg b₀.2, if_neg b₀.1]) (by rwa [hT1])
    refine ⟨hnone, fun c hc' => ?_⟩
    obtain ⟨u, hcf, -, u1, hu, hwr⟩ := hsome c hc'
    obtain ⟨e0, e1, ex⟩ := child_mid hT hget hu hwr hh hw h0 h1
    have hsk : k₀ + s - 1 = k := by omega
    refine ⟨by rw [hcf, e0, if_neg hs.ne', hsk], ?_, fun g m hg => ?_⟩
    · rw [hcf, e1, u1, ← hks]; simp only [hsn, true_and, hsw, redirectedOut, hT1]
    · rw [hcf] at hg
      simpa [← hks, hsn, hsw] using ex g m hg

/-- **The last process** of a pipeline: quash closes the read end it held, and is back to `t`;
the child reads the previous pipe and writes where its redirects left standard output. -/
theorem stage_last (hT : Fds.ThreeFree t f₀ f₁ f₂) {k h w : Nat} (hM : Mid t k h w sh)
    (hh : h = f₀ ∨ h = f₁) (hw : w = f₁ ∨ w = f₂) (hwh : w ≠ h)
    (hpi : holder.flags.pipeIn = true) (hpo : holder.flags.pipeOut = false) {k₀ n s : Nat}
    (hks : k + 1 = k₀ + s) (hs : 0 < s) (hsn : s + 1 = n) :
    ∃ sh', createProcess os i holder sh pids = some (sh', os.fork i :: pids,
        if os.fork i = -1 then none else childProcess os holder (forkedFrom holder sh)) ∧
      PipeIdx sh' ∧ (∀ g, sh'.fds.get g = t.get g) ∧ sh'.pipeCount = k + 1 ∧
      ChildOk os t k₀ n s holder (childProcess os holder (forkedFrom holder sh)) := by
  have hth : t.get h = none := by rcases hh with rfl | rfl <;> simp [hT.free₀, hT.free₁]
  have hf : forkedFrom holder sh = sh := if_neg (by simp [hpo])
  have hff : (forkedFrom holder sh).fds = sh.fds := by rw [hf]
  obtain ⟨sh', hcp, hI', -, -, hcount', hfds'⟩ :=
    createProcess_spec os i holder pids hM.idx (fun _ => hM.prev) (by simp [hpo])
  refine ⟨sh', hcp, hI', fun g => ?_, by rw [hcount', hf, hM.count], ?_⟩
  · rw [hfds', hf]
    simp only [hpi, hpo, if_true, Bool.false_eq_true, if_false, id, hM.slot, Option.getD_some,
      Fds.get_close, hM.fds]
    split_ifs <;> (try subst g) <;> first | rfl | exact hth.symm
  · intro h0 h1
    have h₀₁ := hT.lt₀₁
    obtain ⟨n0₀, n0₁, -⟩ := hT.ne_of_open h0
    obtain ⟨n1₀, n1₁, -⟩ := hT.ne_of_open h1
    obtain ⟨b₀, b₁⟩ : 0 ≠ h ∧ 1 ≠ h := by omega
    have hT1 : sh.fds.get 1 = t.get 1 := by rw [hM.fds, if_neg b₁]
    obtain ⟨out, hc⟩ := childProcess_spec os holder hM.idx (fun _ => hM.prev)
    simp only [hpi, hpo, if_true, Bool.false_eq_true, if_false, id, hff, hM.slot,
      Option.getD_some] at hc
    obtain ⟨hnone, hsome⟩ := childProcess_cases os hc (by rwa [hM.fds, if_neg b₀]) (by rwa [hT1])
    refine ⟨hnone, fun c hc' => ?_⟩
    obtain ⟨u, hcf, -, u1, hu, hwr⟩ := hsome c hc'
    obtain ⟨e0, e1, ex⟩ := child_last hT hM.fds hu hwr hh hw hwh h0 h1
    have hsk : k₀ + s - 1 = k := by omega
    exact ⟨by rw [hcf, e0, if_neg hs.ne', hsk], by rw [hcf, e1, u1, if_neg (by omega),
      redirectedOut, redirectedOut, hT1], fun g m hg => .inl (ex g m (by rwa [hcf] at hg))⟩

/-- **A job of one process**: quash's descriptors and pipes do not change, and the child has
quash's standard input and output, or its redirects' files. -/
theorem stage_single (hI : PipeIdx sh) (hpi : holder.flags.pipeIn = false)
    (hpo : holder.flags.pipeOut = false) :
    ∃ sh', createProcess os i holder sh pids = some (sh', os.fork i :: pids,
        if os.fork i = -1 then none else childProcess os holder (forkedFrom holder sh)) ∧
      PipeIdx sh' ∧ (∀ g, sh'.fds.get g = sh.fds.get g) ∧ sh'.pipeCount = sh.pipeCount ∧
      ChildOk os sh.fds sh.pipeCount 1 0 holder
        (childProcess os holder (forkedFrom holder sh)) := by
  have hf : forkedFrom holder sh = sh := if_neg (by simp [hpo])
  have hff : (forkedFrom holder sh).fds = sh.fds := by rw [hf]
  obtain ⟨sh', hcp, hI', -, -, hcount', hfds'⟩ :=
    createProcess_spec os i holder pids hI (by simp [hpi]) (by simp [hpo])
  refine ⟨sh', hcp, hI', fun g => by simp [hfds', hf, hpi, hpo], by rw [hcount', hf], ?_⟩
  intro h0 h1
  obtain ⟨out, hc⟩ := childProcess_spec os holder hI (by simp [hpi])
  simp only [hpi, hpo, Bool.false_eq_true, if_false, id, hff] at hc
  obtain ⟨hnone, hsome⟩ := childProcess_cases os hc h0 h1
  refine ⟨hnone, fun c hc' => ?_⟩
  obtain ⟨u, hcf, u0, u1, -, hwr⟩ := hsome c hc'
  exact ⟨by rw [hcf, u0, if_pos rfl], by rw [hcf, u1, if_neg (by omega)],
    fun g m hg => .inl (hwr g m (by rwa [hcf] at hg))⟩

end Stages

/-! ### The loop over a job -/

/-- The pids of `m` forks from the `i`-th, pushed in turn on the front of a deque. -/
theorem range_succ_forks (f : Nat → Int) (i m : Nat) (pids : List Int) :
    ((List.range m).map fun r => f (i + 1 + r)).reverse ++ f i :: pids =
      ((List.range (m + 1)).map fun r => f (i + r)).reverse ++ pids := by
  rw [List.range_succ_eq_map, List.map_cons, List.map_map, List.reverse_cons, List.append_assoc,
    Nat.add_zero]
  congr 4
  funext r
  simp only [Function.comp, Nat.succ_eq_add_one, Nat.add_right_comm, Nat.add_assoc]

/-- The children of `m` processes from the `i`-th, in order. -/
theorem range_succ_children (co : Nat → Option Child) (m : Nat) :
    (co 0).toList ++ (List.range m).filterMap (fun r => co (r + 1)) =
      (List.range (m + 1)).filterMap co := by
  rw [List.range_succ_eq_map, List.filterMap_cons, List.filterMap_map]
  cases co 0 <;> rfl

section Loop

variable {t : Fds} {f₀ f₁ f₂ : Nat} (os : Os) {e : CommandHolder} (rest : List CommandHolder)

/-- One round of the loop: `create_process` on a holder that is not `EOC`, then the rounds
after it, which push `m` more pids and collect their children. -/
theorem processLoop_cons {i m : Nat} {x : CommandHolder} {xs : List CommandHolder}
    {sh sh₁ sh' : Shell} {pids : List Int} {c : Option Child} {d : Nat → Option Child}
    (hx : x.cmd ≠ .eoc)
    (hcp : createProcess os i x sh pids =
      some (sh₁, os.fork i :: pids, if os.fork i = -1 then none else c))
    (hloop : processLoop os (i + 1) (xs ++ e :: rest) sh₁ (os.fork i :: pids) = some (sh',
      ((List.range m).map fun r => os.fork (i + 1 + r)).reverse ++ os.fork i :: pids,
      (List.range m).filterMap fun r => if os.fork (i + 1 + r) = -1 then none else d r)) :
    processLoop os i (x :: xs ++ e :: rest) sh pids = some (sh',
      ((List.range (m + 1)).map fun r => os.fork (i + r)).reverse ++ pids,
      (List.range (m + 1)).filterMap fun r =>
        if os.fork (i + r) = -1 then none else if r = 0 then c else d (r - 1)) := by
  rw [List.cons_append, processLoop, if_neg hx, hcp, Option.some_bind, hloop, Option.map_some',
    range_succ_forks os.fork i, ← range_succ_children]
  simp [Nat.add_right_comm i 1, Nat.add_assoc]

/-- The loop stops at an `EOC` holder. -/
theorem processLoop_eoc (he : e.cmd = .eoc) (i : Nat) (sh : Shell) (pids : List Int) :
    processLoop os i (e :: rest) sh pids = some (sh, pids, []) := by
  rw [processLoop, if_pos he]

/-- **The processes from the second on.** From quash between two processes of a job of `n`,
at process `s` with the job's first pipe the `k₀`-th, the loop runs the holders `js` left up to
the `EOC` holder `e`. It pushes each pid on the front of the deque, collects the children in
order, and leaves quash with the table `t` it had when the job started and `k₀ + n - 1` pipes
created. -/
theorem processLoop_from (hT : Fds.ThreeFree t f₀ f₁ f₂) (he : e.cmd = .eoc)
    (hpipe : ∀ k, os.pipe k = true) (k₀ n : Nat)
    (js : List CommandHolder) : ∀ (s i k h w : Nat) (sh : Shell) (pids : List Int),
      Mid t k h w sh → (s = 1 ∧ h = f₀ ∧ w = f₁ ∨ 2 ≤ s ∧ (h = f₀ ∨ h = f₁) ∧ w = f₂) →
      k + 1 = k₀ + s → s + js.length = n → js ≠ [] →
      (∀ r (hr : r < js.length), PipeFlags n (s + r) js[r].flags ∧ js[r].cmd ≠ .eoc) →
      ∃ (sh' : Shell) (cp : Nat → Option Child), processLoop os i (js ++ e :: rest) sh pids = some (sh',
          ((List.range js.length).map fun r => os.fork (i + r)).reverse ++ pids,
          (List.range js.length).filterMap fun r => if os.fork (i + r) = -1 then none else cp r) ∧
        PipeIdx sh' ∧ (∀ g, sh'.fds.get g = t.get g) ∧ sh'.pipeCount = k₀ + n - 1 ∧
        ∀ r (hr : r < js.length), ChildOk os t k₀ n (s + r) js[r] (cp r) := by
  induction js with
  | nil => exact fun _ _ _ _ _ _ _ _ _ _ _ hjs => absurd rfl hjs
  | cons x xs ih =>
    intro s i k h w sh pids hM hpos hks hlen _ hflags
    obtain ⟨⟨hpi, hpo⟩, hx⟩ := hflags 0 (by simp)
    simp only [List.getElem_cons_zero, Nat.add_zero] at hpi hpo hx
    have hs : 0 < s := by omega
    have hh : h = f₀ ∨ h = f₁ := by omega
    have hw : w = f₁ ∨ w = f₂ := by omega
    have hwh : w ≠ h := by have := hT.lt₀₁; have := hT.lt₁₂; omega
    rw [decide_eq_true (by omega : s ≠ 0)] at hpi
    cases xs with
    | nil =>
      -- the last process
      rw [decide_eq_false (by simp at hlen; omega)] at hpo
      obtain ⟨sh₁, hcp, hI₁, hfds₁, hc₁, hok⟩ :=
        stage_last os i pids hT hM hh hw hwh hpi hpo hks hs
          (by simpa using hlen)
      refine ⟨sh₁, fun r => if r = 0 then childProcess os x (forkedFrom x sh) else none,
        processLoop_cons os rest hx hcp (d := fun _ => none) (processLoop_eoc os rest he (i + 1) sh₁ _), hI₁, hfds₁,
        by simp at hlen; omega, fun r hr => ?_⟩
      obtain rfl : r = 0 := by simpa using hr
      simpa using hok
    | cons y ys =>
      -- a middle process
      rw [decide_eq_true (by simp at hlen; omega)] at hpo
      have hh' : h = f₀ ∧ (if h = f₀ then f₁ else f₀) = f₁ ∨
          h = f₁ ∧ (if h = f₀ then f₁ else f₀) = f₀ := by
        have := hT.lt₀₁
        rcases hh with rfl | rfl
        · exact .inl ⟨rfl, if_pos rfl⟩
        · exact .inr ⟨rfl, if_neg (by omega)⟩
      obtain ⟨sh₁, hcp, hM₁, hok⟩ :=
        stage_mid os i pids (n := n) hT hM hh' hw hwh hpi hpo (hpipe _) hks hs
          (by simp at hlen; omega) (by have := hT.lt₁₂; omega)
      obtain ⟨sh', cp, hloop, hI', hfds', hc', hok'⟩ :=
        ih (s + 1) (i + 1) (k + 1) _ f₂ sh₁ (os.fork i :: pids)
          hM₁ (.inr ⟨by omega, by split_ifs <;> simp, rfl⟩) (by omega)
          (by simp at hlen ⊢; omega) (List.cons_ne_nil _ _)
          fun r hr => by
            simpa [Nat.add_right_comm s 1 r, Nat.add_assoc] using
              hflags (r + 1) (by simp at hr ⊢; omega)
      refine ⟨sh', fun r => if r = 0 then childProcess os x (forkedFrom x sh) else cp (r - 1),
        processLoop_cons os rest hx hcp hloop, hI', hfds', hc', fun r hr => ?_⟩
      cases r with
      | zero => simpa using hok
      | succ r =>
        simpa [Nat.add_right_comm s 1 r, Nat.add_assoc] using hok' r (by simp at hr ⊢; omega)

/-- **The loop of `run_script` over a job.** On a command line whose first holders `js` are the
`n ≥ 1` commands of a pipeline, followed by an `EOC` holder, from any state whose pipe indices
are in order, and with every `pipe` succeeding: the loop returns; it pushes the pid of each
`fork`, in turn, on the front of the deque; it collects one child per successful `fork`, in
order; quash ends with the descriptors it started with, its pipe indices in order, and `n - 1` more pipes created. The `s`-th child,
if its holder has no redirects, is `Wired`: it reads the pipe before it, but writes its own only
if it is the first or the second. -/
theorem processLoop_pipeline (os : Os) (i : Nat) {sh : Shell} (pids : List Int)
    {js : List CommandHolder} {e : CommandHolder} (rest : List CommandHolder) (hI : PipeIdx sh)
    (hpipe : ∀ k, os.pipe k = true) (hjs : js ≠ [])
    (hflags : ∀ s (hs : s < js.length), PipeFlags js.length s js[s].flags ∧ js[s].cmd ≠ .eoc)
    (he : e.cmd = .eoc) :
    ∃ (sh' : Shell) (cp : Nat → Option Child), processLoop os i (js ++ e :: rest) sh pids =
        some (sh', ((List.range js.length).map fun s => os.fork (i + s)).reverse ++ pids,
          (List.range js.length).filterMap fun s => if os.fork (i + s) = -1 then none else cp s) ∧
      PipeIdx sh' ∧ (∀ g, sh'.fds.get g = sh.fds.get g) ∧
      sh'.pipeCount = sh.pipeCount + (js.length - 1) ∧
      ∀ s (hs : s < js.length), ChildOk os sh.fds sh.pipeCount js.length s js[s] (cp s) := by
  obtain ⟨f₀, f₁, f₂, hT⟩ := sh.fds.exists_threeFree
  obtain _ | ⟨x, xs⟩ := js
  · exact absurd rfl hjs
  obtain ⟨⟨hpi, hpo⟩, hx⟩ := hflags 0 (by simp)
  simp only [List.getElem_cons_zero, List.length_cons, ne_eq, not_true_eq_false,
    decide_False] at hpi hpo hx
  cases xs with
  | nil =>
    -- a single process
    rw [decide_eq_false (by simp)] at hpo
    obtain ⟨sh₁, hcp, hI₁, hfds₁, hc₁, hok⟩ :=
      stage_single os i pids hI hpi hpo
    refine ⟨sh₁, fun r => if r = 0 then childProcess os x (forkedFrom x sh) else none,
      processLoop_cons os rest hx hcp (d := fun _ => none) (processLoop_eoc os rest he (i + 1) sh₁ _), hI₁, hfds₁,
      by simpa using hc₁, fun s hs => ?_⟩
    obtain rfl : s = 0 := by simpa using hs
    simpa using hok
  | cons y ys =>
    -- the first of several
    rw [decide_eq_true (by simp)] at hpo
    obtain ⟨sh₁, hcp, hM₁, hok⟩ :=
      stage_first os i pids (n := ys.length + 2) hT hI (fun _ => rfl)
        hpi hpo (hpipe _) (by omega)
    obtain ⟨sh', cp, hloop, hI', hfds', hc', hok'⟩ :=
      processLoop_from os rest hT he hpipe sh.pipeCount (ys.length + 2)
        (y :: ys) 1 (i + 1) sh.pipeCount f₀ f₁ sh₁ (os.fork i :: pids) hM₁ (.inl ⟨rfl, rfl, rfl⟩)
        rfl (by simp; omega) (List.cons_ne_nil _ _) fun r hr => by
          simpa [Nat.add_comm 1 r] using hflags (r + 1) (by simp at hr ⊢; omega)
    refine ⟨sh', fun r => if r = 0 then childProcess os x (forkedFrom x sh) else cp (r - 1),
      processLoop_cons os rest hx hcp hloop, hI', hfds', by rw [hc']; simp, fun r hr => ?_⟩
    cases r with
    | zero => simpa using hok
    | succ r => simpa [Nat.add_comm 1 r] using hok' r (by simp at hr ⊢; omega)

end Loop

end Quash
