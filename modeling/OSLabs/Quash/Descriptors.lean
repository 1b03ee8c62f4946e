import Mathlib.Data.List.Basic

/-!
# Descriptor tables and the calls `create_process` makes on them

`create_process` in `execute.c` wires a pipeline with `pipe`, `fork`, `dup2` and `close`, and
opens redirect targets with `fopen`. What these calls do to a process's descriptor table is
fixed by POSIX, and what the wiring achieves depends on it. Every call that opens a descriptor
takes the lowest-numbered one that is not open in the process. `close` of a descriptor that is
not open fails with `EBADF` and changes nothing. `dup2(old, new)` of an `old` that is not open
fails in the same way and leaves `new` as it was. `fork` gives the child a copy of the table.

## Design

A table is the list of its slots, `none` for a closed descriptor. A descriptor beyond the list
is closed too, so two lists that differ only in closed slots at the end are the same table;
every statement is therefore made through `Quash.Fds.get`, and none compares the lists.
Descriptors are `Nat`: the values `create_process` passes to `close` and `dup2` are the ones
`pipe` stored or `0` and `1`, never negative. The descriptor limit (`EMFILE`) is not modelled.

## Main definitions

* `Quash.Obj` — what a descriptor refers to.
* `Quash.Fds.alloc`, `Quash.Fds.pipe`, `Quash.Fds.close`, `Quash.Fds.dup2` — the calls.

## Main results

* `Quash.Fds.lowestFree_eq_of` — the lowest free descriptor, from the table alone.
* `Quash.Fds.exists_threeFree` — the three lowest free descriptors of a table, which are the
  only ones a pipeline of quash ever uses.
-/

namespace Quash

/-- How `fopen` opens a redirect target: `"r"`, `"w"` or `"a"`. -/
inductive FileMode where
  | read | write | append
  deriving DecidableEq, Repr

/-- What an open descriptor refers to: something quash already had open when it started
(named by the descriptor it had then), the read or write end of the `k`-th pipe quash created,
or a file a child opened for a redirect. -/
inductive Obj where
  | inherited (fd : Nat)
  | pipeRead (k : Nat)
  | pipeWrite (k : Nat)
  | file (path : String) (mode : FileMode)
  deriving DecidableEq, Repr

/-- A process's descriptor table: slot `fd` holds what descriptor `fd` refers to, `none` when
it is closed. -/
structure Fds where
  slots : List (Option Obj)
  deriving DecidableEq, Repr

namespace Fds

variable (t : Fds)

/-- What descriptor `fd` refers to, `none` when it is not open. -/
def get (fd : Nat) : Option Obj := (t.slots[fd]?).join

/-- Point descriptor `fd` at `v`, growing the table with closed slots when `fd` lies beyond
it. -/
def set (fd : Nat) (v : Option Obj) : Fds :=
  if fd < t.slots.length then ⟨t.slots.set fd v⟩
  else ⟨t.slots ++ List.replicate (fd - t.slots.length) none ++ [v]⟩

/-- The lowest-numbered descriptor that is not open. -/
def lowestFree : Nat := t.slots.findIdx Option.isNone

/-- Open a new descriptor on `o`: the lowest-numbered one that is not open. -/
def alloc (o : Obj) : Nat × Fds := (t.lowestFree, t.set t.lowestFree (some o))

/-- `pipe(fds)` creating the `k`-th pipe: `fds[0]`, the read end, and then `fds[1]`, the
write end, each on the lowest free descriptor. -/
def pipe (k : Nat) : (Nat × Nat) × Fds :=
  let r := t.alloc (.pipeRead k)
  let w := r.2.alloc (.pipeWrite k)
  ((r.1, w.1), w.2)

/-- `close(fd)`: on a descriptor that is not open it fails with `EBADF` and changes nothing. -/
def close (fd : Nat) : Fds := ⟨t.slots.set fd none⟩

/-- `dup2(old, new)`: point `new` where `old` points, closing what `new` was open on. When
`old` is not open the call fails with `EBADF` and changes nothing; when `old = new` it changes
nothing either. -/
def dup2 (old new : Nat) : Fds :=
  match t.get old with
  | none => t
  | some o => if old = new then t else t.set new (some o)

/-- The table a process starts with when descriptor `i` is open exactly when `openFds[i]`:
each open one refers to what it was inherited as. -/
def inherited (openFds : List Bool) : Fds :=
  ⟨openFds.mapIdx fun i b => if b then some (.inherited i) else none⟩

/-! ### What each call does to each descriptor -/

variable {t}

@[simp]
theorem get_set (fd : Nat) (v : Option Obj) (g : Nat) :
    (t.set fd v).get g = if g = fd then v else t.get g := by
  unfold set get
  split_ifs with hlt hg hg
  · subst hg; simp [List.getElem?_set, hlt]
  · simp [List.getElem?_set, Ne.symm hg]
  · subst hg
    rw [List.getElem?_append_right (by simp; omega)]
    simp only [List.length_append, List.length_replicate]
    rw [show g - (t.slots.length + (g - t.slots.length)) = 0 by omega]
    rfl
  · by_cases hl : g < t.slots.length
    · rw [List.append_assoc, List.getElem?_append_left hl]
    · rw [List.getElem?_eq_none (by omega : t.slots.length ≤ g)]
      rcases Nat.lt_or_gt_of_ne hg with h | h
      · rw [List.getElem?_append_left (by simp; omega), List.getElem?_append_right (by omega),
          List.getElem?_replicate, if_pos (by omega)]
        rfl
      · rw [List.getElem?_eq_none (by simp; omega)]

@[simp]
theorem get_close (fd g : Nat) : (t.close fd).get g = if g = fd then none else t.get g := by
  unfold close get
  by_cases hg : g = fd
  · subst hg; rw [if_pos rfl, List.getElem?_set, if_pos rfl]; split_ifs <;> rfl
  · rw [if_neg hg, List.getElem?_set_ne (Ne.symm hg)]

theorem get_dup2 (old new g : Nat) :
    (t.dup2 old new).get g = if g = new ∧ t.get old ≠ none then t.get old else t.get g := by
  unfold dup2
  cases ho : t.get old with
  | none => simp
  | some o =>
    simp only [ne_eq, reduceCtorEq, not_false_eq_true, and_true]
    split_ifs with h hg hg
    · subst h hg; exact ho
    · rfl
    · rw [get_set, if_pos hg]
    · rw [get_set, if_neg hg]

theorem get_inherited (openFds : List Bool) (g : Nat) :
    (inherited openFds).get g = if openFds[g]? = some true then some (.inherited g) else none := by
  unfold inherited get
  rw [List.getElem?_mapIdx]
  cases openFds[g]? with
  | none => rfl
  | some b => cases b <;> rfl

theorem get_dup2_of_some {old new : Nat} {o : Obj} (ho : t.get old = some o) (g : Nat) :
    (t.dup2 old new).get g = if g = new then some o else t.get g := by
  rw [get_dup2, ho]; simp

/-- A `dup2` from a descriptor that is not open fails and changes nothing. -/
theorem get_dup2_of_none {old new : Nat} (ho : t.get old = none) (g : Nat) :
    (t.dup2 old new).get g = t.get g := by
  rw [get_dup2, ho]; simp

theorem get_lowestFree : t.get t.lowestFree = none := by
  unfold get lowestFree
  by_cases h : t.slots.findIdx Option.isNone < t.slots.length
  · have := List.findIdx_getElem (w := h)
    rw [List.getElem?_eq_getElem h, Option.isNone_iff_eq_none.1 this]
    rfl
  · rw [List.getElem?_eq_none (by omega)]
    rfl

theorem get_ne_none_of_lt_lowestFree {g : Nat} (h : g < t.lowestFree) : t.get g ≠ none := by
  have hlen : g < t.slots.length := Nat.lt_of_lt_of_le h (List.findIdx_le_length _)
  have hs := List.not_of_lt_findIdx h
  unfold get
  rw [List.getElem?_eq_getElem hlen]
  simpa [← Option.isSome_iff_ne_none] using hs

/-- The lowest free descriptor is the `f` that is free with every descriptor below it open. -/
theorem lowestFree_eq_of {f : Nat} (hf : t.get f = none) (hlt : ∀ g < f, t.get g ≠ none) :
    t.lowestFree = f := by
  rcases Nat.lt_trichotomy t.lowestFree f with h | h | h
  · exact absurd get_lowestFree (hlt _ h)
  · exact h
  · exact absurd hf (get_ne_none_of_lt_lowestFree h)

@[simp]
theorem alloc_fst (o : Obj) : (t.alloc o).1 = t.lowestFree := rfl

@[simp]
theorem get_alloc (o : Obj) (g : Nat) :
    (t.alloc o).2.get g = if g = t.lowestFree then some o else t.get g :=
  get_set _ _ _

@[simp]
theorem pipe_fst (k : Nat) :
    (t.pipe k).1 = (t.lowestFree, (t.alloc (.pipeRead k)).2.lowestFree) := rfl

/-- A new pipe: the read end on the lowest free descriptor, the write end on the next. -/
theorem get_pipe (k g : Nat) :
    (t.pipe k).2.get g = if g = (t.alloc (.pipeRead k)).2.lowestFree then some (.pipeWrite k)
      else if g = t.lowestFree then some (.pipeRead k) else t.get g := by
  simp only [pipe, get_alloc]

/-- The three lowest free descriptors of a table: `f₀ < f₁ < f₂` are free and every other
descriptor below `f₂` is open. -/
structure ThreeFree (t : Fds) (f₀ f₁ f₂ : Nat) : Prop where
  lt₀₁ : f₀ < f₁
  lt₁₂ : f₁ < f₂
  free₀ : t.get f₀ = none
  free₁ : t.get f₁ = none
  free₂ : t.get f₂ = none
  below : ∀ g < f₂, g ≠ f₀ → g ≠ f₁ → t.get g ≠ none

/-- **The three lowest free descriptors** exist in every table. -/
theorem exists_threeFree (t : Fds) : ∃ f₀ f₁ f₂, ThreeFree t f₀ f₁ f₂ := by
  let o : Obj := .inherited 0
  set t₁ := (t.alloc o).2 with ht₁
  set t₂ := (t₁.alloc o).2 with ht₂
  have h₁ : ∀ g, t₁.get g = if g = t.lowestFree then some o else t.get g := get_alloc o
  have h₂ : ∀ g, t₂.get g = if g = t₁.lowestFree then some o else t₁.get g := get_alloc o
  have hf₁ : t₁.get t₁.lowestFree = none := get_lowestFree
  have hf₂ : t₂.get t₂.lowestFree = none := get_lowestFree
  have hne₀₁ : t₁.lowestFree ≠ t.lowestFree := fun e => by simp [h₁, e] at hf₁
  have hne₁₂ : t₂.lowestFree ≠ t₁.lowestFree := fun e => by simp [h₂, e] at hf₂
  have hne₀₂ : t₂.lowestFree ≠ t.lowestFree := fun e => by simp [h₂, h₁, e, hne₀₁.symm] at hf₂
  have hlt₀₁ : t.lowestFree < t₁.lowestFree := by
    refine Nat.lt_of_le_of_ne (Nat.not_lt.1 fun h => ?_) hne₀₁.symm
    exact get_ne_none_of_lt_lowestFree h (by rw [← hf₁, h₁, if_neg hne₀₁])
  have hlt₁₂ : t₁.lowestFree < t₂.lowestFree := by
    refine Nat.lt_of_le_of_ne (Nat.not_lt.1 fun h => ?_) hne₁₂.symm
    exact get_ne_none_of_lt_lowestFree h (by rw [← hf₂, h₂, if_neg hne₁₂])
  refine ⟨_, _, _, hlt₀₁, hlt₁₂, get_lowestFree, ?_, ?_, fun g hg hg₀ hg₁ => ?_⟩
  · simpa [h₁, hne₀₁] using hf₁
  · simpa [h₂, h₁, hne₁₂, hne₀₂] using hf₂
  · simpa [h₂, h₁, hg₀, hg₁] using get_ne_none_of_lt_lowestFree hg

namespace ThreeFree

variable {f₀ f₁ f₂ : Nat} (hT : ThreeFree t f₀ f₁ f₂)
include hT

/-- An open descriptor of the table is none of the three. -/
theorem ne_of_open {g : Nat} (hg : t.get g ≠ none) : g ≠ f₀ ∧ g ≠ f₁ ∧ g ≠ f₂ :=
  ⟨fun e => hg (e ▸ hT.free₀), fun e => hg (e ▸ hT.free₁), fun e => hg (e ▸ hT.free₂)⟩

/-- The lowest free descriptor of a table `u` that agrees with `t` off `f₀` and `f₁`: the `f`
up to `f₂` that is free in `u` with whichever of `f₀`, `f₁` lie below it open. -/
theorem lowestFree_eq {u : Fds} {f : Nat} (hu : ∀ g, g ≠ f₀ → g ≠ f₁ → u.get g = t.get g)
    (hf : f ≤ f₂) (hfree : u.get f = none) (hopen : ∀ g < f, g = f₀ ∨ g = f₁ → u.get g ≠ none) :
    u.lowestFree = f :=
  lowestFree_eq_of hfree fun g hg => by
    by_cases h : g = f₀ ∨ g = f₁
    · exact hopen g hg h
    · push_neg at h
      rw [hu g h.1 h.2]
      exact hT.below g (by omega) h.1 h.2

end ThreeFree

end Fds

end Quash
