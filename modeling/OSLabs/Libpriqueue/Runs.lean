import OSLabs.Libpriqueue.Refinement

/-!
# Runs of `libpriqueue`

A run starts at `priqueue_init(q, comp)` and makes calls of `priqueue_offer`, `priqueue_peek`,
`priqueue_poll`, `priqueue_at`, `priqueue_remove` and `priqueue_remove_at`, the last two with
indices in range. One step lemma, `Rep.step`, says what each call does to the chain's cells;
everything about runs follows from it by induction.

## Main definitions

* `Libpriqueue.QOp` — a call with its arguments; `QOp.InRange` its contract.
* `Libpriqueue.QOp.onCells`, `Libpriqueue.QOp.onElems` — what a call does to the cells of the
  chain and to the element list.
* `Libpriqueue.QRun` — the runs from `priqueue_init`.

## Main results

* `Libpriqueue.Rep.step`, `Libpriqueue.QRun.rep` — every call of a run returns and keeps the
  representation invariant, and the node at address `a` holds the `a`-th element offered.
* `Libpriqueue.QRun.elems` — the element list of a run is the one the list functions compute:
  the node-level queue refines the element list the scheduler model works on.
* `Libpriqueue.rep_invariant` — `size` counts the chain, which ends in `NULL`, and
  `priqueue_offer` of a non-`NULL` element never returns `-1` and links the new node.
* `Libpriqueue.ordered_queue` — with a comparator that compares keys, the chain stays sorted by
  key and, among equal keys, by the order of the offers; peek and poll yield a least element,
  the earliest offered among ties.
-/

namespace Libpriqueue

variable {α : Type*}

/-- A call on the queue, with its arguments. -/
inductive QOp (α : Type*)
  | offer (ptr : Option α)
  | peek
  | poll
  | atIndex (index : Int)
  | remove (ptr : Option α)
  | removeAt (index : Int)

namespace QOp

/-- The contract of a call: `priqueue_at` and `priqueue_remove_at` take `0 ≤ index < size`. -/
def InRange (q : PriQueue α) : QOp α → Prop
  | atIndex i | removeAt i => 0 ≤ i ∧ i < q.size
  | _ => True

/-- The element a call offers. -/
def offered : QOp α → Option α
  | offer ptr => ptr
  | _ => none

variable [DecidableEq α]

/-- What a call does to the cells of the chain, an offer's new node lying at `brk`. -/
def onCells (comp : α → α → Int) (brk : Nat) : QOp α → List (Nat × α) → List (Nat × α)
  | offer none, cs | peek, cs | atIndex _, cs => cs
  | offer (some x), cs => Libpriqueue.offer (fun a b => comp a.2 b.2) (brk, x) cs
  | poll, cs => cs.tail
  | remove ptr, cs => cs.filter fun c => some c.2 ≠ ptr
  | removeAt i, cs => cs.eraseIdx i.toNat

/-- What a call does to the element list. -/
def onElems (comp : α → α → Int) : QOp α → List α → List α
  | offer none, l | peek, l | atIndex _, l => l
  | offer (some x), l => Libpriqueue.offer comp x l
  | poll, l => l.tail
  | remove ptr, l => l.filter fun y => some y ≠ ptr
  | removeAt i, l => l.eraseIdx i.toNat

end QOp

/-- The queue after a call, when the call has a result. -/
def PriQueue.apply [DecidableEq α] (q : PriQueue α) : QOp α → Option (PriQueue α)
  | .offer ptr => (q.priqueueOffer ptr).map Prod.fst
  | .peek => q.priqueuePeek.map fun _ => q
  | .poll => q.priqueuePoll.map Prod.fst
  | .atIndex i => (q.priqueueAt i).map fun _ => q
  | .remove ptr => (q.priqueueRemove ptr).map Prod.fst
  | .removeAt i => (q.priqueueRemoveAt i).map Prod.fst

/-- The runs from `priqueue_init(q, comp)`: the calls made, each in range and with a result,
and the queue they leave. -/
inductive QRun [DecidableEq α] (comp : α → α → Int) : List (QOp α) → PriQueue α → Prop
  | init : QRun comp [] (priqueueInit comp)
  | step {os : List (QOp α)} {q q' : PriQueue α} {o : QOp α} :
      QRun comp os q → o.InRange q → q.apply o = some q' → QRun comp (os ++ [o]) q'

instance (q : PriQueue α) : ∀ o : QOp α, Decidable (o.InRange q)
  | .atIndex i | .removeAt i => inferInstanceAs (Decidable (0 ≤ i ∧ i < q.size))
  | .offer _ | .peek | .poll | .remove _ => isTrue trivial

/-- A client's calls in order, from the queue `q`: each call in range and with a result, giving up
(`none`) at the first that is not. -/
def replayFrom [DecidableEq α] : PriQueue α → List (QOp α) → Option (PriQueue α)
  | q, [] => some q
  | q, o :: os => if o.InRange q then (q.apply o).bind fun q' => replayFrom q' os else none

/-- Calls that replay extend a run. -/
theorem QRun.replayFrom [DecidableEq α] {comp : α → α → Int} {os : List (QOp α)} {q : PriQueue α}
    (hr : QRun comp os q) {os' : List (QOp α)} {q' : PriQueue α} (h : replayFrom q os' = some q') :
    QRun comp (os ++ os') q' := by
  induction os' generalizing os q with
  | nil => rw [List.append_nil]; exact Option.some_inj.1 h ▸ hr
  | cons o os' ih =>
    simp only [Libpriqueue.replayFrom] at h
    split_ifs at h with hin
    obtain ⟨q₁, h₁, h⟩ := Option.bind_eq_some.1 h
    simpa using ih (hr.step hin h₁) h

/-- **A run read off one evaluation.** If the calls `os` replay from `priqueue_init` to a queue
observed by `f` as `v`, the run through `os` ends in a queue observed as `v`. -/
theorem exists_qrun_of_replay [DecidableEq α] {β : Type*} (comp : α → α → Int) (os : List (QOp α))
    (f : PriQueue α → β) {v : β} (h : (replayFrom (priqueueInit comp) os).map f = some v) :
    ∃ q, QRun comp os q ∧ f q = v := by
  obtain ⟨q, hq, rfl⟩ := Option.map_eq_some'.1 h
  exact ⟨q, by simpa using QRun.init.replayFrom hq, rfl⟩

/-! ### One call -/

section Step

variable [DecidableEq α] {q q' : PriQueue α} {cs : List (Nat × α)}

/-- **One call.** Under the invariant, a call in range returns, leaves the cells `onCells` makes,
keeps the comparator, and moves `brk` past the node it allocates. -/
theorem Rep.step (h : Rep q cs) {o : QOp α} (hin : o.InRange q) (ho : q.apply o = some q') :
    Rep q' (o.onCells q.comp q.brk cs) ∧ q'.comp = q.comp ∧ q'.brk = q.brk + o.offered.toList.length := by
  cases o with
  | offer ptr =>
    cases ptr with
    | none =>
      simp only [PriQueue.apply, PriQueue.priqueueOffer, Option.map_some', Option.some.injEq] at ho
      subst ho; exact ⟨h, rfl, rfl⟩
    | some x =>
      obtain ⟨q₁, hq, h₁, hc, hb⟩ := PriQueue.offer_spec h x
      simp only [PriQueue.apply, hq, Option.map_some', Option.some.injEq] at ho
      subst ho; exact ⟨h₁, hc, hb⟩
  | peek =>
    simp only [PriQueue.apply, PriQueue.peek_spec h, Option.map_some', Option.some.injEq] at ho
    subst ho; exact ⟨h, rfl, rfl⟩
  | poll =>
    obtain ⟨q₁, hq, h₁, hc, hb⟩ := PriQueue.poll_spec h
    simp only [PriQueue.apply, hq, Option.map_some', Option.some.injEq] at ho
    subst ho; exact ⟨h₁, hc, by simp [hb, QOp.offered]⟩
  | atIndex i =>
    obtain ⟨h0, hi⟩ := hin
    have hlt : i.toNat < cs.length := by have := h.size_eq; omega
    simp only [PriQueue.apply, PriQueue.at_spec h, if_neg (show ¬ (i > q.size ∨ i < 0) by omega),
      List.getElem?_eq_getElem hlt, Option.map_some', Option.some.injEq] at ho
    subst ho; exact ⟨h, rfl, rfl⟩
  | remove ptr =>
    obtain ⟨q₁, hq, h₁, hc, hb⟩ := PriQueue.remove_spec ptr h
    simp only [PriQueue.apply, hq, Option.map_some', Option.some.injEq] at ho
    subst ho; exact ⟨h₁, hc, by simp [hb, QOp.offered]⟩
  | removeAt i =>
    obtain ⟨q₁, hq, h₁, hc, hb⟩ := PriQueue.removeAt_spec h hin.1 hin.2
    simp only [PriQueue.apply, hq, Option.map_some', Option.some.injEq] at ho
    subst ho; exact ⟨h₁, hc, by simp [hb, QOp.offered]⟩

end Step

/-! ### Runs -/

section Run

variable [DecidableEq α] {comp : α → α → Int}

/-- The elements offered along a sequence of calls, in order. -/
def offers (os : List (QOp α)) : List α := os.filterMap QOp.offered

/-- A cell a call leaves is the new node of an offer, or was there before. -/
theorem QOp.mem_onCells {brk : Nat} {o : QOp α} {cs : List (Nat × α)} {c : Nat × α}
    (hc : c ∈ o.onCells comp brk cs) : (∃ x, o.offered = some x ∧ c = (brk, x)) ∨ c ∈ cs := by
  cases o with
  | offer ptr =>
    cases ptr with
    | none => exact .inr hc
    | some x => exact ((mem_offer _ _).1 hc).imp (fun e => ⟨x, rfl, e⟩) id
  | peek | atIndex _ => exact .inr hc
  | poll => exact .inr (List.mem_of_mem_tail hc)
  | remove _ => exact .inr (List.mem_of_mem_filter hc)
  | removeAt _ => exact .inr (List.mem_of_mem_eraseIdx hc)

/-- **Runs keep the invariant.** After every run the queue has a chain, keeps its comparator,
and the node at address `a` holds the `a`-th element offered. -/
theorem QRun.rep {os : List (QOp α)} {q : PriQueue α} (hr : QRun comp os q) :
    ∃ cs, Rep q cs ∧ q.comp = comp ∧ q.brk = (offers os).length ∧
      ∀ c ∈ cs, (offers os)[c.1]? = some c.2 := by
  induction hr with
  | init => exact ⟨[], rep_init comp, rfl, rfl, fun _ h => absurd h (List.not_mem_nil _)⟩
  | @step os q q' o _ hin ho ih =>
    obtain ⟨cs, h, hcomp, hbrk, hcells⟩ := ih
    obtain ⟨h', hcomp', hbrk'⟩ := h.step hin ho
    have hoffers : offers (os ++ [o]) = offers os ++ o.offered.toList := by
      simp only [offers, List.filterMap_append, List.filterMap_cons, List.filterMap_nil]
      cases o.offered <;> rfl
    refine ⟨_, h', hcomp'.trans hcomp, by rw [hbrk', hoffers, hbrk, List.length_append], fun c hc => ?_⟩
    rw [hoffers]
    rcases QOp.mem_onCells hc with ⟨x, hx, rfl⟩ | hc
    · rw [hx, hbrk]; simp
    · have hlt : c.1 < (offers os).length := hbrk ▸ h.below c hc
      rw [List.getElem?_append_left hlt]; exact hcells c hc

/-- Erasing a position commutes with relabelling. -/
theorem map_eraseIdx {β γ : Type*} (f : β → γ) : ∀ (l : List β) (i : Nat), (l.eraseIdx i).map f = (l.map f).eraseIdx i
  | [], _ => rfl
  | _ :: _, 0 => rfl
  | _ :: l, i + 1 => by simp [map_eraseIdx f l i]

/-- On the elements, a call acts as the list functions of `OSLabs.Libpriqueue.Elems` do. -/
theorem QOp.map_onCells (o : QOp α) (brk : Nat) (cs : List (Nat × α)) :
    (o.onCells comp brk cs).map Prod.snd = o.onElems comp (cs.map Prod.snd) := by
  cases o with
  | offer ptr =>
    cases ptr with
    | none => rfl
    | some x => exact map_offer Prod.snd comp (brk, x) cs
  | peek | atIndex _ => rfl
  | poll => exact List.map_tail _ _
  | remove ptr => simp only [QOp.onCells, QOp.onElems, List.filter_map]; rfl
  | removeAt i => exact map_eraseIdx _ _ _

/-- **The node-level queue refines its element list**: after a run, the elements along the
chain are those the list functions compute from the calls. -/
theorem QRun.elems {os : List (QOp α)} {q : PriQueue α} (hr : QRun comp os q) :
    ∃ cs, Rep q cs ∧ cs.map Prod.snd = os.foldl (fun l o => o.onElems comp l) [] := by
  suffices ∃ cs, Rep q cs ∧ q.comp = comp ∧ cs.map Prod.snd = os.foldl (fun l o => o.onElems comp l) [] from
    this.imp fun _ h => ⟨h.1, h.2.2⟩
  induction hr with
  | init => exact ⟨[], rep_init comp, rfl, rfl⟩
  | step _ hin ho ih =>
    obtain ⟨cs, h, hcomp, hl⟩ := ih
    obtain ⟨h', hcomp', -⟩ := h.step hin ho
    exact ⟨_, h', hcomp'.trans hcomp, by rw [List.foldl_append, List.foldl_cons, List.foldl_nil, ← hl, ← hcomp,
      QOp.map_onCells]⟩

/-- **The representation invariant.** After every run, `size` counts the nodes of the chain from
`head`, which ends in `NULL`; and `priqueue_offer` of a non-`NULL` element returns, never `-1`,
and links its new node into the chain. -/
theorem rep_invariant {os : List (QOp α)} {q : PriQueue α} (hr : QRun comp os q) :
    (∃ cs, Seg q.heap q.head cs none ∧ q.size = cs.length) ∧
    ∀ x, ∃ q' r, q.priqueueOffer (some x) = some (q', r) ∧ r ≠ -1 ∧
      ∃ cs', Seg q'.heap q'.head cs' none ∧ q'.size = cs'.length ∧ (q.brk, x) ∈ cs' := by
  obtain ⟨cs, h, -⟩ := hr.rep
  refine ⟨⟨cs, h.seg, h.size_eq⟩, fun x => ?_⟩
  obtain ⟨q', hq, h', -⟩ := PriQueue.offer_spec h x
  exact ⟨q', _, hq, by omega, _, h'.seg, h'.size_eq, (mem_offer _ _).2 (.inl rfl)⟩

/-- The comparator of `Nat`s in increasing order. -/
def natComp (a b : Nat) : Int := if a < b then -1 else 1

/-- Offering `3`, `1`, `2` and `1` runs the offer loop past the front; removing `1` then unlinks the
run of two at the head, and removing `3` the node after `2`, each counting `size` down. -/
theorem rep_invariant_removes :
    let os : List (QOp Nat) := [.offer (some 3), .offer (some 1), .offer (some 2), .offer (some 1),
      .remove (some 1), .remove (some 3)]
    ∃ q, QRun natComp os q ∧ q.size = 1 ∧ os.foldl (fun l o => o.onElems natComp l) [] = [2] ∧
      (∃ cs, Seg q.heap q.head cs none ∧ q.size = cs.length) ∧
      ∀ x, ∃ q' r, q.priqueueOffer (some x) = some (q', r) ∧ r ≠ -1 ∧
        ∃ cs', Seg q'.heap q'.head cs' none ∧ q'.size = cs'.length ∧ (q.brk, x) ∈ cs' := by
  intro os
  obtain ⟨q, hr, hsize⟩ := exists_qrun_of_replay natComp os PriQueue.size (v := 1) (by decide)
  exact ⟨q, hr, hsize, by decide, rep_invariant hr⟩

section Order

variable {β : Type*} [LinearOrder β] (k : α → β)

/-- Sorted by key, and among equal keys by node address. -/
def KeyOrder : Nat × α → Nat × α → Prop := KeyLex (fun c => k c.2) (fun c d => c.1 < d.1)

variable {k}

/-- **One call keeps the key order**, when the comparator compares keys and the new node lies
above every node of the chain. -/
theorem sorted_onCells (hcomp : ∀ a b, comp a b < 0 ↔ k a < k b) {brk : Nat} {cs : List (Nat × α)}
    (hs : cs.Sorted (KeyOrder k)) (hbrk : ∀ c ∈ cs, c.1 < brk) (o : QOp α) :
    (o.onCells comp brk cs).Sorted (KeyOrder k) := by
  cases o with
  | offer ptr =>
    cases ptr with
    | none => exact hs
    | some x => exact sorted_offer _ _ _ (brk, x) hs hbrk fun e _ => hcomp x e.2
  | peek | atIndex _ => exact hs
  | poll => exact hs.sublist (List.tail_sublist cs)
  | remove ptr => exact hs.filter _
  | removeAt i => exact hs.eraseIdx _

/-- Along a run whose comparator compares keys, the chain stays in key order. -/
theorem QRun.sorted (hcomp : ∀ a b, comp a b < 0 ↔ k a < k b) {os : List (QOp α)} {q : PriQueue α}
    (hr : QRun comp os q) : ∃ cs, Rep q cs ∧ cs.Sorted (KeyOrder k) := by
  suffices ∃ cs, Rep q cs ∧ q.comp = comp ∧ cs.Sorted (KeyOrder k) from this.imp fun _ h => ⟨h.1, h.2.2⟩
  induction hr with
  | init => exact ⟨[], rep_init comp, rfl, List.sorted_nil⟩
  | step _ hin ho ih =>
    obtain ⟨cs, h, hcomp', hs⟩ := ih
    obtain ⟨h', hc, -⟩ := h.step hin ho
    exact ⟨_, h', hc.trans hcomp', sorted_onCells (hcomp' ▸ hcomp) hs h.below _⟩

/-- **The queue keeps key order, stably.** With a comparator that answers `< 0` exactly when the
first key is smaller, after every run the node at address `a` holds the `a`-th element offered,
the elements along the chain are those the list functions compute from the calls, the chain is
sorted by key and, among equal keys, by address, that is by order of offer; and peek and poll
yield the first element, of least key and offered earliest among those of its key. -/
theorem ordered_queue (hcomp : ∀ a b, comp a b < 0 ↔ k a < k b) {os : List (QOp α)} {q : PriQueue α}
    (hr : QRun comp os q) :
    ∃ cs, Rep q cs ∧ (∀ c ∈ cs, (offers os)[c.1]? = some c.2) ∧
      cs.map Prod.snd = os.foldl (fun l o => o.onElems comp l) [] ∧ cs.Sorted (KeyOrder k) ∧
      ∀ a y, cs.head? = some (a, y) → q.priqueuePeek = some (some y) ∧
        (∃ q', q.priqueuePoll = some (q', some y)) ∧ ∀ c ∈ cs, k y ≤ k c.2 ∧ (k c.2 = k y → a ≤ c.1) := by
  obtain ⟨cs, h, -, -, hcells⟩ := hr.rep
  obtain ⟨cs', h', hs⟩ := hr.sorted hcomp
  obtain ⟨cs'', h'', hl⟩ := hr.elems
  obtain rfl := h.unique h'
  obtain rfl := h.unique h''
  refine ⟨cs, h, hcells, hl, hs, fun a y hy => ⟨by simp [PriQueue.peek_spec h, hy], ?_, fun c hc => ?_⟩⟩
  · obtain ⟨q', hp, -⟩ := PriQueue.poll_spec h
    exact ⟨q', by simp [hp, hy]⟩
  · obtain ⟨rest, rfl⟩ : ∃ rest, cs = (a, y) :: rest := ⟨cs.tail, by cases cs <;> simp_all⟩
    rcases List.mem_cons.1 hc with rfl | hc
    · exact ⟨le_rfl, fun _ => le_rfl⟩
    · rcases List.rel_of_sorted_cons hs c hc with hlt | ⟨heq, hlt⟩
      · exact ⟨hlt.le, fun e => absurd e hlt.ne'⟩
      · exact ⟨heq.le, fun _ => hlt.le⟩

theorem natComp_lt (a b : Nat) : natComp a b < 0 ↔ id a < id b := by
  unfold natComp; split_ifs <;> simp_all

/-- Offering `3`, `1`, `3` and `2` and polling once leaves `2, 3, 3`, the two `3`s in the order
they were offered. -/
theorem ordered_queue_offers :
    let os : List (QOp Nat) := [.offer (some 3), .offer (some 1), .offer (some 3), .offer (some 2), .poll]
    (∀ a b, natComp a b < 0 ↔ id a < id b) ∧ ∃ q, QRun natComp os q ∧ q.priqueuePeek = some (some 2) ∧
      os.foldl (fun l o => o.onElems natComp l) [] = [2, 3, 3] ∧
      ∃ cs, Rep q cs ∧ (∀ c ∈ cs, (offers os)[c.1]? = some c.2) ∧
        cs.map Prod.snd = os.foldl (fun l o => o.onElems natComp l) [] ∧ cs.Sorted (KeyOrder id) ∧
        ∀ a y, cs.head? = some (a, y) → q.priqueuePeek = some (some y) ∧
          (∃ q', q.priqueuePoll = some (q', some y)) ∧ ∀ c ∈ cs, id y ≤ id c.2 ∧ (id c.2 = id y → a ≤ c.1) := by
  intro os
  obtain ⟨q, hr, hpeek⟩ := exists_qrun_of_replay natComp os PriQueue.priqueuePeek
    (v := some (some 2)) (by decide)
  exact ⟨natComp_lt, q, hr, hpeek, by decide, ordered_queue natComp_lt hr⟩

end Order

end Run

end Libpriqueue
