import Mathlib.Logic.Function.Basic

/-!
# `libpriqueue.c`: the node-level model

A `priqueue_t` is a `size` counter, a `head` pointer and a comparator; its elements sit in
`node_t` cells linked by `next` pointers, each allocated by `new_node` and released by `free`.
This file translates every operation of `libpriqueue.c` on that representation. Pointers are
addresses into a heap of nodes, `NULL` is `none`, and a call that dereferences `NULL` or an
unallocated address has no result (`none`).

## Main definitions

* `Libpriqueue.Node`, `Libpriqueue.PriQueue` — `node_t` and `priqueue_t` with the nodes' heap.
* `Libpriqueue.priqueueInit`, `PriQueue.priqueueOffer`, `PriQueue.priqueuePeek`,
  `PriQueue.priqueuePoll`, `PriQueue.priqueueAt`, `PriQueue.priqueueRemove`,
  `PriQueue.priqueueRemoveAt`, `PriQueue.priqueueDestroy` — the operations.

## Implementation notes

`malloc` hands out `brk` and moves it up, so no two nodes ever share an address, and the
address of a node records when it was allocated. The elements are of any type `α`; the queue
only compares them with `comp` and, in `priqueue_remove`, with `==`.

The loops bounded by `size` (in `priqueue_offer`, the first loop of `priqueue_remove`,
`priqueue_destroy`) recurse on the passes left; the traversals of `priqueue_at` and
`priqueue_remove_at` on the index. The second loop of `priqueue_remove` runs until it meets
`NULL`, so it takes a number of passes, `size` of them when it is called, and has no result when
they run out.
-/

namespace Libpriqueue

/-- `node_t`: a data pointer and the address of the next node. -/
structure Node (α : Type*) where
  data : α
  next : Option Nat

/-- `priqueue_t`, with the heap of its nodes: `heap a` is the node at address `a`, `none` when
`a` is not allocated, and `brk` is the address the next `malloc` returns. -/
structure PriQueue (α : Type*) where
  size : Int
  head : Option Nat
  comp : α → α → Int
  heap : Nat → Option (Node α)
  brk : Nat

variable {α : Type*}

/-- `priqueue_init(q, comparer)`. -/
def priqueueInit (comparer : α → α → Int) : PriQueue α where
  size := 0
  head := none
  comp := comparer
  heap := fun _ => none
  brk := 0

namespace PriQueue

variable (q : PriQueue α)

/-! ### Heap access -/

/-- `*p`: a `NULL` or unallocated pointer has no node. -/
def deref (p : Option Nat) : Option (Node α) := p.bind q.heap

/-- `new_node(ptr)`: `malloc` a node at `brk` holding `x`, with `next = NULL`. -/
def newNode (x : α) : PriQueue α :=
  { q with heap := Function.update q.heap q.brk (some ⟨x, none⟩), brk := q.brk + 1 }

@[simp] theorem newNode_size (x : α) : (q.newNode x).size = q.size := rfl
@[simp] theorem newNode_head (x : α) : (q.newNode x).head = q.head := rfl
@[simp] theorem newNode_comp (x : α) : (q.newNode x).comp = q.comp := rfl
@[simp] theorem newNode_brk (x : α) : (q.newNode x).brk = q.brk + 1 := rfl
@[simp] theorem newNode_heap (x : α) :
    (q.newNode x).heap = Function.update q.heap q.brk (some ⟨x, none⟩) := rfl

/-- `p->next = nx` for the node at address `a`. -/
def setNext (a : Nat) (nx : Option Nat) : Option (PriQueue α) :=
  (q.heap a).map fun n => { q with heap := Function.update q.heap a (some { n with next := nx }) }

/-- `free(p)` for the node at address `a`. -/
def free (a : Nat) : PriQueue α := { q with heap := Function.update q.heap a none }

@[simp] theorem free_size (a : Nat) : (q.free a).size = q.size := rfl
@[simp] theorem free_head (a : Nat) : (q.free a).head = q.head := rfl
@[simp] theorem free_comp (a : Nat) : (q.free a).comp = q.comp := rfl
@[simp] theorem free_brk (a : Nat) : (q.free a).brk = q.brk := rfl
@[simp] theorem free_heap (a : Nat) : (q.free a).heap = Function.update q.heap a none := rfl

/-- `insert(cNode, newNode)`: link `newNode` right after `cNode`. -/
def insert (cNode newNode : Nat) : Option (PriQueue α) := do
  let c ← q.heap cNode
  let q ← q.setNext cNode (some newNode)
  q.setNext newNode c.next

/-- `cNode = cNode->next`, `k` times from `p`. -/
def walk : Option Nat → Nat → Option (Option Nat)
  | p, 0 => some p
  | p, k + 1 => (q.deref p).bind fun n => walk n.next k

/-! ### The operations -/

/-- The loop of `priqueue_offer` at `cNode`, the node at position `i`, with `k` passes left
before `i` reaches `size`: link `node` after `cNode` if `cNode` is last or the next element
goes after `x`. When the passes run out, `-1` ("could not insert"). -/
def offerLoop (node : Nat) (x : α) : Nat → Nat → Nat → Option (PriQueue α × Int)
  | 0, _, _ => some (q, -1)
  | k + 1, cNode, i => (q.heap cNode).bind fun c =>
    let link := (q.insert cNode node).map fun q => ({ q with size := q.size + 1 }, (i : Int))
    match c.next with
    | none => link
    | some nx => (q.heap nx).bind fun n =>
      if q.comp x n.data < 0 then link else offerLoop node x k nx (i + 1)

/-- `priqueue_offer(q, ptr)`: the new node goes before the first node whose element the
comparator puts after `ptr`'s, and the call returns the loop counter at the insertion. -/
def priqueueOffer : Option α → Option (PriQueue α × Int)
  | none => some (q, -1)
  | some x =>
    let node := q.brk
    let q := q.newNode x
    let linkHead := (q.setNext node q.head).map fun q => ({ q with head := some node, size := q.size + 1 }, 0)
    match q.head with
    | none => linkHead
    | some h => (q.heap h).bind fun hd =>
      if q.comp x hd.data < 0 then linkHead else q.offerLoop node x q.size.toNat h 0

/-- `priqueue_peek(q)`. -/
def priqueuePeek : Option (Option α) :=
  if q.size = 0 then some none else (q.deref q.head).map fun n => some n.data

/-- `priqueue_poll(q)`. -/
def priqueuePoll : Option (PriQueue α × Option α) :=
  if q.size = 0 then some (q, none)
  else q.head.bind fun h => (q.heap h).map fun n =>
    ({ q.free h with head := n.next, size := q.size - 1 }, some n.data)

/-- `priqueue_at(q, index)`: the guard lets `index = size` through, to a `NULL` node. -/
def priqueueAt (index : Int) : Option (Option α) :=
  if index > q.size ∨ index < 0 then some none
  else (q.walk q.head index.toNat).bind fun p => (q.deref p).map fun n => some n.data

/-- `priqueue_remove_at(q, index)`, with the guard of `priqueue_at`. -/
def priqueueRemoveAt (index : Int) : Option (PriQueue α × Option α) :=
  if index > q.size ∨ index < 0 then some (q, none)
  else if index = 0 then
    q.head.bind fun h => (q.heap h).map fun n =>
      ({ q.free h with head := n.next, size := q.size - 1 }, some n.data)
  else
    (q.walk q.head (index - 1).toNat).bind fun p => p.bind fun c => (q.heap c).bind fun cn =>
      cn.next.bind fun r => (q.heap r).bind fun rn =>
        (q.setNext c rn.next).map fun q => ({ q.free r with size := q.size - 1 }, some rn.data)

/-- `priqueue_size(q)`. -/
def priqueueSize : Int := q.size

end PriQueue

section Remove

variable [DecidableEq α]

/-- The first loop of `priqueue_remove`: poll while the head holds `ptr`. Each pass lowers
`size` by one, so `size` passes bound it. -/
def removeHeads (ptr : Option α) : PriQueue α → Nat → Int → Option (PriQueue α × Int)
  | q, 0, removed => some (q, removed)
  | q, k + 1, removed =>
    if q.size > 0 then (q.deref q.head).bind fun n =>
      if some n.data = ptr then q.priqueuePoll.bind fun (q, _) => removeHeads ptr q k (removed + 1)
      else some (q, removed)
    else some (q, removed)

/-- The second loop of `priqueue_remove` at `cNode`: unlink the next node while it holds
`ptr`, else move on, until `cNode->next` is `NULL`; at most `fuel` passes. -/
def removeLoop (ptr : Option α) : PriQueue α → Nat → Nat → Int → Option (PriQueue α × Int)
  | _, 0, _, _ => none
  | q, fuel + 1, cNode, removed => (q.heap cNode).bind fun c =>
    match c.next with
    | none => some (q, removed)
    | some nx => (q.heap nx).bind fun n =>
      if some n.data = ptr then
        (q.setNext cNode n.next).bind fun q =>
          removeLoop ptr { q.free nx with size := q.size - 1 } fuel cNode (removed + 1)
      else removeLoop ptr q fuel nx removed

/-- `priqueue_remove(q, ptr)`: the number of nodes holding `ptr` that it unlinks. -/
def PriQueue.priqueueRemove (q : PriQueue α) (ptr : Option α) : Option (PriQueue α × Int) :=
  (removeHeads ptr q q.size.toNat 0).bind fun (q, removed) =>
    if q.size > 0 then q.head.bind fun h => removeLoop ptr q q.size.toNat h removed
    else some (q, removed)

end Remove

/-- `priqueue_destroy(q)`: poll while `size > 0`, `size` passes. -/
def destroyLoop : PriQueue α → Nat → Option (PriQueue α)
  | q, 0 => some q
  | q, k + 1 => if q.size > 0 then q.priqueuePoll.bind fun (q, _) => destroyLoop q k else some q

/-- `priqueue_destroy(q)`. -/
def PriQueue.priqueueDestroy (q : PriQueue α) : Option (PriQueue α) := destroyLoop q q.size.toNat

end Libpriqueue
