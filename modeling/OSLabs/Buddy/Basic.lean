import Mathlib.Data.Nat.Log
import Mathlib.Logic.Function.Basic
import Mathlib.Algebra.Group.Int

/-!
# The buddy allocator of `buddy.c`

A shallow embedding of the page-level buddy allocator: the address macros, the free lists
`free_area`, the `order` field of each `page_t`, and `buddy_split`, `buddy_init`, `buddy_alloc`
and `buddy_free`.

## Design

Memory is `g_memory`, `2^20` bytes cut into 256 pages of `PAGE_SIZE = 2^12` bytes. Addresses
are offsets into `g_memory`, so `PAGE_TO_ADDR`, `ADDR_TO_PAGE` and `BUDDY_ADDR` become
arithmetic on `Nat` with the pointer `g_memory` cancelled. A `page_t` is reached through its
index: its `index` field is set to that index by `buddy_init` and its `address` field to
`PAGE_TO_ADDR` of it, and neither is written again, so the model uses the index for both and
keeps only the `order` field.

Each free list `free_area[o]` is the sequence of the page indices on it, read from its head.
A page's list node sits inside its `page_t`, so the C code can only link a page that is on no
list; the model's lists are sequences, and that a page is listed at most once is part of the
invariant proved in `OSLabs.Buddy.Invariant`.

The recursion of `buddy_split` runs on the order down to the requested one, and has no result
when it would go below it (the C recursion would not stop). The `for` loop of `buddy_alloc` runs
on the orders left up to `MAX_ORDER`, and the `while` loop of `buddy_free` on the merges left
before `MAX_ORDER`. `buddy_free` has no result on the undefined behaviour the C code meets
before its loop: a page index outside `g_pages`, or an `order` below `MIN_ORDER` (a negative
shift, or a free list that `buddy_init` never initialised).

## Main definitions

* `Buddy.State` — the `order` fields of `g_pages` and the lists `free_area`.
* `Buddy.buddySplit`, `Buddy.buddyInit`, `Buddy.buddyAlloc`, `Buddy.buddyFree` — the operations.
* `Buddy.reqOrder` — the order `buddy_alloc` requests for a size.

## Implementation notes

`ceil(log2(size))` is computed in `double` by the C code; on the sizes `buddy_alloc` lets
through (`0 ≤ size ≤ 2^20`) it is the integer ceiling of the binary logarithm, `Nat.clog 2`
(with `log2(0) = -∞` below `MIN_ORDER`, as `Nat.clog 2 0 = 0` is).
-/

namespace Buddy

/-- `MIN_ORDER`: the order of one page. -/
def minOrder : Nat := 12

/-- `MAX_ORDER`: the order of the whole of `g_memory`. -/
def maxOrder : Nat := 20

/-- `PAGE_SIZE`, `1 << MIN_ORDER`. -/
def pageSize : Nat := 2 ^ minOrder

/-- The number of pages, the length of `g_pages`: `(1 << MAX_ORDER) / PAGE_SIZE`. -/
def nPages : Nat := 2 ^ maxOrder / pageSize

/-- `PAGE_TO_ADDR(page_idx)`, as an offset into `g_memory`. -/
def pageToAddr (pageIdx : Nat) : Nat := pageIdx * pageSize

/-- `ADDR_TO_PAGE(addr)` for the offset `addr`. -/
def addrToPage (addr : Nat) : Nat := addr / pageSize

/-- `BUDDY_ADDR(addr, o)` for the offset `addr`: flip bit `o`. -/
def buddyAddr (addr o : Nat) : Nat := addr ^^^ (1 <<< o)

/-- The allocator's globals: `order p` is `g_pages[p].order`, and `freeArea o` lists the page
indices on `free_area[o]`, head first. -/
structure State where
  order : Nat → Int
  freeArea : Nat → List Nat

namespace State

variable (s : State)

/-- `g_pages[p].order = o`. -/
def setOrder (p : Nat) (o : Int) : State := { s with order := Function.update s.order p o }

/-- Modelled from the spec: `list.h` is not in the repository and the specification leaves the
allocator out of scope, so `list_add(&g_pages[p].list, &free_area[o])` follows the kernel list
library that `buddy.c` cites, which links the entry right after the list head. -/
def listAdd (p o : Nat) : State :=
  { s with freeArea := Function.update s.freeArea o (p :: s.freeArea o) }

/-- Modelled from the spec: `list_del_init(&g_pages[p].list)` of the kernel list library that
`buddy.c` cites (`list.h` is not in the repository) unlinks the entry from the list it is on;
the model names that list, `free_area[o]`. -/
def listDel (p o : Nat) : State :=
  { s with freeArea := Function.update s.freeArea o ((s.freeArea o).erase p) }

@[simp] theorem setOrder_order (p : Nat) (o : Int) :
    (s.setOrder p o).order = Function.update s.order p o := rfl
@[simp] theorem setOrder_freeArea (p : Nat) (o : Int) : (s.setOrder p o).freeArea = s.freeArea :=
  rfl
@[simp] theorem listAdd_order (p o : Nat) : (s.listAdd p o).order = s.order := rfl
@[simp] theorem listAdd_freeArea (p o : Nat) :
    (s.listAdd p o).freeArea = Function.update s.freeArea o (p :: s.freeArea o) := rfl
@[simp] theorem listDel_order (p o : Nat) : (s.listDel p o).order = s.order := rfl
@[simp] theorem listDel_freeArea (p o : Nat) :
    (s.listDel p o).freeArea = Function.update s.freeArea o ((s.freeArea o).erase p) := rfl

end State

/-- `buddy_split(req_order, c_order, r_page)`: while `c_order` is above `req_order`, put the
right half of the block at `r_page` on the free list one order down and go on with the left. -/
def buddySplit (req : Nat) : Nat → Nat → State → Option State
  | 0, _, s => if req = 0 then some s else none
  | c + 1, r, s =>
    if req = c + 1 then some s
    else
      let rBuddy := addrToPage (buddyAddr (pageToAddr r) c)
      buddySplit req c r ((s.setOrder rBuddy c).listAdd rBuddy c)

/-- `buddy_init()`: every page has order `-1`, every free list is empty, and then page 0 is
the one free block, of order `MAX_ORDER`. -/
def buddyInit : State :=
  (({ order := fun _ => -1, freeArea := fun _ => [] } : State).listAdd 0 maxOrder).setOrder 0
    maxOrder

/-- The `req_order` of `buddy_alloc(size)`: `ceil(log2(size))`, or `MIN_ORDER` if that is not
above it. -/
def reqOrder (size : Nat) : Nat := if Nat.clog 2 size > minOrder then Nat.clog 2 size else minOrder

/-- The `for` loop of `buddy_alloc` at `temp_order`, with `k` orders left before
`MAX_ORDER + 1`: take the head of the first nonempty free list, give it the requested order,
unlink it, and split it down. -/
def allocLoop (req : Nat) (s : State) : Nat → Nat → Option (State × Option Nat)
  | 0, _ => some (s, none)
  | k + 1, temp =>
    match s.freeArea temp with
    | [] => allocLoop req s k (temp + 1)
    | fPage :: _ =>
      (buddySplit req temp fPage ((s.setOrder fPage req).listDel fPage temp)).map fun s =>
        (s, some (pageToAddr fPage))

/-- `buddy_alloc(size)`: the address of the allocated block, `none` for `NULL`. -/
def buddyAlloc (s : State) (size : Int) : Option (State × Option Nat) :=
  if size < 0 ∨ size > 2 ^ maxOrder then some (s, none)
  else
    let req := reqOrder size.toNat
    allocLoop req s (maxOrder + 1 - req) req

/-- The `while` loop of `buddy_free` with `freed_page` at page `freed`, at
`c_order = MAX_ORDER - k`: merge with the buddy while it is on the free list of the same order,
keeping the lower page, and put the block on its list when the buddy is not free or the order
reaches `MAX_ORDER`. -/
def freeLoop : Nat → State → Nat → State
  | 0, s, freed => (s.setOrder freed maxOrder).listAdd freed maxOrder
  | k + 1, s, freed =>
    let c := maxOrder - (k + 1)
    let buddy := addrToPage (buddyAddr (pageToAddr freed) c)
    if buddy ∈ s.freeArea c then
      freeLoop k (s.listDel buddy c) (if pageToAddr buddy < pageToAddr freed then buddy else freed)
    else (s.setOrder freed c).listAdd freed c

/-- `buddy_free(addr)`: the loop runs from the order stored in the freed page, and not at all
when that order is above `MAX_ORDER`. -/
def buddyFree (s : State) (addr : Nat) : Option State :=
  let freed := addrToPage addr
  if freed < nPages then
    let c := s.order freed
    if c < minOrder then none
    else if c ≤ maxOrder then some (freeLoop (maxOrder - c.toNat) s freed)
    else some s
  else none

end Buddy
