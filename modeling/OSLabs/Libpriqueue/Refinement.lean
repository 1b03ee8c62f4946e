import OSLabs.Libpriqueue.Basic
import OSLabs.Libpriqueue.Elems

/-!
# `libpriqueue.c` refines its element list

The chain of a queue is described by list segments: `Seg heap p cs r` says that following
`next` from `p` visits the nodes `cs`, given as (address, element) cells, and arrives at `r`.
The representation invariant `Rep q cs` asks for one chain from `head` to `NULL`, counted by
`size`, owning every allocated node, all below `brk`.

Each operation is then proved, from `Rep q cs`, to return and to act on the cells as a list
function: `priqueue_offer` as `Libpriqueue.offer` with the comparator read on the elements,
`priqueue_poll` as `List.tail`, `priqueue_remove` as a filter, `priqueue_remove_at` as
`List.eraseIdx`; `priqueue_peek` and `priqueue_at` read the list.

## Main definitions

* `Libpriqueue.Seg` — list segments of the node heap.
* `Libpriqueue.Rep` — the representation invariant.

## Main results

* `Libpriqueue.Seg.nodup` — a chain that ends in `NULL` visits no node twice.
* `PriQueue.offerLoop_spec`, `PriQueue.offer_spec` — `priqueue_offer` of a non-`NULL` element
  links a new node where `offer` puts it, and returns the position before it.
* `PriQueue.poll_spec`, `PriQueue.peek_spec`, `PriQueue.at_spec`, `PriQueue.removeAt_spec`,
  `PriQueue.removeHeads_spec`, `PriQueue.removeLoop_spec`, `PriQueue.remove_spec`,
  `PriQueue.destroy_spec`.

## Implementation notes

The cells carry the node addresses, so that the invariant can say which nodes the chain owns
and a later module can read off when each node was allocated.
-/

namespace Libpriqueue

variable {α : Type*}

/-- `Seg heap p cs r`: following `next` from `p` visits the nodes `cs`, as (address, element)
cells, and arrives at `r`. -/
inductive Seg (heap : Nat → Option (Node α)) : Option Nat → List (Nat × α) → Option Nat → Prop
  | nil (p : Option Nat) : Seg heap p [] p
  | cons {a : Nat} {n : Node α} {cs : List (Nat × α)} {r : Option Nat} :
      heap a = some n → Seg heap n.next cs r → Seg heap (some a) ((a, n.data) :: cs) r

namespace Seg

variable {heap heap' : Nat → Option (Node α)} {p r t : Option Nat} {cs ds : List (Nat × α)}

theorem append (h₁ : Seg heap p cs r) (h₂ : Seg heap r ds t) : Seg heap p (cs ++ ds) t := by
  induction h₁ with
  | nil => exact h₂
  | cons ha _ ih => exact .cons ha (ih h₂)

theorem split (h : Seg heap p (cs ++ ds) t) : ∃ r, Seg heap p cs r ∧ Seg heap r ds t := by
  induction cs generalizing p with
  | nil => exact ⟨p, .nil p, h⟩
  | cons c cs ih =>
    cases h with
    | cons ha h' =>
      obtain ⟨r, h₁, h₂⟩ := ih h'
      exact ⟨r, .cons ha h₁, h₂⟩

/-- A segment reads only the nodes it visits. -/
theorem frame (h : Seg heap p cs r) (hf : ∀ c ∈ cs, heap' c.1 = heap c.1) : Seg heap' p cs r := by
  induction h with
  | nil => exact .nil _
  | cons ha _ ih =>
    simp only [List.mem_cons, forall_eq_or_imp] at hf
    exact .cons (hf.1.trans ha) (ih hf.2)

theorem update (h : Seg heap p cs r) {a : Nat} (ha : a ∉ cs.map Prod.fst) (v : Option (Node α)) :
    Seg (Function.update heap a v) p cs r :=
  h.frame fun c hc => Function.update_noteq (fun e => ha (by rw [← e]; exact List.mem_map_of_mem _ hc)) _ _

theorem nil_iff : Seg heap p [] r ↔ p = r :=
  ⟨fun h => by cases h; rfl, fun h => h ▸ .nil p⟩

theorem of_none (h : Seg heap none cs t) : cs = [] ∧ t = none := by
  cases h; exact ⟨rfl, rfl⟩

/-- A chain that ends in `NULL` is determined by where it starts. -/
theorem unique (h : Seg heap p cs r) (h' : Seg heap p ds r) (hr : r = none) : cs = ds := by
  induction h generalizing ds with
  | nil => subst hr; exact (of_none h').1.symm
  | cons ha _ ih =>
    cases h' with
    | nil => exact absurd hr (by simp)
    | cons ha' h'' =>
      obtain rfl := Option.some.inj (ha.symm.trans ha')
      rw [ih h'' hr]

/-- A chain that ends in `NULL` visits no node twice. -/
theorem nodup (h : Seg heap p cs none) : (cs.map Prod.fst).Nodup := by
  generalize hr : (none : Option Nat) = r at h
  induction h with
  | nil => exact List.nodup_nil
  | @cons a n cs r ha h ih =>
    refine List.nodup_cons.2 ⟨fun hm => ?_, ih hr⟩
    obtain ⟨c, hc, rfl⟩ := List.mem_map.1 hm
    obtain ⟨pre, post, rfl⟩ := List.append_of_mem hc
    obtain ⟨r', -, h₂⟩ := h.split
    cases h₂ with
    | cons ha' h₃ =>
      obtain rfl := Option.some.inj (ha.symm.trans ha')
      have := congrArg List.length (unique h h₃ hr.symm)
      simp at this; omega

/-- Unlinking the cell `d` that follows `c`: `c` takes over `d`'s `next` and `d` is freed. -/
theorem unlink {pre post : List (Nat × α)} {c d : Nat × α} (hs : Seg heap p (pre ++ c :: d :: post) none) :
    ∃ cn dn, heap c.1 = some cn ∧ cn.next = some d.1 ∧ heap d.1 = some dn ∧ d.2 = dn.data ∧
      Seg (Function.update (Function.update heap c.1 (some { cn with next := dn.next })) d.1 none) p
        (pre ++ c :: post) none := by
  have hnd := hs.nodup
  obtain ⟨r, h₁, h₂⟩ := hs.split
  cases h₂ with
  | @cons a cn _ _ hc h₃ =>
    generalize hnx : cn.next = nx at h₃
    cases h₃ with
    | @cons b dn _ _ hd h₄ =>
      simp only [List.map_append, List.map_cons, List.nodup_append, List.nodup_cons, List.mem_cons,
        List.disjoint_cons_right, not_or] at hnd
      have hab : a ≠ b := hnd.2.1.1.1
      refine ⟨cn, dn, hc, hnx, hd, rfl, Seg.append (h₁.frame fun e he => ?_) (.cons (n := { cn with next := dn.next })
        (by simp [Function.update_noteq hab]) (h₄.frame fun e he => ?_))⟩
      · have h1 : e.1 ≠ a := fun h => hnd.2.2.1 (h ▸ List.mem_map_of_mem _ he)
        have h2 : e.1 ≠ b := fun h => hnd.2.2.2.1 (h ▸ List.mem_map_of_mem _ he)
        simp [Function.update_noteq h1, Function.update_noteq h2]
      · have h1 : e.1 ≠ a := fun h => hnd.2.1.1.2 (h ▸ List.mem_map_of_mem _ he)
        have h2 : e.1 ≠ b := fun h => hnd.2.1.2.1 (h ▸ List.mem_map_of_mem _ he)
        simp [Function.update_noteq h1, Function.update_noteq h2]

end Seg

/-- **The representation invariant** of a queue holding the cells `cs`: its nodes form one
chain from `head` to `NULL`, `size` counts them, the heap holds no other node, and every node
lies below `brk`. -/
structure Rep (q : PriQueue α) (cs : List (Nat × α)) : Prop where
  seg : Seg q.heap q.head cs none
  size_eq : q.size = cs.length
  owned : ∀ a, (q.heap a).isSome ↔ a ∈ cs.map Prod.fst
  below : ∀ c ∈ cs, c.1 < q.brk

/-- The chain of a queue is unique. -/
theorem Rep.unique {q : PriQueue α} {cs cs' : List (Nat × α)} (h : Rep q cs) (h' : Rep q cs') : cs = cs' :=
  h.seg.unique h'.seg rfl

theorem rep_init (comp : α → α → Int) : Rep (priqueueInit comp) [] :=
  ⟨.nil none, rfl, fun _ => by simp [priqueueInit], fun _ h => absurd h (List.not_mem_nil _)⟩

namespace PriQueue

variable {q : PriQueue α}

theorem setNext_of_heap {a : Nat} {n : Node α} (h : q.heap a = some n) (nx : Option Nat) :
    q.setNext a nx = some { q with heap := Function.update q.heap a (some { n with next := nx }) } := by
  simp [setNext, h]

/-- **`insert`** splices a node holding `x` into a chain, right after the cell `c`. -/
theorem insert_spec {pre post : List (Nat × α)} {c : Nat × α} {node : Nat} {x : α}
    (hs : Seg q.heap q.head (pre ++ c :: post) none) (hnode : q.heap node = some ⟨x, none⟩)
    (hn : node ∉ (pre ++ c :: post).map Prod.fst) :
    ∃ q', q.insert c.1 node = some q' ∧ Seg q'.heap q'.head (pre ++ c :: (node, x) :: post) none ∧
      { q' with heap := q.heap } = q ∧ ∀ a, (q'.heap a).isSome = (q.heap a).isSome := by
  have hnd := hs.nodup
  obtain ⟨r, h₁, h₂⟩ := hs.split
  cases h₂ with
  | @cons a cn _ _ hc h₃ =>
    simp only [List.map_append, List.map_cons, List.mem_append, List.mem_cons, not_or] at hn
    simp only [List.map_append, List.map_cons, List.nodup_append, List.nodup_cons, List.mem_cons,
      List.disjoint_cons_right] at hnd
    have hna : node ≠ a := hn.2.1
    set heap₂ := Function.update (Function.update q.heap a (some { cn with next := some node })) node
      (some ⟨x, cn.next⟩) with hheap₂
    refine ⟨{ q with heap := heap₂ }, ?_, ?_, rfl, fun b => ?_⟩
    · simp [PriQueue.insert, hc, setNext_of_heap, Function.update_noteq hna, hnode, hheap₂]
    · refine Seg.append (h₁.frame fun c' hc' => ?_) (.cons (n := { cn with next := some node })
        (by simp [hheap₂, Function.update_noteq hna.symm]) <|
        .cons (n := ⟨x, cn.next⟩) (by simp [hheap₂]) (h₃.frame fun c' hc' => ?_))
      · have h1 : c'.1 ≠ node := fun e => hn.1 (e ▸ List.mem_map_of_mem _ hc')
        have h2 : c'.1 ≠ a := fun e => hnd.2.2.1 (e ▸ List.mem_map_of_mem _ hc')
        simp [hheap₂, Function.update_noteq h1, Function.update_noteq h2]
      · have h1 : c'.1 ≠ node := fun e => hn.2.2 (e ▸ List.mem_map_of_mem _ hc')
        have h2 : c'.1 ≠ a := fun e => hnd.2.1.1 (e ▸ List.mem_map_of_mem _ hc')
        simp [hheap₂, Function.update_noteq h1, Function.update_noteq h2]
    · by_cases h1 : b = node
      · subst h1; simp [hheap₂, hnode]
      · by_cases h2 : b = a
        · subst h2; simp [hheap₂, Function.update_noteq h1, hc]
        · simp [hheap₂, Function.update_noteq h1, Function.update_noteq h2]

/-- **The loop of `priqueue_offer`** from the cell `c` at position `pre.length` links the node
holding `x` after `c` and the cells after it that `x` does not go before, and returns the loop
counter there. -/
theorem offerLoop_spec {node : Nat} {x : α} (hnode : q.heap node = some ⟨x, none⟩) :
    ∀ (post pre : List (Nat × α)) (c : Nat × α) (k : Nat),
    Seg q.heap q.head (pre ++ c :: post) none → node ∉ (pre ++ c :: post).map Prod.fst → post.length < k →
    ∃ q' : PriQueue α, q.offerLoop node x k c.1 pre.length = some ({ q' with size := q'.size + 1 },
        ((pre.length + (post.takeWhile fun e => ¬ q.comp x e.2 < 0).length : Nat) : Int)) ∧
      Seg q'.heap q'.head (pre ++ c :: offer (fun a b => q.comp a.2 b.2) (node, x) post) none ∧
      { q' with heap := q.heap } = q ∧ ∀ a, (q'.heap a).isSome = (q.heap a).isSome := by
  intro post pre c k
  induction k generalizing post pre c with
  | zero => exact fun _ _ hk => absurd hk (Nat.not_lt_zero _)
  | succ k ih =>
    intro hs hn hk
    obtain ⟨q', hins, hs', hq', hsome⟩ := insert_spec hs hnode hn
    have link : (q.insert c.1 node).map (fun q => ({ q with size := q.size + 1 }, ((pre.length : Nat) : Int))) =
        some ({ q' with size := q'.size + 1 }, ((pre.length : Nat) : Int)) := by rw [hins]; rfl
    obtain ⟨r, -, h₂⟩ := hs.split
    cases h₂ with
    | @cons a cn _ _ hc h₃ =>
      generalize hnx : cn.next = nx at h₃
      cases h₃ with
      | nil =>
        refine ⟨q', ?_, by simpa using hs', hq', hsome⟩
        simp only [offerLoop, hc, hnx, Option.some_bind, List.takeWhile_nil, List.length_nil, Nat.add_zero]
        exact link
      | @cons b en post' _ he h₄ =>
        by_cases hlt : q.comp x en.data < 0
        · refine ⟨q', ?_, ?_, hq', hsome⟩
          · simp only [offerLoop, hc, hnx, he, hlt, Option.some_bind, if_true, List.takeWhile_cons,
              not_true_eq_false, decide_False, cond_false, List.length_nil, Nat.add_zero]
            exact link
          · rwa [offer_cons, if_pos (show q.comp x en.data < 0 from hlt)]
        · have hassoc : pre ++ [(a, cn.data)] ++ (b, en.data) :: post' = pre ++ (a, cn.data) :: (b, en.data) :: post' :=
            List.append_assoc _ _ _
          obtain ⟨q'', hl, hs'', hq'', hsome''⟩ := ih post' (pre ++ [(a, cn.data)]) (b, en.data)
            (hassoc ▸ hs) (hassoc ▸ hn) (Nat.lt_of_succ_lt_succ hk)
          refine ⟨q'', ?_, ?_, hq'', hsome''⟩
          · simp only [offerLoop, hc, hnx, he, hlt, Option.some_bind, if_false]
            simp only [List.length_append, List.length_singleton] at hl
            rw [hl]
            simp [List.takeWhile_cons, not_lt.1 hlt, Nat.add_assoc, Nat.add_comm 1]
          · rw [offer_cons, if_neg (show ¬ q.comp x en.data < 0 from hlt)]
            simpa using hs''

end PriQueue

variable {q : PriQueue α} {cs : List (Nat × α)}

/-- The new node of `priqueue_offer` is fresh: the chain keeps its cells in the new heap. -/
theorem Rep.newNode (h : Rep q cs) (x : α) : Seg (q.newNode x).heap q.head cs none :=
  h.seg.update (fun hm => by
    obtain ⟨c, hc, e⟩ := List.mem_map.1 hm
    exact absurd (h.below c hc) (by omega)) _

/-- What `priqueue_offer` leaves: the chain `cs'` of the offered list, one more node counted, and
the heap of `new_node` with only `next` fields changed. -/
theorem Rep.offer (h : Rep q cs) {x : α} {q' : PriQueue α} {cs' : List (Nat × α)}
    (hs : Seg q'.heap q'.head cs' none) (hcs : cs' = offer (fun a b => q.comp a.2 b.2) (q.brk, x) cs)
    (hsize : q'.size = q.size + 1) (hbrk : q'.brk = q.brk + 1)
    (hsome : ∀ a, (q'.heap a).isSome = ((q.newNode x).heap a).isSome) : Rep q' cs' := by
  subst hcs
  refine ⟨hs, by simp [hsize, h.size_eq], fun a => ?_, fun c hc => ?_⟩
  · rw [hsome]
    by_cases ha : a = q.brk
    · subst ha; simp
    · simp [Function.update_noteq ha, h.owned, Ne.symm ha]
  · rcases (mem_offer _ _).1 hc with rfl | hc
    · simp [hbrk]
    · have := h.below c hc; omega

/-- Unlinking and freeing the first node leaves the rest of the chain. -/
theorem Rep.pop {a : Nat} {d : α} {rest : List (Nat × α)} (h : Rep q ((a, d) :: rest)) :
    ∃ n, q.head = some a ∧ q.heap a = some n ∧ n.data = d ∧
      Rep { q.free a with head := n.next, size := q.size - 1 } rest := by
  have hnd := h.seg.nodup
  simp only [List.map_cons, List.nodup_cons] at hnd
  have hseg := h.seg
  generalize hhd : q.head = hd at hseg
  cases hseg with
  | @cons _ n _ _ ha hrest =>
    refine ⟨n, rfl, ha, rfl, hrest.update hnd.1 none, by simp [h.size_eq], fun b => ?_,
      fun c hc => h.below c (List.mem_cons_of_mem _ hc)⟩
    by_cases hb : b = a
    · subst hb; exact iff_of_false (by simp) hnd.1
    · simp [Function.update_noteq hb, h.owned, hb]

/-- Unlinking and freeing the node after `c` leaves the chain without it. -/
theorem Rep.unlink {pre post : List (Nat × α)} {c d : Nat × α} (h : Rep q (pre ++ c :: d :: post)) :
    ∃ cn dn, q.heap c.1 = some cn ∧ cn.next = some d.1 ∧ q.heap d.1 = some dn ∧ d.2 = dn.data ∧
      Rep { q with
            heap := Function.update (Function.update q.heap c.1 (some { cn with next := dn.next })) d.1 none
            size := q.size - 1 } (pre ++ c :: post) := by
  obtain ⟨cn, dn, hc, hnx, hd, hdd, hs⟩ := h.seg.unlink
  have hnd := h.seg.nodup
  simp only [List.map_append, List.map_cons, List.nodup_append, List.nodup_cons, List.mem_cons,
    List.disjoint_cons_right, not_or] at hnd
  refine ⟨cn, dn, hc, hnx, hd, hdd, hs, by simp [h.size_eq]; omega, fun b => ?_, fun e he => ?_⟩
  · dsimp only
    by_cases hb : b = d.1
    · subst hb
      simp only [Function.update_same, Option.isSome_none, Bool.false_eq_true, false_iff]
      simp only [List.map_append, List.map_cons, List.mem_append, List.mem_cons, not_or]
      exact ⟨hnd.2.2.2.1, Ne.symm hnd.2.1.1.1, hnd.2.1.2.1⟩
    · by_cases hb' : b = c.1
      · subst hb'
        exact iff_of_true (by rw [Function.update_noteq hb, Function.update_same]; rfl)
          (List.mem_map_of_mem _ (List.mem_append_right _ (List.mem_cons_self _ _)))
      · rw [Function.update_noteq hb, Function.update_noteq hb', h.owned]
        simp [hb]
  · exact h.below e ((((List.sublist_cons_self d post).cons₂ c).append_left pre).subset he)

namespace PriQueue

/-- **`priqueue_offer`** of a non-`NULL` element links a new node holding it where
`Libpriqueue.offer` puts it in the chain, and returns one less than that position (`0` at the
front). -/
theorem offer_spec (h : Rep q cs) (x : α) :
    ∃ q' : PriQueue α, q.priqueueOffer (some x) =
        some (q', (((cs.takeWhile fun e => ¬ q.comp x e.2 < 0).length - 1 : Nat) : Int)) ∧
      Rep q' (offer (fun a b => q.comp a.2 b.2) (q.brk, x) cs) ∧ q'.comp = q.comp ∧ q'.brk = q.brk + 1 := by
  have hs₁ := h.newNode x
  have hnode : (q.newNode x).heap q.brk = some ⟨x, none⟩ := by simp
  have hfresh : q.brk ∉ cs.map Prod.fst := fun hm => by
    obtain ⟨c, hc, e⟩ := List.mem_map.1 hm
    exact absurd (h.below c hc) (by omega)
  have hseg := h.seg
  generalize hhd : q.head = hd at hseg hs₁
  cases hseg with
  | nil =>
    simp only [priqueueOffer, newNode_head, hhd, setNext_of_heap hnode, Option.map_some', Option.some.injEq,
      Prod.mk.injEq, and_assoc, exists_eq_left']
    refine ⟨rfl, ?_, rfl, rfl⟩
    refine h.offer (.cons (n := ⟨x, none⟩) (by simp) (.nil none)) rfl (by simp) rfl fun a => ?_
    by_cases ha : a = q.brk
    · subst ha; simp
    · simp [Function.update_noteq ha]
  | @cons a hn rest _ ha hrest =>
    have ha₁ : (q.newNode x).heap a = some hn := by
      rw [newNode_heap, Function.update_noteq fun e => hfresh (by rw [← e]; exact List.mem_cons_self _ _), ha]
    by_cases hlt : q.comp x hn.data < 0
    · have hv : ((((a, hn.data) :: rest).takeWhile fun e => ¬ q.comp x e.2 < 0).length - 1 : Nat) = 0 := by
        simp [hlt]
      simp only [hv, priqueueOffer, newNode_head, hhd, ha₁, Option.some_bind, newNode_comp, if_pos hlt,
        setNext_of_heap hnode, Option.map_some', Option.some.injEq, Prod.mk.injEq, and_assoc, exists_eq_left']
      refine ⟨rfl, ?_, by simp, by simp⟩
      have hcs : offer (fun a b => q.comp a.2 b.2) (q.brk, x) ((a, hn.data) :: rest) =
          (q.brk, x) :: (a, hn.data) :: rest := by rw [offer_cons, if_pos (show q.comp x hn.data < 0 from hlt)]
      rw [hcs]
      refine h.offer (x := x) (.cons (n := ⟨x, some a⟩) (by simp) (hs₁.update hfresh _)) hcs.symm (by simp) rfl
        fun b => ?_
      · by_cases hb : b = q.brk
        · subst hb; simp
        · simp [Function.update_noteq hb]
    · obtain ⟨q', hl, hs', hq', hsome'⟩ := offerLoop_spec (q := q.newNode x) hnode rest [] (a, hn.data)
        (q.newNode x).size.toNat (by simpa [hhd] using hs₁) hfresh (by simp [h.size_eq])
      have hcs : offer (fun a b => q.comp a.2 b.2) (q.brk, x) ((a, hn.data) :: rest) =
          (a, hn.data) :: offer (fun a b => q.comp a.2 b.2) (q.brk, x) rest := by
        rw [offer_cons, if_neg (show ¬ q.comp x hn.data < 0 from hlt)]
      simp only [List.length_nil, Nat.zero_add, newNode_comp, List.nil_append] at hl hs'
      simp only [priqueueOffer, newNode_head, hhd, ha₁, Option.some_bind, newNode_comp, if_neg hlt, hl,
        Option.some.injEq, Prod.mk.injEq, and_assoc, exists_eq_left']
      obtain ⟨hsz, -, hcomp, -, hbrk⟩ := PriQueue.mk.inj hq'
      refine ⟨by rw [List.takeWhile_cons_of_pos (by simpa using hlt), List.length_cons, Nat.add_sub_cancel], h.offer (x := x) (by simpa [hcs] using hs') rfl (by simp [hsz]) hbrk hsome', hcomp, hbrk⟩

/-- **`priqueue_poll`** unlinks and frees the first node and returns its element, or `NULL` on
an empty queue. -/
theorem poll_spec (h : Rep q cs) :
    ∃ q' : PriQueue α, q.priqueuePoll = some (q', cs.head?.map Prod.snd) ∧ Rep q' cs.tail ∧
      q'.comp = q.comp ∧ q'.brk = q.brk := by
  cases cs with
  | nil => exact ⟨q, by simp [priqueuePoll, h.size_eq], h, rfl, rfl⟩
  | cons c rest =>
    obtain ⟨n, hhd, ha, hd, h'⟩ := h.pop
    refine ⟨_, ?_, h', rfl, rfl⟩
    have : q.size ≠ 0 := by rw [h.size_eq]; simp; omega
    simp [priqueuePoll, this, hhd, ha, hd]

/-- **`priqueue_peek`** returns the first element, or `NULL` on an empty queue. -/
theorem peek_spec (h : Rep q cs) : q.priqueuePeek = some (cs.head?.map Prod.snd) := by
  cases cs with
  | nil => simp [priqueuePeek, h.size_eq]
  | cons c rest =>
    obtain ⟨n, hhd, ha, hd, -⟩ := h.pop
    have : q.size ≠ 0 := by rw [h.size_eq]; simp; omega
    simp [priqueuePeek, this, deref, hhd, ha, hd]

/-- `pre.length` steps along a chain stop where `post` starts. -/
theorem walk_spec (pre post : List (Nat × α)) {p r : Option Nat} (hs : Seg q.heap p (pre ++ post) r) :
    ∃ p', q.walk p pre.length = some p' ∧ Seg q.heap p' post r := by
  induction pre generalizing p with
  | nil => exact ⟨p, rfl, hs⟩
  | cons c pre ih =>
    cases hs with
    | cons ha hs' =>
      obtain ⟨p', hw, hp'⟩ := ih hs'
      exact ⟨p', by simp [walk, deref, ha, hw], hp'⟩

/-- **`priqueue_at`** returns the element at `index` when `0 ≤ index < size`, `NULL` outside
`0 ≤ index ≤ size`, and has no result at `index = size`, where it dereferences `NULL`. -/
theorem at_spec (h : Rep q cs) (index : Int) :
    q.priqueueAt index = if index > q.size ∨ index < 0 then some none
      else cs[index.toNat]?.map fun c => some c.2 := by
  unfold priqueueAt
  split_ifs with hi
  · rfl
  obtain ⟨p', hw, hp'⟩ := walk_spec (cs.take index.toNat) (cs.drop index.toNat)
    (by rw [List.take_append_drop]; exact h.seg)
  have hlen : (cs.take index.toNat).length = index.toNat := by
    simp only [List.length_take]; have := h.size_eq; omega
  rw [hlen] at hw
  rw [hw, Option.some_bind]
  generalize hd : cs.drop index.toNat = post at hp'
  cases hp' with
  | nil => simp [deref, List.getElem?_eq_none (List.drop_eq_nil_iff.1 hd)]
  | cons ha _ =>
    have := congrArg List.head? hd
    rw [List.head?_drop] at this
    simp [deref, ha, this]

/-- **`priqueue_remove_at`** with `0 ≤ index < size` unlinks and frees the node at `index` and
returns its element. -/
theorem removeAt_spec (h : Rep q cs) {index : Int} (h0 : 0 ≤ index) (hi : index < q.size) :
    ∃ q' : PriQueue α, q.priqueueRemoveAt index = some (q', cs[index.toNat]?.map Prod.snd) ∧
      Rep q' (cs.eraseIdx index.toNat) ∧ q'.comp = q.comp ∧ q'.brk = q.brk := by
  have hlt : index.toNat < cs.length := by have := h.size_eq; omega
  have hg : ¬ (index > q.size ∨ index < 0) := by omega
  by_cases hz : index = 0
  · subst hz
    obtain ⟨⟨a, d⟩, rest, rfl⟩ := List.exists_cons_of_length_pos hlt
    obtain ⟨n, hhd, ha, hd, h'⟩ := h.pop
    exact ⟨_, by simp [priqueueRemoveAt, hi.le, hhd, ha, hd], h', rfl, rfl⟩
  · set j := (index - 1).toNat with hjdef
    have hj : index.toNat = j + 1 := by omega
    have hb₁ : j < cs.length := by omega
    have hb₂ : j + 1 < cs.length := by omega
    obtain ⟨pre, c, e, post, rfl, hpre⟩ : ∃ pre c e post, cs = pre ++ c :: e :: post ∧ pre.length = j :=
      ⟨cs.take j, cs[j], cs[j + 1], cs.drop (j + 1 + 1), by
        rw [← List.drop_eq_getElem_cons hb₂, ← List.drop_eq_getElem_cons hb₁, List.take_append_drop],
        by simp; omega⟩
    obtain ⟨cn, dn, hc, hnx, hd, hdd, h'⟩ := h.unlink
    obtain ⟨p', hw, hp'⟩ := walk_spec pre (c :: e :: post) h.seg
    obtain rfl : p' = some c.1 := by cases hp'; rfl
    rw [hpre] at hw
    have hget : (pre ++ c :: e :: post)[index.toNat]? = some e := by
      rw [hj, List.getElem?_append_right (by omega), hpre, Nat.add_sub_cancel_left]; simp
    have herase : (pre ++ c :: e :: post).eraseIdx index.toNat = pre ++ c :: post := by
      rw [hj, List.eraseIdx_append_of_length_le (by omega), hpre, Nat.add_sub_cancel_left]; rfl
    rw [hget, herase]
    refine ⟨_, ?_, h', rfl, rfl⟩
    simp only [priqueueRemoveAt, if_neg hg, if_neg hz, ← hjdef, hw, Option.some_bind, hc, hnx, hd,
      setNext_of_heap hc, Option.map_some', Option.map_some, hdd]
    rfl

/-- The loop of `priqueue_destroy` polls every node off. -/
theorem destroyLoop_spec : ∀ {q : PriQueue α} {cs : List (Nat × α)}, Rep q cs →
    ∃ q' : PriQueue α, destroyLoop q cs.length = some q' ∧ Rep q' [] ∧ q'.comp = q.comp ∧ q'.brk = q.brk
  | q, [], h => ⟨q, rfl, h, rfl, rfl⟩
  | q, c :: rest, h => by
    obtain ⟨q₁, hp, h₁, hc, hb⟩ := poll_spec h
    obtain ⟨q', hd, h', hc', hb'⟩ := destroyLoop_spec h₁
    have hpos : q.size > 0 := by simp [h.size_eq]
    exact ⟨q', by simpa [destroyLoop, hpos, hp] using hd, h', hc'.trans hc, hb'.trans hb⟩

/-- **`priqueue_destroy`** frees every node and leaves an empty queue. -/
theorem destroy_spec (h : Rep q cs) :
    ∃ q' : PriQueue α, q.priqueueDestroy = some q' ∧ Rep q' [] ∧ q'.comp = q.comp ∧ q'.brk = q.brk := by
  rw [priqueueDestroy, h.size_eq, Int.toNat_ofNat]
  exact destroyLoop_spec h

section Remove

variable [DecidableEq α] (ptr : Option α)

/-- **The first loop of `priqueue_remove`** polls the nodes holding `ptr` off the front. -/
theorem removeHeads_spec : ∀ {q : PriQueue α} {cs : List (Nat × α)} (removed : Int), Rep q cs →
    ∃ q' : PriQueue α, removeHeads ptr q cs.length removed =
        some (q', removed + (cs.takeWhile fun c => some c.2 = ptr).length) ∧
      Rep q' (cs.dropWhile fun c => some c.2 = ptr) ∧ q'.comp = q.comp ∧ q'.brk = q.brk
  | q, [], removed, h => ⟨q, by simp [removeHeads], h, rfl, rfl⟩
  | q, (a, d) :: rest, removed, h => by
    obtain ⟨n, hhd, ha, hd, h'⟩ := h.pop
    have hpos : q.size > 0 := by simp [h.size_eq]
    have hz : q.size ≠ 0 := by omega
    by_cases hm : some d = ptr
    · obtain ⟨q', hr, hq', hc, hb⟩ := removeHeads_spec (removed + 1) h'
      refine ⟨q', ?_, by simpa [List.dropWhile_cons, hm] using hq', hc, hb⟩
      simp only [List.length_cons, removeHeads, if_pos hpos, deref, hhd, Option.some_bind, ha, hd, if_pos hm,
        priqueuePoll, if_neg hz, Option.map_some']
      rw [hr]
      simp [List.takeWhile_cons, hm]; omega
    · refine ⟨q, ?_, by simpa [List.dropWhile_cons, hm] using h, rfl, rfl⟩
      simp [removeHeads, hpos, deref, hhd, ha, hd, hm, List.takeWhile_cons]

/-- **The second loop of `priqueue_remove`** from the cell `c` unlinks every later node holding
`ptr`, given a pass for each later node and one more. -/
theorem removeLoop_spec : ∀ {q : PriQueue α} (post pre : List (Nat × α)) (c : Nat × α) (fuel : Nat)
    (removed : Int), Rep q (pre ++ c :: post) → post.length < fuel →
    ∃ q' : PriQueue α, removeLoop ptr q fuel c.1 removed =
        some (q', removed + post.countP fun e => some e.2 = ptr) ∧
      Rep q' (pre ++ c :: post.filter fun e => some e.2 ≠ ptr) ∧ q'.comp = q.comp ∧ q'.brk = q.brk
  | _, _, _, _, 0, _, _, hk => absurd hk (Nat.not_lt_zero _)
  | q, [], pre, c, fuel + 1, removed, h, _ => by
    obtain ⟨r, -, h₂⟩ := h.seg.split
    cases h₂ with
    | @cons a cn _ _ hc h₃ =>
      refine ⟨q, ?_, by simpa using h, rfl, rfl⟩
      simp [removeLoop, hc, (Seg.nil_iff.1 h₃)]
  | q, e :: post, pre, c, fuel + 1, removed, h, hk => by
    obtain ⟨cn, dn, hc, hnx, hd, hdd, h'⟩ := h.unlink
    by_cases hm : some e.2 = ptr
    · obtain ⟨q', hr, hq', hcomp, hbrk⟩ := removeLoop_spec post pre c fuel (removed + 1) h'
        (by simpa using hk)
      refine ⟨q', ?_, by simpa [hm] using hq', hcomp, hbrk⟩
      simp only [removeLoop, hc, Option.some_bind, hnx, hd, ← hdd, if_pos hm, setNext_of_heap hc,
        free_head, free_comp, free_heap, free_brk]
      rw [hr]
      simp [hm]; omega
    · obtain ⟨q', hr, hq', hcomp, hbrk⟩ := removeLoop_spec post (pre ++ [c]) e fuel removed (by simpa using h)
        (by simpa using hk)
      refine ⟨q', ?_, by simpa [hm] using hq', hcomp, hbrk⟩
      simp only [removeLoop, hc, Option.some_bind, hnx, hd, ← hdd, if_neg hm]
      rw [hr]
      simp [hm]

/-- **`priqueue_remove`** unlinks and frees every node holding `ptr` and returns how many. -/
theorem remove_spec (h : Rep q cs) :
    ∃ q' : PriQueue α, q.priqueueRemove ptr = some (q', ((cs.countP fun c => some c.2 = ptr : Nat) : Int)) ∧
      Rep q' (cs.filter fun c => some c.2 ≠ ptr) ∧ q'.comp = q.comp ∧ q'.brk = q.brk := by
  have hk : q.size.toNat = cs.length := by rw [h.size_eq]; simp
  obtain ⟨q₁, h1, hr1, hc1, hb1⟩ := removeHeads_spec ptr 0 h
  have hsplit := List.takeWhile_append_dropWhile (fun c => decide (some c.2 = ptr)) cs
  have htw : ∀ c ∈ cs.takeWhile fun c => some c.2 = ptr, some c.2 = ptr := fun c hc => by
    simpa using List.mem_takeWhile_imp hc
  have hfilter : (cs.takeWhile fun c => some c.2 = ptr).filter (fun c => some c.2 ≠ ptr) = [] :=
    List.filter_eq_nil_iff.2 fun c hc => by simpa using htw c hc
  have hcount : (cs.takeWhile fun c => some c.2 = ptr).countP (fun c => some c.2 = ptr) =
      (cs.takeWhile fun c => some c.2 = ptr).length := List.countP_eq_length.2 fun c hc => by simpa using htw c hc
  unfold priqueueRemove
  rw [hk, h1, Option.some_bind]
  dsimp only
  generalize hds : cs.dropWhile (fun c => some c.2 = ptr) = ds at hr1 hsplit
  cases ds with
  | nil =>
    have : ¬ q₁.size > 0 := by simp [hr1.size_eq]
    have hcnt : cs.countP (fun c => some c.2 = ptr) = (cs.takeWhile fun c => some c.2 = ptr).length := by
      conv_lhs => rw [← hsplit]
      simp [hcount]
    refine ⟨q₁, by rw [if_neg this]; simp [hcnt], ?_, hc1, hb1⟩
    rw [← hsplit, List.filter_append, hfilter]; exact hr1
  | cons c post =>
    have hc : ¬ some c.2 = ptr := by
      have := List.head_dropWhile_not (fun c => decide (some c.2 = ptr)) cs (by simp [hds])
      simpa [hds] using this
    have hpos : q₁.size > 0 := by simp [hr1.size_eq]
    obtain ⟨n, hhd, -, -, -⟩ := hr1.pop
    obtain ⟨q', hr, hq', hc', hb'⟩ := removeLoop_spec ptr post [] c q₁.size.toNat
      (0 + ((cs.takeWhile fun c => some c.2 = ptr).length : Int)) (by simpa using hr1)
      (by simp [hr1.size_eq])
    refine ⟨q', ?_, ?_, hc'.trans hc1, hb'.trans hb1⟩
    · rw [if_pos hpos, hhd, Option.some_bind, hr]
      have hcnt : cs.countP (fun c => some c.2 = ptr) = (cs.takeWhile fun c => some c.2 = ptr).length +
          post.countP (fun c => some c.2 = ptr) := by
        conv_lhs => rw [← hsplit]
        simp [hcount, hc]
      simp [hcnt]
    · rw [← hsplit, List.filter_append, hfilter, List.filter_cons_of_pos (by simpa using hc)]
      simpa using hq'

end Remove

end PriQueue

end Libpriqueue
