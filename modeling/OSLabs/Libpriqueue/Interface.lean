import OSLabs.Libpriqueue.Runs

/-!
# The interface of `libpriqueue` on its element list

What a client of `libpriqueue.c` sees of a queue is its element list, the data along the chain
from `head`, and what each call returns. This file states the calls on that list for every queue
the representation invariant describes and every comparator: where `priqueue_offer` puts an
element and what it returns, what `priqueue_at` and `priqueue_remove_at` do at the boundary
`index = size`, and what `priqueue_remove` deletes, independently of the comparator.

## Main results

* `Libpriqueue.PriQueue.offer_inserts_at_index` — `priqueue_offer` links a non-`NULL` element
  at its insertion index, the least index whose element the comparator puts after it, and
  ignores `NULL`.
* `Libpriqueue.PriQueue.offer_returns_index_before` — it returns one less than that index when
  the element does not go to the front.
* `Libpriqueue.PriQueue.at_size_derefs_null` — the guard of `priqueue_at` and
  `priqueue_remove_at` lets `index = size` through, and both then dereference `NULL`.
* `Libpriqueue.PriQueue.remove_comp` — `priqueue_remove` never reads the comparator.
* `Libpriqueue.PriQueue.remove_deletes_all_equal` — it deletes every occurrence of a pointer,
  keeps the order of the rest and returns how many it deleted.
-/

namespace Libpriqueue

variable {α : Type*}

namespace PriQueue

variable {q : PriQueue α} {cs : List (Nat × α)}

/-! ### `priqueue_offer` -/

/-- The cells of an offer carry the offered element list: `x` at its insertion index. -/
theorem map_snd_offer (x : α) (brk : Nat) :
    (offer (fun a b => q.comp a.2 b.2) (brk, x) cs).map Prod.snd =
      (cs.map Prod.snd).take (insertIndex q.comp x (cs.map Prod.snd)) ++ [x] ++
        (cs.map Prod.snd).drop (insertIndex q.comp x (cs.map Prod.snd)) := by
  rw [map_offer Prod.snd q.comp (brk, x) cs, offer_eq_take_drop, List.append_assoc]
  rfl

/-- **Ordered insertion.** For every comparator and every queue with element list `l`,
`priqueue_offer` of a non-`NULL` element `x` returns, leaves the element list
`take i l ++ [x] ++ drop i l` for the least index `i` with `comp x l[i] < 0` (the length of `l`
if there is none), and counts one more element; of `NULL` it returns `-1` and changes nothing. -/
theorem offer_inserts_at_index (h : Rep q cs) :
    (∀ x, ∃ q' r cs', q.priqueueOffer (some x) = some (q', r) ∧ Rep q' cs' ∧
      cs'.map Prod.snd = (cs.map Prod.snd).take (insertIndex q.comp x (cs.map Prod.snd)) ++ [x] ++
        (cs.map Prod.snd).drop (insertIndex q.comp x (cs.map Prod.snd)) ∧
      q'.size = q.size + 1) ∧
    q.priqueueOffer none = some (q, -1) := by
  refine ⟨fun x => ?_, rfl⟩
  obtain ⟨q', hq, h', -⟩ := offer_spec h x
  exact ⟨q', _, _, hq, h', map_snd_offer x q.brk, by rw [h'.size_eq, h.size_eq, length_offer]; rfl⟩

/-- On the queue `1, 3` that offering `3` and `1` builds, `2` goes to index `1`. -/
theorem offer_inserts_at_index_middle :
    ∃ (q : PriQueue Nat) (cs : List (Nat × Nat)), Rep q cs ∧ cs.map Prod.snd = [1, 3] ∧
      insertIndex q.comp 2 (cs.map Prod.snd) = 1 ∧
      (∀ x, ∃ q' r cs', q.priqueueOffer (some x) = some (q', r) ∧ Rep q' cs' ∧
        cs'.map Prod.snd = (cs.map Prod.snd).take (insertIndex q.comp x (cs.map Prod.snd)) ++ [x] ++
          (cs.map Prod.snd).drop (insertIndex q.comp x (cs.map Prod.snd)) ∧
        q'.size = q.size + 1) ∧
      q.priqueueOffer none = some (q, -1) := by
  obtain ⟨q, hr, -⟩ := exists_qrun_of_replay natComp [.offer (some 3), .offer (some 1)]
    (fun _ => ()) (v := ()) (by decide)
  obtain ⟨cs, h, hl⟩ := hr.elems
  obtain ⟨-, -, hc, -⟩ := hr.rep
  have hl' : cs.map Prod.snd = [1, 3] := hl.trans (by decide)
  exact ⟨q, cs, h, hl', by rw [hl', hc]; decide, offer_inserts_at_index h⟩

/-- **`priqueue_offer` returns the index before the element.** For every queue and every
non-`NULL` element `x`, the element ends up at its insertion index `i`, and the call returns
`i - 1`, the position of the node the loop links it after, or `0` at the front. -/
theorem offer_returns_index_before (h : Rep q cs) (x : α) :
    ∃ q' cs', q.priqueueOffer (some x) =
        some (q', ((insertIndex q.comp x (cs.map Prod.snd) - 1 : Nat) : Int)) ∧ Rep q' cs' ∧
      (cs'.map Prod.snd)[insertIndex q.comp x (cs.map Prod.snd)]? = some x := by
  obtain ⟨q', hq, h', -⟩ := offer_spec h x
  have hi : (cs.takeWhile fun e => ¬ q.comp x e.2 < 0).length = insertIndex q.comp x (cs.map Prod.snd) := by
    rw [← length_takeWhile_eq_insertIndex, List.takeWhile_map, List.length_map]
    rfl
  refine ⟨q', _, by rw [hq, hi], h', ?_⟩
  rw [map_offer Prod.snd q.comp (q.brk, x) cs]
  exact getElem?_offer_insertIndex q.comp x _

/-- On the queue holding `1`, `priqueue_offer` of `2` puts it at index `1` and returns `0`. -/
theorem offer_returns_index_before_single :
    let q : PriQueue Nat :=
      { size := 1, head := some 0, comp := natComp, heap := fun a => if a = 0 then some ⟨1, none⟩ else none,
        brk := 1 }
    Rep q [(0, 1)] ∧ insertIndex natComp 2 [1] = 1 ∧
    ∃ q' cs', q.priqueueOffer (some 2) = some (q', ((insertIndex natComp 2 [1] - 1 : Nat) : Int)) ∧
      Rep q' cs' ∧ (cs'.map Prod.snd)[insertIndex natComp 2 [1]]? = some 2 := by
  intro q
  have h : Rep q [(0, 1)] :=
    ⟨.cons (n := ⟨1, none⟩) rfl (.nil none), rfl, fun a => by by_cases ha : a = 0 <;> simp [q, ha],
      fun c hc => by simp_all [q]⟩
  exact ⟨h, by decide, offer_returns_index_before h 2⟩

/-! ### `priqueue_at` and `priqueue_remove_at` at the boundary -/

/-- **`index = size` is let through.** For every queue, `priqueue_at(q, size)` and
`priqueue_remove_at(q, size)` pass the guard `index > size || index < 0` and dereference
`NULL`: `priqueue_at` the node after the last, `priqueue_remove_at` the head of an empty queue
or the successor of the last node. -/
theorem at_size_derefs_null (h : Rep q cs) :
    q.priqueueAt q.size = none ∧ q.priqueueRemoveAt q.size = none := by
  have hg : ¬ (q.size > q.size ∨ q.size < 0) := by rw [h.size_eq]; omega
  constructor
  · rw [at_spec h, if_neg hg, h.size_eq, Int.toNat_ofNat, List.getElem?_eq_none le_rfl]
    rfl
  · rw [priqueueRemoveAt, if_neg hg]
    rcases List.eq_nil_or_concat cs with rfl | ⟨pre, c, rfl⟩
    · have hhd : q.head = none := Seg.nil_iff.1 h.seg
      simp [h.size_eq, hhd]
    · -- the walk stops at the last node, whose `next` is `NULL`
      rw [List.concat_eq_append] at h
      obtain ⟨p', hw, hp'⟩ := walk_spec pre [c] h.seg
      cases hp' with
      | cons ha hnil =>
        have hn := Seg.nil_iff.1 hnil
        have hsz : q.size = (pre.length : Int) + 1 := by rw [h.size_eq]; simp
        have hidx : (q.size - 1).toNat = pre.length := by omega
        rw [if_neg (by omega), hidx, hw]
        simp [ha, hn]

theorem at_size_derefs_null_init :
    Rep (priqueueInit natComp) [] ∧
    (priqueueInit natComp).priqueueAt (priqueueInit natComp).size = none ∧
    (priqueueInit natComp).priqueueRemoveAt (priqueueInit natComp).size = none :=
  ⟨rep_init natComp, at_size_derefs_null (rep_init natComp)⟩

/-! ### `priqueue_remove` -/

section Comparator

variable (c : α → α → Int)

theorem deref_comp (q : PriQueue α) (p : Option Nat) : ({ q with comp := c } : PriQueue α).deref p = q.deref p :=
  rfl

theorem setNext_comp (q : PriQueue α) (a : Nat) (nx : Option Nat) :
    ({ q with comp := c } : PriQueue α).setNext a nx = (q.setNext a nx).map ({ · with comp := c }) := by
  simp only [setNext, Option.map_map]
  rfl

theorem priqueuePoll_comp (q : PriQueue α) :
    ({ q with comp := c } : PriQueue α).priqueuePoll =
      q.priqueuePoll.map fun r => ({ r.1 with comp := c }, r.2) := by
  unfold priqueuePoll
  split_ifs
  · rfl
  · cases q.head
    · rfl
    · simp only [Option.some_bind, Option.map_map]
      rfl

variable [DecidableEq α] (ptr : Option α)

theorem removeHeads_comp (k : Nat) (q : PriQueue α) (removed : Int) :
    removeHeads ptr { q with comp := c } k removed =
      (removeHeads ptr q k removed).map fun r => ({ r.1 with comp := c }, r.2) := by
  induction k generalizing q removed with
  | zero => rfl
  | succ k ih =>
    simp only [removeHeads, deref_comp, priqueuePoll_comp]
    split_ifs
    · cases q.deref q.head with
      | none => rfl
      | some n =>
        simp only [Option.some_bind]
        split_ifs
        · cases q.priqueuePoll with
          | none => rfl
          | some r =>
            obtain ⟨q₁, x⟩ := r
            exact ih q₁ (removed + 1)
        · rfl
    · rfl

theorem removeLoop_comp (fuel : Nat) (q : PriQueue α) (cNode : Nat) (removed : Int) :
    removeLoop ptr { q with comp := c } fuel cNode removed =
      (removeLoop ptr q fuel cNode removed).map fun r => ({ r.1 with comp := c }, r.2) := by
  induction fuel generalizing q cNode removed with
  | zero => rfl
  | succ fuel ih =>
    simp only [removeLoop]
    cases q.heap cNode with
    | none => rfl
    | some cn =>
      simp only [Option.some_bind]
      cases cn.next with
      | none => rfl
      | some nx =>
        simp only
        cases q.heap nx with
        | none => rfl
        | some n =>
          simp only [Option.some_bind]
          split_ifs
          · rw [setNext_comp]
            cases q.setNext cNode n.next with
            | none => rfl
            | some q₁ => exact ih { q₁.free nx with size := q₁.size - 1 } cNode (removed + 1)
          · exact ih q nx removed

/-- **`priqueue_remove` never reads the comparator**: on a queue with another comparator it
does the same, and leaves the same queue with that comparator. -/
theorem remove_comp (q : PriQueue α) :
    ({ q with comp := c } : PriQueue α).priqueueRemove ptr =
      (q.priqueueRemove ptr).map fun r => ({ r.1 with comp := c }, r.2) := by
  unfold priqueueRemove
  simp only [removeHeads_comp]
  cases removeHeads ptr q q.size.toNat 0 with
  | none => rfl
  | some r =>
    obtain ⟨q₁, removed⟩ := r
    simp only [Option.map_some', Option.some_bind]
    split_ifs
    · simp only [removeLoop_comp]
      cases q₁.head <;> rfl
    · rfl

end Comparator

section Remove

variable [DecidableEq α] (ptr : Option α)

/-- **Remove-all by identity.** For every queue with element list `l` and every pointer `ptr`,
`priqueue_remove(q, ptr)` returns the number of occurrences of `ptr` in `l`, leaves `l` with
them deleted and the other elements in their order, lowers `size` by that number, and does the
same whatever the comparator, which it never reads. -/
theorem remove_deletes_all_equal (h : Rep q cs) :
    ∃ q' cs', q.priqueueRemove ptr = some (q', ((cs.map Prod.snd).countP (fun y => some y = ptr) : Int)) ∧
      Rep q' cs' ∧ cs'.map Prod.snd = (cs.map Prod.snd).filter (fun y => some y ≠ ptr) ∧
      q'.size = q.size - (cs.map Prod.snd).countP (fun y => some y = ptr) ∧
      ∀ comp : α → α → Int, ({ q with comp := comp } : PriQueue α).priqueueRemove ptr =
        some ({ q' with comp := comp }, ((cs.map Prod.snd).countP (fun y => some y = ptr) : Int)) := by
  obtain ⟨q', hq, h', -⟩ := remove_spec ptr h
  have hcount : (cs.map Prod.snd).countP (fun y => some y = ptr) = cs.countP fun c => some c.2 = ptr :=
    List.countP_map _ _ _
  have hnot : (fun c : Nat × α => !decide (some c.2 ≠ ptr)) = fun c => decide (some c.2 = ptr) := by
    funext c; simp
  have hlen : cs.length = (cs.filter fun c => some c.2 ≠ ptr).length + cs.countP fun c => some c.2 = ptr := by
    rw [List.length_eq_length_filter_add (fun c : Nat × α => decide (some c.2 ≠ ptr)), hnot,
      List.countP_eq_length_filter]
  rw [hcount]
  refine ⟨q', _, hq, h', by rw [List.filter_map]; rfl, ?_, fun comp => by rw [remove_comp, hq]; rfl⟩
  rw [h'.size_eq, h.size_eq, hlen]
  omega

/-- With a comparator that appends, the queue `2, 2, 1, 2` loses its run of two `2`s at the head
and the `2` at the tail to `priqueue_remove(2)`, and the queue `2, 2` is emptied. -/
theorem remove_deletes_all_equal_runs :
    (∃ (q : PriQueue Nat) (cs : List (Nat × Nat)), Rep q cs ∧ cs.map Prod.snd = [2, 2, 1, 2] ∧
      ∃ q' cs', q.priqueueRemove (some 2) =
          some (q', ((cs.map Prod.snd).countP (fun y => some y = some 2) : Int)) ∧
        Rep q' cs' ∧ cs'.map Prod.snd = (cs.map Prod.snd).filter (fun y => some y ≠ some 2) ∧
        q'.size = q.size - (cs.map Prod.snd).countP (fun y => some y = some 2) ∧
        ∀ comp : Nat → Nat → Int, ({ q with comp := comp } : PriQueue Nat).priqueueRemove (some 2) =
          some ({ q' with comp := comp }, ((cs.map Prod.snd).countP (fun y => some y = some 2) : Int))) ∧
    ∃ (q : PriQueue Nat) (cs : List (Nat × Nat)), Rep q cs ∧ cs.map Prod.snd = [2, 2] ∧
      ∃ q' cs', q.priqueueRemove (some 2) =
          some (q', ((cs.map Prod.snd).countP (fun y => some y = some 2) : Int)) ∧
        Rep q' cs' ∧ cs'.map Prod.snd = (cs.map Prod.snd).filter (fun y => some y ≠ some 2) ∧
        q'.size = q.size - (cs.map Prod.snd).countP (fun y => some y = some 2) ∧
        ∀ comp : Nat → Nat → Int, ({ q with comp := comp } : PriQueue Nat).priqueueRemove (some 2) =
          some ({ q' with comp := comp }, ((cs.map Prod.snd).countP (fun y => some y = some 2) : Int)) := by
  constructor
  · obtain ⟨q, hr, -⟩ := exists_qrun_of_replay (fun _ _ : Nat => (1 : Int))
      [.offer (some 2), .offer (some 2), .offer (some 1), .offer (some 2)] (fun _ => ()) (v := ()) (by decide)
    obtain ⟨cs, h, hl⟩ := hr.elems
    exact ⟨q, cs, h, hl.trans (by decide), remove_deletes_all_equal (some 2) h⟩
  · obtain ⟨q, hr, -⟩ := exists_qrun_of_replay (fun _ _ : Nat => (1 : Int))
      [.offer (some 2), .offer (some 2)] (fun _ => ()) (v := ()) (by decide)
    obtain ⟨cs, h, hl⟩ := hr.elems
    exact ⟨q, cs, h, hl.trans (by decide), remove_deletes_all_equal (some 2) h⟩

end Remove

end PriQueue

end Libpriqueue
