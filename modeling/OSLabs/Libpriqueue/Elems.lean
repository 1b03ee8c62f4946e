import Mathlib.Data.List.Sort

/-!
# The element list of `libpriqueue`

`libpriqueue.c` keeps its elements in a singly linked list of `node_t` cells. What its clients
see is the list of the data along that chain, and on that list every operation is a plain list
function: `priqueue_poll` drops the head, `priqueue_remove_at` erases one position,
`priqueue_remove` filters out one pointer, and `priqueue_offer` inserts before the first element
that the comparator puts after the new one. This file names the last of these and proves what
the rest of the development needs about it: how it moves a list sorted by a key, and how it
interacts with filtering and relabelling the elements.

The node-level model of the C code is in `OSLabs.Libpriqueue.Basic`; it is proved to act on its
element list as these functions do in `OSLabs.Libpriqueue.Refinement`. The scheduler
(`OSLabs.Libscheduler.Basic`) holds its job queue as an element list and uses them directly.

## Main definitions

* `Libpriqueue.offer` — the element list after `priqueue_offer` links `x`.
* `Libpriqueue.insertIndex` — the position it links `x` at.

## Main results

* `Libpriqueue.sorted_offer` — offering an element keeps a list sorted by a key, ties broken by
  a second relation, when the new element comes after every element in that relation and the
  comparator only looks at the key.
* `Libpriqueue.filter_offer` — the part of the list a predicate selects is offered to as a list
  of its own, provided the comparator never places the new element before an unselected one.
* `Libpriqueue.offer_eq_append` — a comparator that never answers `< 0` appends.
* `Libpriqueue.offer_eq_take_drop` — `x` goes in at its insertion index.
-/

namespace Libpriqueue

variable {α β : Type*}

/-- The element list after `priqueue_offer q x`: `x` goes before the first element `e` with
`comp x e < 0`, or last if there is none. -/
def offer (comp : α → α → Int) (x : α) (l : List α) : List α :=
  l.orderedInsert (fun a b => comp a b < 0) x

section Basic

variable (comp : α → α → Int) (x : α)

@[simp]
theorem offer_nil : offer comp x [] = [x] := rfl

theorem offer_cons (e : α) (l : List α) :
    offer comp x (e :: l) = if comp x e < 0 then x :: e :: l else e :: offer comp x l := rfl

theorem offer_perm (l : List α) : (offer comp x l).Perm (x :: l) :=
  List.perm_orderedInsert _ x l

@[simp]
theorem mem_offer {y : α} {l : List α} : y ∈ offer comp x l ↔ y = x ∨ y ∈ l :=
  List.mem_orderedInsert _

@[simp]
theorem length_offer (l : List α) : (offer comp x l).length = l.length + 1 :=
  List.orderedInsert_length _ l x

/-- A comparator that never puts `x` first appends it: the FCFS and RR comparators. -/
theorem offer_eq_append {l : List α} (h : ∀ e ∈ l, ¬ comp x e < 0) : offer comp x l = l ++ [x] := by
  induction l with
  | nil => rfl
  | cons e l ih =>
    simp only [List.mem_cons, forall_eq_or_imp] at h
    rw [offer_cons, if_neg h.1, ih h.2, List.cons_append]

/-- The position `priqueue_offer` gives `x` in `l`: the least index `i` with `comp x l[i] < 0`,
or the length of `l` when there is none. -/
def insertIndex (l : List α) : Nat := l.findIdx fun e => comp x e < 0

theorem insertIndex_cons (e : α) (l : List α) :
    insertIndex comp x (e :: l) = if comp x e < 0 then 0 else insertIndex comp x l + 1 := by
  by_cases h : comp x e < 0 <;> simp [insertIndex, List.findIdx_cons, h]

/-- **Ordered insertion** puts `x` at its insertion index. -/
theorem offer_eq_take_drop (l : List α) :
    offer comp x l = l.take (insertIndex comp x l) ++ x :: l.drop (insertIndex comp x l) := by
  induction l with
  | nil => rfl
  | cons e l ih =>
    rw [offer_cons, insertIndex_cons]
    by_cases h : comp x e < 0
    · simp [h]
    · simp [h, ih]

theorem getElem?_offer_insertIndex (l : List α) : (offer comp x l)[insertIndex comp x l]? = some x := by
  induction l with
  | nil => rfl
  | cons e l ih =>
    rw [offer_cons, insertIndex_cons]
    by_cases h : comp x e < 0
    · simp [h]
    · simp [h, ih]

/-- The elements `x` goes after are those before its insertion index. -/
theorem length_takeWhile_eq_insertIndex (l : List α) :
    (l.takeWhile fun e => ¬ comp x e < 0).length = insertIndex comp x l := by
  induction l with
  | nil => rfl
  | cons e l ih =>
    rw [insertIndex_cons, List.takeWhile_cons]
    by_cases h : comp x e < 0
    · simp [h]
    · rw [if_pos (by simpa using h), if_neg h, List.length_cons, ih]

end Basic

/-- Relabelling the elements commutes with offering, for a comparator that reads the labels. -/
theorem map_offer (f : α → β) (comp : β → β → Int) (x : α) (l : List α) :
    (offer (fun a b => comp (f a) (f b)) x l).map f = offer comp (f x) (l.map f) := by
  induction l with
  | nil => rfl
  | cons e l ih =>
    rw [offer_cons, List.map_cons, offer_cons]
    split_ifs <;> simp [ih]

/-- An element the predicate rejects leaves the selected sublist as it was, wherever it goes. -/
theorem filter_offer_of_not (comp : α → α → Int) {w : α → Bool} {x : α} (hx : w x = false) (l : List α) :
    (offer comp x l).filter w = l.filter w := by
  induction l with
  | nil => simp [hx]
  | cons e l ih =>
    rw [offer_cons]
    split_ifs <;> simp [List.filter_cons, hx, ih]

/-- **Offering to a selected sublist.** If `comp` never places `x` before an element that `w`
rejects, the elements `w` selects after the offer are those selected before with `x` offered
to them (when `w x`), or unchanged (when not). -/
theorem filter_offer (comp : α → α → Int) (w : α → Bool) (x : α) {l : List α}
    (h : ∀ e ∈ l, w e = false → ¬ comp x e < 0) :
    (offer comp x l).filter w = if w x then offer comp x (l.filter w) else l.filter w := by
  induction l with
  | nil => cases hx : w x <;> simp [hx]
  | cons e l ih =>
    simp only [List.mem_cons, forall_eq_or_imp] at h
    rw [offer_cons]
    by_cases hc : comp x e < 0
    · have he : w e = true := by by_contra hne; exact h.1 (by simpa using hne) hc
      cases hx : w x <;> simp [List.filter_cons, hx, he, hc, offer_cons]
    · rw [if_neg hc, List.filter_cons, ih h.2]
      cases hx : w x <;> cases he : w e <;> simp [List.filter_cons, hx, he, hc, offer_cons]

section Sorted

variable {γ : Type*} [LinearOrder γ] (κ : α → γ) (T : α → α → Prop)

/-- Sorted by the key `κ`, ties ordered by `T`. -/
def KeyLex (a b : α) : Prop := κ a < κ b ∨ κ a = κ b ∧ T a b

/-- **Stable ordered insertion.** If `l` is sorted by `κ` with ties ordered by `T`, `x` comes
after every element of `l` in `T`, and the comparator puts `x` first exactly when its key is
smaller, then the offer keeps the list sorted. -/
theorem sorted_offer (comp : α → α → Int) (x : α) {l : List α}
    (hl : l.Sorted (KeyLex κ T)) (hT : ∀ e ∈ l, T e x) (hcomp : ∀ e ∈ l, comp x e < 0 ↔ κ x < κ e) :
    (offer comp x l).Sorted (KeyLex κ T) := by
  induction l with
  | nil => exact List.sorted_singleton x
  | cons e l ih =>
    simp only [List.mem_cons, forall_eq_or_imp] at hT hcomp
    obtain ⟨he, hl'⟩ := List.sorted_cons.1 hl
    rw [offer_cons]
    by_cases hc : comp x e < 0
    · have hxe : κ x < κ e := hcomp.1.1 hc
      rw [if_pos hc]
      refine List.sorted_cons.2 ⟨?_, hl⟩
      simp only [List.mem_cons, forall_eq_or_imp]
      refine ⟨.inl hxe, fun f hf => .inl ?_⟩
      rcases he f hf with h | h
      · exact hxe.trans h
      · exact h.1 ▸ hxe
    · have hex : KeyLex κ T e x := by
        rcases lt_trichotomy (κ e) (κ x) with h | h | h
        · exact .inl h
        · exact .inr ⟨h, hT.1⟩
        · exact absurd (hcomp.1.2 h) hc
      rw [if_neg hc]
      refine List.sorted_cons.2 ⟨fun f hf => ?_, ih hl' hT.2 hcomp.2⟩
      rcases (mem_offer comp x).1 hf with rfl | hf
      · exact hex
      · exact he f hf

end Sorted

end Libpriqueue
