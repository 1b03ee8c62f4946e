import OSLabs.Buddy.Invariant

/-!
# `buddy_free` undoes `buddy_alloc`

`buddy_alloc` takes the head page `p` of the first nonempty free list, of order `t`, and
`buddy_split` pushes the right halves split off on the way down onto the heads of the lists of
orders `req..t-1`. Freeing the address it returned right away meets exactly those pages, at the
heads of those lists, and merges with each of them, keeping `p` as the lower page. At order `t`
the buddy is not free, because the free lists are coalesced, so the block goes back on the head
of `free_area[t]`, where it was taken from. Every free list is then the sequence it was before.

## Main results

* `Buddy.freeLoop_freeArea` — the lists the merge loop of `buddy_free` leaves, when each buddy
  it meets heads its list and the last one is not free.
* `Buddy.alloc_free_roundtrip` — from every reachable state, `buddy_free` of the address that
  `buddy_alloc` just returned gives back every free list exactly.
-/

namespace Buddy

/-- At an order `o` below the order `t` of a block at `p`, `BUDDY_ADDR` names the page `2^o`
bytes above `p`. -/
theorem buddyPage_eq_add {p o t : Nat} (hp : 2 ^ (t - minOrder) ∣ p) (ho : minOrder ≤ o)
    (hot : o < t) : addrToPage (buddyAddr (pageToAddr p) o) = p + 2 ^ (o - minOrder) := by
  rw [addrToPage_buddyAddr p ho]
  exact xor_two_pow_of_dvd (Nat.dvd_trans (Nat.pow_dvd_pow 2 (by omega)) hp)

theorem erase_eq_tail_of_head? {l : List Nat} {b : Nat} (h : l.head? = some b) :
    l.erase b = l.tail := by
  obtain ⟨l, rfl⟩ := List.head?_eq_some_iff.1 h
  exact List.erase_cons_head b l

/-- **The merge loop on a split block.** Let `p` start a block of order `t`, and run the loop of
`buddy_free` at `p` from order `MAX_ORDER - k ≤ t`. If the buddy of `p` at each order below `t`
heads that order's list, and the buddy at order `t` is not free, the loop takes each of those
buddies off its list and puts `p` at the head of `free_area[t]`; no other list changes.

**Proof sketch.** Induction on `k`. Below `t` the buddy is found, and it lies above `p`, so the
merged block still starts at `p`; at `t` the buddy is not found, or `t = MAX_ORDER`. -/
theorem freeLoop_freeArea {p t : Nat} (hp : 2 ^ (t - minOrder) ∣ p) (ht : t ≤ maxOrder) :
    ∀ (k : Nat) (s : State), k ≤ maxOrder - minOrder → maxOrder - k ≤ t →
      (∀ o, maxOrder - k ≤ o → o < t →
        (s.freeArea o).head? = some (addrToPage (buddyAddr (pageToAddr p) o))) →
      (t < maxOrder → addrToPage (buddyAddr (pageToAddr p) t) ∉ s.freeArea t) →
      ∀ o, (freeLoop k s p).freeArea o =
        if maxOrder - k ≤ o ∧ o < t then (s.freeArea o).tail
        else if o = t then p :: s.freeArea o else s.freeArea o := by
  intro k
  induction k with
  | zero =>
    intro s _ h₁ _ _ o
    obtain rfl : t = maxOrder := by omega
    simp only [freeLoop, State.listAdd_freeArea, State.setOrder_freeArea]
    rw [if_neg (by omega)]
    by_cases ho : o = maxOrder
    · rw [ho, Function.update_same, if_pos rfl]
    · rw [Function.update_noteq ho, if_neg ho]
  | succ k ih =>
    intro s hk h₁ hhead hnot o
    by_cases hct : maxOrder - (k + 1) < t
    · -- the buddy heads its list: it is taken off, and the block still starts at `p`
      have hhd := hhead _ le_rfl hct
      have hlow : ¬ pageToAddr (addrToPage (buddyAddr (pageToAddr p) (maxOrder - (k + 1)))) <
          pageToAddr p := by
        rw [pageToAddr_lt_pageToAddr, buddyPage_eq_add hp (by omega) hct]
        exact Nat.not_lt.2 (Nat.le_add_right _ _)
      have ih' := ih (s.listDel (addrToPage (buddyAddr (pageToAddr p) (maxOrder - (k + 1))))
        (maxOrder - (k + 1))) (by omega) (by omega) (fun o' ho₁ ho₂ => ?_) (fun h => ?_) o
      · rw [freeLoop, if_pos (List.mem_of_mem_head? hhd), if_neg hlow, ih', State.listDel_freeArea]
        by_cases hoc : o = maxOrder - (k + 1)
        · rw [if_neg (by omega), if_neg (by omega), if_pos ⟨hoc.ge, hoc ▸ hct⟩, hoc,
            Function.update_same, erase_eq_tail_of_head? hhd]
        · simp only [Function.update_noteq hoc, show maxOrder - k ≤ o ↔ maxOrder - (k + 1) ≤ o by omega]
      · simp only [State.listDel_freeArea, Function.update_noteq (show o' ≠ maxOrder - (k + 1) by omega)]
        exact hhead o' (by omega) ho₂
      · simp only [State.listDel_freeArea, Function.update_noteq (show t ≠ maxOrder - (k + 1) by omega)]
        exact hnot h
    · -- the loop has reached `t`, where the buddy is not free
      obtain rfl : t = maxOrder - (k + 1) := by omega
      rw [freeLoop, if_neg (hnot (by omega)), if_neg (by omega)]
      simp only [State.listAdd_freeArea, State.setOrder_freeArea]
      by_cases ho : o = maxOrder - (k + 1)
      · rw [ho, Function.update_same, if_pos rfl]
      · rw [Function.update_noteq ho, if_neg ho]

/-- **`buddy_free` undoes `buddy_alloc`.** From every state a run reaches, when `buddy_alloc` of
a size in `0..2^20` returns an address, `buddy_free` of that address right afterwards returns,
and leaves every free list exactly as it was before the allocation. -/
theorem alloc_free_roundtrip {s : State} {live : List Block} (hr : Run s live) {size : Int}
    (h0 : 0 ≤ size) (h1 : size ≤ 2 ^ maxOrder) {s' : State} {a : Nat}
    (ha : buddyAlloc s size = some (s', some a)) :
    ∃ s'', buddyFree s' a = some s'' ∧ s''.freeArea = s.freeArea := by
  have h := hr.inv
  have h12 := minOrder_le_reqOrder size.toNat
  rw [buddyAlloc_eq s h0 h1] at ha
  generalize reqOrder size.toNat = req at h12 ha
  obtain ⟨s₁, r, hs, hcases⟩ := allocLoop_spec s h12 _ _ le_rfl
  obtain ⟨rfl, rfl⟩ := Prod.mk.inj (Option.some.inj (ha.symm.trans hs))
  rcases hcases with ⟨-, -, hr'⟩ | ⟨t, p, rest, ht₁, ht₂, -, hhead, hsplit, hr'⟩
  · exact absurd hr' (Option.some_ne_none a)
  obtain rfl := Option.some.inj hr'
  have ht : t ≤ maxOrder := by omega
  -- the block taken, and the one handed out, with the invariant after the allocation
  have hmem : (⟨p, t⟩ : Block) ∈ frees s :=
    mem_frees.2 ⟨mem_orders.2 ⟨h12.trans ht₁, ht⟩, by simp [hhead]⟩
  have hB : Block.Valid ⟨p, t⟩ := h.tiles.valid _ (List.mem_append_left _ hmem)
  have h' := h.split h12 ht₁ hmem hsplit
  have hlive : (⟨p, req⟩ : Block) ∈ ⟨p, req⟩ :: live := List.mem_cons_self _ _
  have hA : Block.Valid ⟨p, req⟩ := h'.tiles.valid _ (List.mem_append_right _ hlive)
  have hfreeEq := buddyFree_eq hA (h'.liveOrder _ hlive)
  refine ⟨_, hfreeEq, ?_⟩
  obtain ⟨s₂, hs₂, hfree, -⟩ := buddySplit_spec h12 p ((s.setOrder p req).listDel p t) ht₁
  obtain rfl : s' = s₂ := Option.some.inj (hsplit.symm.trans hs₂)
  -- the lists after the allocation: the split-off buddies on top of the old lists, `p` gone
  have hdel : ∀ o, ((s.setOrder p req).listDel p t).freeArea o = if o = t then rest else s.freeArea o :=
    fun o => by
      simp only [State.listDel_freeArea, State.setOrder_freeArea, Function.update_apply, hhead,
        List.erase_cons_head]
  have hbud : ∀ o, minOrder ≤ o → addrToPage (buddyAddr (pageToAddr p) o) = p ^^^ 2 ^ (o - minOrder) :=
    fun o ho => addrToPage_buddyAddr p ho
  have hdvd : 2 ^ (t - minOrder) ∣ p := hB.aligned
  funext o
  rw [freeLoop_freeArea hdvd ht (maxOrder - req) s' (by omega) (by omega) (fun o' ho₁ ho₂ => ?_)
    (fun hlt => ?_) o, hfree, hdel]
  · rw [show maxOrder - (maxOrder - req) = req by omega]
    by_cases ho : o = t
    · subst ho
      simp [hhead]
    · by_cases hlo : req ≤ o ∧ o < t <;> simp [hlo, ho]
  · rw [hfree, if_pos ⟨by omega, ho₂⟩, hbud o' (by omega)]
    rfl
  · -- coalescing: the buddy of the block taken is not on `free_area[t]`
    rw [hfree, if_neg (by omega), hdel, if_pos rfl, hbud t (h12.trans ht₁)]
    intro hin
    exact h.coalesced _ hmem hlt (mem_frees.2 ⟨mem_orders.2 ⟨h12.trans ht₁, ht⟩,
      show p ^^^ 2 ^ (t - minOrder) ∈ s.freeArea t from hhead ▸ List.mem_cons_of_mem _ hin⟩)

/-- From `buddy_init`, `buddy_alloc(1)` returns the first page, and freeing it gives the whole
of `g_memory` back to `free_area[MAX_ORDER]`. -/
theorem alloc_free_roundtrip_init : ∃ s', buddyAlloc buddyInit 1 = some (s', some 0) ∧
    ∃ s'', buddyFree s' 0 = some s'' ∧ s''.freeArea = buddyInit.freeArea := by
  have hreq : reqOrder (1 : Int).toNat = minOrder := by simp [reqOrder]
  obtain ⟨s', hs⟩ : ∃ s', buddyAlloc buddyInit 1 = some (s', some 0) := by
    rw [buddyAlloc_eq _ (by decide) (by decide), hreq]
    exact ⟨_, rfl⟩
  exact ⟨s', hs, alloc_free_roundtrip .init (by decide) (by decide) hs⟩

end Buddy
