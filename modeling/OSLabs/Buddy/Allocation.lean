import OSLabs.Buddy.Canonical

/-!
# What `buddy_alloc` hands out

Seen from its callers, the allocator keeps a set of live blocks and answers a request of `size`
bytes with a block of `2^req_order` bytes that shares no page with them, or with `NULL`. This
file states that `buddy_alloc` is such an allocator along every run from `buddy_init`, and that
it is complete for its block size: it answers `NULL` only when every aligned block of the
requested order already holds an allocated page, never because the free lists are fragmented.

## Main results

* `Buddy.Tiles.not_overlaps_of_mem` — a block of a tiling shares no page with the blocks listed
  after it.
* `Buddy.buddyAlloc_fresh` — `buddy_alloc` returns a valid block of at least `size` bytes that
  overlaps no live block, and returns `NULL` exactly when no valid block of the requested order
  is unused.

## Design

The completeness half rests on `Buddy.BuddyInv.exists_free_above`: an unused valid block lies
in a free block of at least its order, and the search of `buddy_alloc` (`Buddy.allocLoop_spec`)
looks at every list from the requested order up. The freshness half reads the tiling that
`Buddy.BuddyInv.split` leaves, with the new block among the live ones.
-/

namespace Buddy

open Block

/-- `2^req_order` bytes hold the request: `req_order` is at least `ceil(log2(size))`. -/
theorem le_two_pow_reqOrder (size : Nat) : size ≤ 2 ^ reqOrder size := by
  have hle : Nat.clog 2 size ≤ reqOrder size := by unfold reqOrder; split_ifs <;> omega
  exact (Nat.le_pow_clog (by decide) size).trans (Nat.pow_le_pow_right (by decide) hle)

/-- A block of a tiling shares no page with the blocks listed after it. -/
theorem Tiles.not_overlaps_of_mem {fr live : List Block} {b a : Block}
    (h : Tiles (fr ++ b :: live)) (ha : a ∈ live) : ¬ a.Overlaps b := by
  intro hab
  obtain ⟨x, hax, hbx⟩ := overlaps_iff.1 hab
  have hb : b ∉ live := (List.nodup_cons.1 (List.nodup_append.1 h.nodup).2.1).1
  have e : a = b := h.eq_of_covers (List.mem_append_right _ (List.mem_cons_of_mem _ ha))
    (List.mem_append_right _ (List.mem_cons_self _ _)) hax hbx
  exact hb (e ▸ ha)

/-- **`buddy_alloc` hands out fresh blocks, and fails only when it must.** From every state a
run reaches, `buddy_alloc(size)` of a size in `0..2^20` returns. It returns `NULL` exactly when
every valid block of the requested order shares a page with a live block: it never fails while
an aligned block of that size is unused. An address it returns is the address of a page, and
the block of the requested order there is valid (aligned to its size, inside `g_memory`), holds
at least `size` bytes, and shares no page with any live block. -/
theorem buddyAlloc_fresh {s : State} {live : List Block} (hr : Run s live) {size : Int}
    (h0 : 0 ≤ size) (h1 : size ≤ 2 ^ maxOrder) :
    ∃ s' r, buddyAlloc s size = some (s', r) ∧
      (r = none ↔ ∀ B : Block, B.Valid → B.order = reqOrder size.toNat → ∃ a ∈ live, a.Overlaps B) ∧
      ∀ addr, r = some addr → pageToAddr (addrToPage addr) = addr ∧
        (⟨addrToPage addr, reqOrder size.toNat⟩ : Block).Valid ∧ size ≤ 2 ^ reqOrder size.toNat ∧
        ∀ a ∈ live, ¬ a.Overlaps ⟨addrToPage addr, reqOrder size.toNat⟩ := by
  have h := hr.inv
  have h12 := minOrder_le_reqOrder size.toNat
  have hsize : size ≤ 2 ^ reqOrder size.toNat := by
    exact_mod_cast Int.toNat_le.1 (le_two_pow_reqOrder size.toNat)
  rw [buddyAlloc_eq s h0 h1]
  generalize reqOrder size.toNat = req at h12 hsize ⊢
  obtain ⟨s', r, hs, hcases⟩ := allocLoop_spec s h12 _ _ le_rfl
  refine ⟨s', r, hs, ?_⟩
  rcases hcases with ⟨hempty, -, rfl⟩ | ⟨t, p, rest, ht₁, ht₂, -, hhead, hsplit, rfl⟩
  · -- every list from the requested order up is empty: an unused block would lie in a free one
    refine ⟨⟨fun _ B hB hB₁ => ?_, fun _ => rfl⟩, fun _ h => (Option.some_ne_none _ h.symm).elim⟩
    by_contra hno
    push_neg at hno
    obtain ⟨f, hf, hof, -⟩ := h.exists_free_above B hB fun a ha => hno a ha
    have hfo := (h.valid_of_mem_frees hf).high
    have hnil := hempty f.order (by omega) (by omega)
    simpa [hnil] using (mem_frees.1 hf).2
  · -- the block taken is live in the new state, beside the old live blocks
    have hmem : (⟨p, t⟩ : Block) ∈ frees s :=
      mem_frees.2 ⟨mem_orders.2 ⟨h12.trans ht₁, (by omega : t ≤ maxOrder)⟩, by simp [hhead]⟩
    have ht := (h.split h12 ht₁ hmem hsplit).tiles
    have hv : (⟨p, req⟩ : Block).Valid :=
      ht.valid _ (List.mem_append_right _ (List.mem_cons_self _ _))
    have hfresh : ∀ a ∈ live, ¬ a.Overlaps ⟨p, req⟩ := fun a ha => ht.not_overlaps_of_mem ha
    refine ⟨⟨fun h => (Option.some_ne_none _ h).elim, fun hall => ?_⟩, ?_⟩
    · obtain ⟨a, ha, hab⟩ := hall _ hv rfl
      exact (hfresh a ha hab).elim
    · rintro _ ⟨⟩
      rw [addrToPage_pageToAddr]
      exact ⟨rfl, hv, hsize, hfresh⟩

/-- A fragmented allocator: a page and a two-page block live, the page beside them free, and no
free block of order 13. A two-page request there splits a larger block. -/
theorem buddyAlloc_fresh_fragmented : ∃ s live, live = [⟨2, 13⟩, ⟨1, 12⟩] ∧
    frees s = [⟨0, 12⟩, ⟨4, 14⟩, ⟨8, 15⟩, ⟨16, 16⟩, ⟨32, 17⟩, ⟨64, 18⟩, ⟨128, 19⟩] ∧
    Run s live ∧ (0 : Int) ≤ 8192 ∧ (8192 : Int) ≤ 2 ^ maxOrder ∧
    ∃ s' r, buddyAlloc s 8192 = some (s', r) ∧
      (r = none ↔ ∀ B : Block, B.Valid → B.order = reqOrder (8192 : Int).toNat →
        ∃ a ∈ live, a.Overlaps B) ∧
      ∀ addr, r = some addr → pageToAddr (addrToPage addr) = addr ∧
        (⟨addrToPage addr, reqOrder (8192 : Int).toNat⟩ : Block).Valid ∧
        (8192 : Int) ≤ 2 ^ reqOrder (8192 : Int).toNat ∧
        ∀ a ∈ live, ¬ a.Overlaps ⟨addrToPage addr, reqOrder (8192 : Int).toNat⟩ := by
  have h12 (s) : buddyAlloc s 4096 = allocLoop 12 s 9 12 :=
    buddyAlloc_two_pow s (k := 12) le_rfl (by decide)
  have h13 (s) : buddyAlloc s 8192 = allocLoop 13 s 8 13 :=
    buddyAlloc_two_pow s (k := 13) (by decide) (by decide)
  have r12 : reqOrder (4096 : Int).toNat = 12 := reqOrder_two_pow (k := 12) le_rfl
  have r13 : reqOrder (8192 : Int).toNat = 13 := reqOrder_two_pow (k := 13) (by decide)
  have heval : (replay buddyInit [] [.alloc 4096, .alloc 4096, .alloc 8192, .free ⟨0, 12⟩]).map
      (fun x => (x.2, frees x.1)) =
      some ([⟨2, 13⟩, ⟨1, 12⟩], [⟨0, 12⟩, ⟨4, 14⟩, ⟨8, 15⟩, ⟨16, 16⟩, ⟨32, 17⟩, ⟨64, 18⟩, ⟨128, 19⟩]) := by
    simp only [replay, h12, h13, r12, r13]
    decide
  obtain ⟨s, live, hr, hv⟩ := exists_run_of_replay _ _ heval
  obtain ⟨rfl, hf⟩ := Prod.mk.inj hv
  exact ⟨s, _, rfl, hf, hr, by decide, by decide, buddyAlloc_fresh hr (by decide) (by decide)⟩

end Buddy
