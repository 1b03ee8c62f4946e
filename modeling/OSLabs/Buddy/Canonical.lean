import OSLabs.Buddy.Invariant

/-!
# The free lists are determined by the allocations

Along every run of `buddy.c`, which blocks are free depends only on which are allocated: a block
is free exactly when it is aligned, holds no allocated page, and is either the whole of
`g_memory` or has an allocated page in its buddy. This is what the coalescing of `buddy_free`
buys: with no free block beside a free buddy, the free blocks are the largest aligned blocks that
avoid the allocations. In particular, once everything is freed, the free lists are back to the
one block `buddy_init` made.

## Main results

* `Buddy.BuddyInv.exists_free_above` — a valid block that holds no live page lies in a free
  block of at least its order.
* `Buddy.BuddyInv.mem_frees_iff` — the free blocks, described by the live ones alone.
* `Buddy.buddy_partition` — the invariant of the allocator along every run: the partition of
  `g_memory`, the lists, the coalescing, the description of the free blocks, and that every
  further allocation and free has a result.
-/

namespace Buddy

open Block

/-- Lists of blocks that hold the same pages equally often overlap the same blocks. -/
theorem not_overlaps_of_countP_eq {A A' live : List Block}
    (hc : ∀ x, A.countP (·.Covers x) = A'.countP (·.Covers x))
    (hl : ∀ a ∈ live, ∀ b' ∈ A', ¬ a.Overlaps b') : ∀ a ∈ live, ∀ b ∈ A, ¬ a.Overlaps b :=
  fun a ha b hb hab => by
    obtain ⟨x, hax, hbx⟩ := overlaps_iff.1 hab
    obtain ⟨b', hb', hx⟩ := exists_covers_of_countP_eq (hc x) hb hbx
    exact hl a ha b' hb' (overlaps_iff.2 ⟨x, hax, hx⟩)

/-- The parent of a valid block below `MAX_ORDER` holds its pages and those of its buddy. -/
theorem Block.Valid.parent_covers {b : Block} (hb : b.Valid) (hlt : b.order < maxOrder) {x : Nat}
    (hx : b.Covers x ∨ b.buddy.Covers x) : b.parent.Covers x := by
  obtain ⟨-, -, hc⟩ := hb.merge hlt
  obtain ⟨b', hb', hx⟩ := exists_covers_of_countP_eq (hc x)
    (b := if b.Covers x then b else b.buddy) (by split_ifs <;> simp) (by split_ifs <;> tauto)
  rwa [List.mem_singleton.1 hb'] at hx

section Canonical

variable {s : State} {live : List Block} (h : BuddyInv s live)
include h

theorem BuddyInv.valid_of_mem_frees {f : Block} (hf : f ∈ frees s) : f.Valid :=
  h.tiles.valid f (List.mem_append_left _ hf)

/-- **Free blocks above.** A valid block that holds no live page lies in a free block of at
least its order, by induction on the order: if neither half lies in a free block of larger
order, both halves are free, and they are buddies. -/
theorem BuddyInv.exists_free_above (B : Block) (hB : B.Valid) (hl : ∀ a ∈ live, ¬ a.Overlaps B) :
    ∃ f ∈ frees s, B.order ≤ f.order ∧ f.Covers B.page := by
  obtain ⟨n, hn⟩ : ∃ n, B.order = minOrder + n := ⟨B.order - minOrder, by have := hB.low; omega⟩
  induction n generalizing B with
  | zero =>
    obtain ⟨f, hf, hx⟩ := h.tiles.exists_covers (hB.lt B.covers_page)
    rcases List.mem_append.1 hf with hf | hf
    · exact ⟨f, hf, by have := (h.valid_of_mem_frees hf).low; omega, hx⟩
    · exact absurd (overlaps_iff.2 ⟨_, hx, B.covers_page⟩) (hl f hf)
  | succ n ih =>
    obtain ⟨p, t⟩ := B
    obtain rfl : t = minOrder + n + 1 := hn
    obtain ⟨hL, hR, -, hc⟩ := hB.halves (Nat.le_add_right _ _)
    have hsub := not_overlaps_of_countP_eq hc fun a ha b' hb' => by
      rw [List.mem_singleton.1 hb']
      exact hl a ha
    obtain ⟨f₁, hf₁, ho₁, hx₁⟩ := ih _ hL (fun a ha => hsub a ha _ (List.mem_cons_self _ _)) rfl
    obtain ⟨f₂, hf₂, ho₂, hx₂⟩ := ih _ hR (fun a ha => hsub a ha _ (by simp)) rfl
    by_cases h₁ : minOrder + n + 1 ≤ f₁.order
    · exact ⟨f₁, hf₁, h₁, hx₁⟩
    by_cases h₂ : minOrder + n + 1 ≤ f₂.order
    · -- the free block over the upper half holds the whole block
      obtain ⟨b', hb', hBx⟩ :=
        exists_covers_of_countP_eq (hc _) (by simp) (buddy ⟨p, minOrder + n⟩).covers_page
      rw [List.mem_singleton.1 hb'] at hBx
      exact ⟨f₂, hf₂, h₂, hB.covers_of_le (h.valid_of_mem_frees hf₂) h₂ hBx hx₂ (covers_page _)⟩
    · -- otherwise both halves are free, and they are buddies
      have e₁ : f₁ = ⟨p, minOrder + n⟩ :=
        (h.valid_of_mem_frees hf₁).eq_of_covers hL (by simp only at ho₁ ⊢; omega) hx₁ (covers_page _)
      have e₂ : f₂ = buddy ⟨p, minOrder + n⟩ :=
        (h.valid_of_mem_frees hf₂).eq_of_covers hR (by simp only [buddy_order] at ho₂ ⊢; omega) hx₂
          (covers_page _)
      exact (h.coalesced _ (e₁ ▸ hf₁) (by have := hB.high; simp only at this ⊢; omega)
        (e₂ ▸ hf₂)).elim

/-- **The free blocks are determined by the live ones.** A block is free exactly when it is
valid, holds no live page, and is either all of `g_memory` or has a live page in its buddy. -/
theorem BuddyInv.mem_frees_iff (b : Block) :
    b ∈ frees s ↔ b.Valid ∧ (∀ a ∈ live, ¬ a.Overlaps b) ∧
      (b.order = maxOrder ∨ ∃ a ∈ live, a.Overlaps b.buddy) := by
  constructor
  · intro hb
    have hv := h.valid_of_mem_frees hb
    have hno : ∀ a ∈ live, ¬ a.Overlaps b := fun a ha hab => by
      obtain ⟨x, hax, hbx⟩ := overlaps_iff.1 hab
      exact h.tiles.not_covers_append hb ha hbx hax
    refine ⟨hv, hno, or_iff_not_imp_left.2 fun hne => ?_⟩
    have hlt : b.order < maxOrder := lt_of_le_of_ne hv.high hne
    by_contra hbud
    push_neg at hbud
    -- the parent holds no live page, so a free block of larger order holds `b`
    obtain ⟨hPv, -, hc⟩ := hv.merge hlt
    have hPl := not_overlaps_of_countP_eq (fun x => (hc x).symm) fun a ha b' hb' => by
      rcases List.mem_cons.1 hb' with rfl | hb'
      · exact hno a ha
      · rw [List.mem_singleton.1 hb']
        exact hbud a ha
    obtain ⟨f, hf, hof, hfx⟩ := h.exists_free_above _ hPv (fun a ha => hPl a ha _ (by simp))
    have hfb : f.Covers b.page := hPv.covers_of_le (h.valid_of_mem_frees hf) hof
      (covers_page _) hfx (hv.parent_covers hlt (.inl b.covers_page))
    have := congrArg Block.order
      (h.tiles.eq_of_covers (List.mem_append_left _ hf) (List.mem_append_left _ hb) hfb
        b.covers_page)
    simp only [parent_order] at hof
    omega
  · rintro ⟨hv, hno, hor⟩
    obtain ⟨f, hf, hof, hfx⟩ := h.exists_free_above b hv hno
    rcases Nat.eq_or_lt_of_le hof with heq | hlt
    · rwa [(h.valid_of_mem_frees hf).eq_of_covers hv heq.symm hfx b.covers_page] at hf
    · have hfv := h.valid_of_mem_frees hf
      rcases hor with hmax | ⟨a, ha, hab⟩
      · exact absurd hfv.high (by omega)
      · -- a free block above `b` holds its buddy, where a live block has a page
        have hblt : b.order < maxOrder := by have := hfv.high; omega
        obtain ⟨hPv, -, -⟩ := hv.merge hblt
        obtain ⟨x, hax, hbx⟩ := overlaps_iff.1 hab
        have hfx' : f.Covers x := hPv.covers_of_le hfv (by simpa using hlt)
          (hv.parent_covers hblt (.inl b.covers_page)) hfx (hv.parent_covers hblt (.inr hbx))
        exact (h.tiles.not_covers_append hf ha hfx' hax).elim

/-- No free block's buddy is free: below `MAX_ORDER` by coalescing, and at `MAX_ORDER` because
the one block of that order is all of `g_memory`. -/
theorem BuddyInv.buddy_not_mem_frees {b : Block} (hb : b ∈ frees s) : b.buddy ∉ frees s := by
  intro hbb
  rcases Nat.lt_or_ge b.order maxOrder with hlt | hge
  · exact h.coalesced b hb hlt hbb
  · have ho : b.order = maxOrder := le_antisymm (h.valid_of_mem_frees hb).high hge
    exact buddy_ne_self b (Block.ext (((h.valid_of_mem_frees hbb).page_eq_zero ho).trans
      ((h.valid_of_mem_frees hb).page_eq_zero ho).symm) rfl)

/-- With nothing live, the free lists hold the one block of `buddy_init`. -/
theorem BuddyInv.frees_eq_of_nil (hnil : live = []) : frees s = [⟨0, maxOrder⟩] := by
  subst hnil
  have hall : ∀ b ∈ frees s, b = ⟨0, maxOrder⟩ := fun b hb => by
    obtain ⟨hv, -, hor⟩ := (h.mem_frees_iff b).1 hb
    have ho : b.order = maxOrder := by simpa using hor
    exact Block.ext (hv.page_eq_zero ho) ho
  have hlen : (frees s).length = 1 := by
    rw [← h.tiles.once 0 (by decide), List.append_nil, eq_comm, List.countP_eq_length]
    intro b hb
    rw [hall b hb]
    decide
  obtain ⟨a, ha⟩ := List.length_eq_one.1 hlen
  rw [ha, hall a (by simp [ha])]

end Canonical

/-- **The buddy allocator's partition and coalescing invariant.** Along every run from
`buddy_init` of allocations of sizes `0..2^20` and frees of live allocations: the free blocks
(those on `free_area[12..20]`) and the live ones tile the 256 pages of `g_memory`, each valid
(of order `12..20`, at a multiple of its size); each free block's page carries its order and is
on no other list, and no block is listed twice; no free block's buddy is free; which blocks are
free is determined by the live ones alone, and with nothing live it is the one block of order
`MAX_ORDER` at page 0; and every further allocation and every free of a live block has a
result. -/
theorem buddy_partition {s : State} {live : List Block} (hr : Run s live) :
    Tiles (frees s ++ live) ∧
    (∀ b ∈ frees s, s.order b.page = b.order ∧ ∀ f ∈ frees s, f.page = b.page → f = b) ∧
    (frees s).Nodup ∧
    (∀ b ∈ frees s, b.buddy ∉ frees s) ∧
    (∀ b, b ∈ frees s ↔ b.Valid ∧ (∀ a ∈ live, ¬ a.Overlaps b) ∧
      (b.order = maxOrder ∨ ∃ a ∈ live, a.Overlaps b.buddy)) ∧
    (live = [] → frees s = [⟨0, maxOrder⟩]) ∧
    (∀ size : Int, 0 ≤ size → size ≤ 2 ^ maxOrder → ∃ s' r, buddyAlloc s size = some (s', r)) ∧
    (∀ b ∈ live, ∃ s', buddyFree s (pageToAddr b.page) = some s') := by
  have h := hr.inv
  refine ⟨h.tiles, fun b hb => ⟨h.freeOrder b hb, fun f hf he => ?_⟩,
    (List.nodup_append.1 h.tiles.nodup).1, fun _ => h.buddy_not_mem_frees, h.mem_frees_iff,
    h.frees_eq_of_nil, fun _ => hr.alloc_some, fun _ => hr.free_some⟩
  exact h.tiles.eq_of_covers (List.mem_append_left _ hf) (List.mem_append_left _ hb)
    (he ▸ f.covers_page) b.covers_page

/-- Two pages and a two-page block handed out, then both pages given back: the pages have
coalesced into one order-13 block beside the live one, and the partition holds there. -/
theorem buddy_partition_coalesced : ∃ s live, live = [⟨2, 13⟩] ∧
    frees s = [⟨0, 13⟩, ⟨4, 14⟩, ⟨8, 15⟩, ⟨16, 16⟩, ⟨32, 17⟩, ⟨64, 18⟩, ⟨128, 19⟩] ∧
    Run s live ∧ Tiles (frees s ++ live) ∧
    (∀ b ∈ frees s, s.order b.page = b.order ∧ ∀ f ∈ frees s, f.page = b.page → f = b) ∧
    (frees s).Nodup ∧
    (∀ b ∈ frees s, b.buddy ∉ frees s) ∧
    (∀ b, b ∈ frees s ↔ b.Valid ∧ (∀ a ∈ live, ¬ a.Overlaps b) ∧
      (b.order = maxOrder ∨ ∃ a ∈ live, a.Overlaps b.buddy)) ∧
    (live = [] → frees s = [⟨0, maxOrder⟩]) ∧
    (∀ size : Int, 0 ≤ size → size ≤ 2 ^ maxOrder → ∃ s' r, buddyAlloc s size = some (s', r)) ∧
    (∀ b ∈ live, ∃ s', buddyFree s (pageToAddr b.page) = some s') := by
  have h12 (s) : buddyAlloc s 4096 = allocLoop 12 s 9 12 :=
    buddyAlloc_two_pow s (k := 12) le_rfl (by decide)
  have h13 (s) : buddyAlloc s 8192 = allocLoop 13 s 8 13 :=
    buddyAlloc_two_pow s (k := 13) (by decide) (by decide)
  have r12 : reqOrder (4096 : Int).toNat = 12 := reqOrder_two_pow (k := 12) le_rfl
  have r13 : reqOrder (8192 : Int).toNat = 13 := reqOrder_two_pow (k := 13) (by decide)
  have heval : (replay buddyInit [] [.alloc 4096, .alloc 4096, .alloc 8192, .free ⟨0, 12⟩, .free ⟨1, 12⟩]).map
      (fun x => (x.2, frees x.1)) =
      some ([⟨2, 13⟩], [⟨0, 13⟩, ⟨4, 14⟩, ⟨8, 15⟩, ⟨16, 16⟩, ⟨32, 17⟩, ⟨64, 18⟩, ⟨128, 19⟩]) := by
    simp only [replay, h12, h13, r12, r13]
    decide
  obtain ⟨s, live, hr, hv⟩ := exists_run_of_replay _ _ heval
  obtain ⟨rfl, hf⟩ := Prod.mk.inj hv
  exact ⟨s, _, rfl, hf, hr, buddy_partition hr⟩

end Buddy
