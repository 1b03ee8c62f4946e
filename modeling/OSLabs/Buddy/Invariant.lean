import OSLabs.Buddy.Blocks

/-!
# The partition invariant of `buddy.c`

The free lists and the blocks handed out by `buddy_alloc` and not yet given back to `buddy_free`
tile `g_memory`: every page lies in exactly one of them. This file proves that every operation
keeps this, together with the bookkeeping the operations rely on (the `order` field of the first
page of each block) and the coalescing of the free lists (no free block's buddy is free), from
`buddy_init` along every run whose frees return live allocations.

## Main definitions

* `Buddy.frees` — the blocks on `free_area[MIN_ORDER..MAX_ORDER]`, list by list.
* `Buddy.BuddyInv` — the invariant.
* `Buddy.Run` — the runs from `buddy_init`, with the list of live allocations.
* `Buddy.replay` — a client's calls evaluated in order, each with its contract checked;
  `Buddy.Run.replay` says that what it reaches is a run.

## Main results

* `Buddy.buddySplit_spec`, `Buddy.allocLoop_spec`, `Buddy.buddyFree_eq` — what the functions of
  `buddy.c` compute, each once.
* `Buddy.BuddyInv.alloc`, `Buddy.BuddyInv.free` — the two operations keep the invariant.
* `Buddy.Run.inv` — it holds along every run; `Buddy.Run.alloc_some`, `Buddy.Run.free_some` —
  and every allocation of a size up to `2^20`, and every free of a live block, has a result.
-/

namespace Buddy

open Block

/-! ### The blocks on the free lists -/

/-- The orders `MIN_ORDER..MAX_ORDER` of the free lists that `buddy_init` initialises. -/
def orders : List Nat := List.range' minOrder (maxOrder + 1 - minOrder)

theorem mem_orders {o : Nat} : o ∈ orders ↔ minOrder ≤ o ∧ o ≤ maxOrder := by
  simp only [orders, List.mem_range'_1, maxOrder, minOrder]
  omega

theorem orders_nodup : orders.Nodup := List.nodup_range' _ _

/-- The free blocks: page `p` on `free_area[o]` is the block of order `o` at `p`. -/
def frees (s : State) : List Block := orders.flatMap fun o => (s.freeArea o).map (Block.mk · o)

theorem mem_frees {s : State} {b : Block} :
    b ∈ frees s ↔ b.order ∈ orders ∧ b.page ∈ s.freeArea b.order := by
  simp only [frees, List.mem_flatMap, List.mem_map]
  constructor
  · rintro ⟨o, ho, p, hp, rfl⟩
    exact ⟨ho, hp⟩
  · rintro ⟨ho, hp⟩
    exact ⟨_, ho, _, hp, rfl⟩

theorem Block.Valid.mem_orders {b : Block} (hb : b.Valid) : b.order ∈ orders :=
  Buddy.mem_orders.2 ⟨hb.low, hb.high⟩

@[simp] theorem frees_setOrder (s : State) (p : Nat) (o : Int) : frees (s.setOrder p o) = frees s :=
  rfl

/-- The free blocks split at one order: that order's list, and the lists of the others. -/
theorem frees_perm {o : Nat} (ho : o ∈ orders) (s : State) :
    (frees s).Perm ((s.freeArea o).map (Block.mk · o) ++
      (orders.erase o).flatMap fun o => (s.freeArea o).map (Block.mk · o)) := by
  simpa using (List.perm_cons_erase ho).flatMap_right fun o => (s.freeArea o).map (Block.mk · o)

/-- Changing the list of one order leaves the lists of the others. -/
theorem flatMap_erase_update {o : Nat} (s : State) (l : List Nat) :
    ((orders.erase o).flatMap fun o' => (Function.update s.freeArea o l o').map (Block.mk · o')) =
      (orders.erase o).flatMap fun o' => (s.freeArea o').map (Block.mk · o') :=
  List.flatMap_congr fun o' ho' => by
    rw [Function.update_noteq (fun h => orders_nodup.not_mem_erase (h ▸ ho'))]

theorem frees_listAdd {o : Nat} (ho : o ∈ orders) (s : State) (p : Nat) :
    (frees (s.listAdd p o)).Perm (⟨p, o⟩ :: frees s) := by
  refine (frees_perm ho _).trans ?_
  simp only [State.listAdd_freeArea, Function.update_same, List.map_cons, flatMap_erase_update,
    List.cons_append]
  exact ((frees_perm ho s).symm).cons _

theorem frees_listDel {o p : Nat} (ho : o ∈ orders) (s : State) (hp : p ∈ s.freeArea o) :
    (frees (s.listDel p o)).Perm ((frees s).erase ⟨p, o⟩) := by
  refine (frees_perm ho _).trans ?_
  have hmem : (⟨p, o⟩ : Block) ∈ (s.freeArea o).map (Block.mk · o) := List.mem_map_of_mem _ hp
  simp only [State.listDel_freeArea, Function.update_same, flatMap_erase_update,
    List.map_erase (fun a b h => congrArg Block.page h : Function.Injective (Block.mk · o))]
  rw [← List.erase_append_left _ hmem]
  exact ((frees_perm ho s).erase _).symm

/-! ### The operations -/

section Split

variable {req : Nat} (h12 : minOrder ≤ req)
include h12

/-- **`buddy_split`.** Splitting from order `c` down to `req` puts the buddy of the block of
order `o` at `r` at the head of `free_area[o]`, for each order `o` in `req..c-1`, and gives those
pages their order. -/
theorem buddySplit_spec {c : Nat} (r : Nat) (s : State) (hc : req ≤ c) :
    ∃ s', buddySplit req c r s = some s' ∧
      (∀ o, s'.freeArea o =
        if req ≤ o ∧ o < c then (r ^^^ 2 ^ (o - minOrder)) :: s.freeArea o else s.freeArea o) ∧
      (∀ b ∈ splitBlocks r req c, s'.order b.page = b.order) ∧
      (∀ x, x ∉ (splitBlocks r req c).map Block.page → s'.order x = s.order x) ∧
      (c ≤ maxOrder → (frees s').Perm (splitBlocks r req c ++ frees s)) := by
  induction c, hc using Nat.le_induction generalizing s with
  | base =>
    obtain ⟨k, rfl⟩ : ∃ k, req = k + 1 := ⟨req - 1, by simp only [minOrder] at h12; omega⟩
    refine ⟨s, by simp [buddySplit], fun o => ?_, by simp [splitBlocks_self], fun _ _ => rfl,
      fun _ => by simp [splitBlocks_self]⟩
    rw [if_neg (by omega)]
  | succ c hc ih =>
    have hb : addrToPage (buddyAddr (pageToAddr r) c) = r ^^^ 2 ^ (c - minOrder) :=
      addrToPage_buddyAddr r (h12.trans hc)
    obtain ⟨s', hs', hfree, hset, hkeep, hperm⟩ :=
      ih (((s.setOrder (r ^^^ 2 ^ (c - minOrder)) c).listAdd (r ^^^ 2 ^ (c - minOrder)) c))
    have hnot : r ^^^ 2 ^ (c - minOrder) ∉ (splitBlocks r req c).map Block.page := by
      simp only [splitBlocks, List.map_map, List.mem_map, List.mem_range'_1, not_exists, not_and]
      intro o ho h
      have := Nat.pow_right_injective (le_refl 2) (Nat.xor_right_inj.1 h)
      simp only [minOrder] at h12 this
      omega
    refine ⟨s', by simp [buddySplit, show req ≠ c + 1 by omega, hb, hs'], fun o => ?_, ?_, ?_, ?_⟩
    · rw [hfree]
      by_cases ho : o = c
      · subst ho
        rw [if_neg (by omega), if_pos ⟨hc, by omega⟩]
        simp
      · simp only [State.listAdd_freeArea, State.setOrder_freeArea, Function.update_noteq ho]
        split_ifs <;> first | rfl | omega
    · rw [splitBlocks_succ hc]
      intro b hb
      rcases List.mem_append.1 hb with hb | hb
      · exact hset b hb
      · rw [List.mem_singleton.1 hb]
        show s'.order (r ^^^ 2 ^ (c - minOrder)) = (c : Int)
        rw [hkeep _ hnot]
        simp
    · intro x hx
      rw [splitBlocks_succ hc, List.map_append, List.mem_append, not_or] at hx
      rw [hkeep x hx.1]
      simp only [State.listAdd_order, State.setOrder_order]
      exact Function.update_noteq (by simpa [buddy, pages] using hx.2) _ _
    · intro hmax
      rw [splitBlocks_succ hc, List.append_assoc]
      exact (hperm (by omega)).trans
        (List.Perm.append_left _ (frees_listAdd (mem_orders.2 ⟨h12.trans hc, by omega⟩) _ _))

end Split

theorem minOrder_le_reqOrder (size : Nat) : minOrder ≤ reqOrder size := by
  unfold reqOrder
  split_ifs <;> omega

theorem reqOrder_le_maxOrder {size : Nat} (h : size ≤ 2 ^ maxOrder) : reqOrder size ≤ maxOrder := by
  have : Nat.clog 2 size ≤ maxOrder :=
    (Nat.clog_mono_right 2 h).trans (Nat.clog_pow 2 _ (by decide)).le
  unfold reqOrder
  split_ifs <;> simp only [minOrder, maxOrder] at * <;> omega

/-- **The search of `buddy_alloc`.** From `temp_order` on, the loop either finds every list up
to `MAX_ORDER` empty and returns `NULL`, or takes the head page of the first nonempty list, gives
it the requested order, unlinks it and splits it down. -/
theorem allocLoop_spec {req : Nat} (s : State) (h12 : minOrder ≤ req) :
    ∀ k temp, req ≤ temp → ∃ s' r, allocLoop req s k temp = some (s', r) ∧
      ((∀ t, temp ≤ t → t < temp + k → s.freeArea t = []) ∧ s' = s ∧ r = none ∨
        ∃ t p rest, temp ≤ t ∧ t < temp + k ∧ (∀ t', temp ≤ t' → t' < t → s.freeArea t' = []) ∧
          s.freeArea t = p :: rest ∧
          buddySplit req t p ((s.setOrder p req).listDel p t) = some s' ∧ r = some (pageToAddr p))
  | 0, temp, _ => ⟨s, none, rfl, .inl ⟨fun t h₁ h₂ => absurd h₂ (by omega), rfl, rfl⟩⟩
  | k + 1, temp, htemp => by
    simp only [allocLoop]
    split
    next hnil =>
      obtain ⟨s', r, hs, h⟩ := allocLoop_spec s h12 k (temp + 1) (by omega)
      refine ⟨s', r, hs, h.imp (fun ⟨hall, h⟩ => ⟨fun t h₁ h₂ => ?_, h⟩) fun ⟨t, p, rest, h⟩ =>
        ⟨t, p, rest, by omega, by omega, fun t' h₁ h₂ => ?_, h.2.2.2⟩⟩
      · rcases Nat.eq_or_lt_of_le h₁ with rfl | h₁
        exacts [hnil, hall t h₁ (by omega)]
      · rcases Nat.eq_or_lt_of_le h₁ with rfl | h₁
        exacts [hnil, h.2.2.1 t' h₁ h₂]
    next p rest hcons =>
      obtain ⟨s', hs', -⟩ := buddySplit_spec h12 p ((s.setOrder p req).listDel p temp) htemp
      exact ⟨s', _, by rw [hs']; rfl, .inr ⟨temp, p, rest, le_rfl, by omega,
        fun t' h₁ h₂ => absurd h₂ (by omega), hcons, hs', rfl⟩⟩

theorem buddyAlloc_eq {size : Int} (s : State) (h0 : 0 ≤ size) (h1 : size ≤ 2 ^ maxOrder) :
    buddyAlloc s size = allocLoop (reqOrder size.toNat) s (maxOrder + 1 - reqOrder size.toNat)
      (reqOrder size.toNat) := by
  rw [buddyAlloc, if_neg (by omega)]

/-- A block size of order at least `MIN_ORDER` is requested at its own order. -/
theorem reqOrder_two_pow {k : Nat} (hk : minOrder ≤ k) : reqOrder (2 ^ k) = k := by
  unfold reqOrder
  rw [Nat.clog_pow 2 k (by decide)]
  split_ifs <;> omega

/-- `buddy_alloc` of a block size searches from that block's order. -/
theorem buddyAlloc_two_pow (s : State) {k : Nat} (hk : minOrder ≤ k) (hk' : k ≤ maxOrder) :
    buddyAlloc s (2 ^ k) = allocLoop k s (maxOrder + 1 - k) k := by
  rw [buddyAlloc_eq s (by exact_mod_cast Nat.zero_le (2 ^ k))
    (by exact_mod_cast Nat.pow_le_pow_right (by decide) hk')]
  rw [show (2 ^ k : Int).toNat = 2 ^ k by exact_mod_cast Int.toNat_natCast (2 ^ k), reqOrder_two_pow hk]

/-- The `order` field `buddy_free` reads for a page of `g_memory` that starts a block of order
`MIN_ORDER..MAX_ORDER`. -/
theorem buddyFree_eq {s : State} {b : Block} (hb : b.Valid) (ho : s.order b.page = b.order) :
    buddyFree s (pageToAddr b.page) = some (freeLoop (maxOrder - b.order) s b.page) := by
  have hlt := hb.lt b.covers_page
  have := hb.low
  have := hb.high
  simp only [buddyFree, addrToPage_pageToAddr, hlt, ho, if_true, Int.toNat_ofNat]
  rw [if_neg (by omega), if_pos (by omega)]

/-! ### The invariant -/

/-- No free block's buddy is free. -/
def Coalesced (s : State) : Prop := ∀ b ∈ frees s, b.order < maxOrder → b.buddy ∉ frees s

/-- **The invariant** of a state `s` with live allocations `live`: the free and the live blocks
tile `g_memory`, the first page of each holds its order, and the free lists are coalesced. -/
structure BuddyInv (s : State) (live : List Block) : Prop where
  tiles : Tiles (frees s ++ live)
  freeOrder : ∀ b ∈ frees s, s.order b.page = b.order
  liveOrder : ∀ b ∈ live, s.order b.page = b.order
  coalesced : Coalesced s

theorem buddyInv_init : BuddyInv buddyInit [] := by
  have hfrees : frees buddyInit = [⟨0, maxOrder⟩] := by decide
  refine ⟨⟨fun b hb => ?_, fun x hx => ?_⟩, fun b hb => ?_, by simp, ?_⟩
  · rw [List.append_nil, hfrees, List.mem_singleton.1 hb] at *
    decide
  · have hx' : x < 0 + (⟨0, maxOrder⟩ : Block).pages := by
      have : nPages = 0 + (⟨0, maxOrder⟩ : Block).pages := by decide
      omega
    rw [List.append_nil, hfrees]
    exact List.countP_cons_of_pos (p := fun b : Block => decide (b.Covers x)) []
      (decide_eq_true ⟨Nat.zero_le x, hx'⟩)
  · rw [hfrees, List.mem_singleton] at hb
    subst hb
    rfl
  · intro b hb h
    rw [hfrees, List.mem_singleton] at hb
    exact absurd (hb ▸ h) (lt_irrefl _)

section Push

variable {s : State} {live : List Block} {p c : Nat}

/-- The two ways `buddy_free` ends: the block at `p` of order `c`, held by no other block and
whose buddy is not free (or which is the whole of `g_memory`), goes on its list. -/
theorem BuddyInv.push (ht : Tiles (⟨p, c⟩ :: (frees s ++ live)))
    (hfree : ∀ b ∈ frees s, s.order b.page = b.order)
    (hlive : ∀ b ∈ live, s.order b.page = b.order) (hco : Coalesced s)
    (hbud : c < maxOrder → (Block.buddy ⟨p, c⟩) ∉ frees s) :
    BuddyInv ((s.setOrder p c).listAdd p c) live := by
  have hB := ht.valid _ (List.mem_cons_self _ _)
  have hperm := frees_listAdd (o := c) hB.mem_orders (s.setOrder p c) p
  rw [frees_setOrder] at hperm
  -- no other block starts at `p`
  have hne : ∀ b ∈ frees s ++ live, b.page ≠ p := fun b hb h =>
    ht.not_covers_erase (List.mem_cons_self _ _) (by rwa [List.erase_cons_head])
      (covers_page ⟨p, c⟩) (h ▸ b.covers_page)
  have hord : ∀ b ∈ frees s ++ live, ((s.setOrder p c).listAdd p c).order b.page = s.order b.page :=
    fun b hb => Function.update_noteq (hne b hb) _ _
  refine ⟨ht.perm (hperm.append_right live).symm, fun b hb => ?_, fun b hb => ?_, ?_⟩
  · rcases List.mem_cons.1 (hperm.subset hb) with rfl | hb
    · simp
    · rw [hord b (List.mem_append_left _ hb), hfree b hb]
  · rw [hord b (List.mem_append_right _ hb), hlive b hb]
  · intro b hb hlt hbb
    rcases List.mem_cons.1 (hperm.subset hb) with rfl | hb
    · rcases List.mem_cons.1 (hperm.subset hbb) with h | h
      · exact buddy_ne_self _ h
      · exact hbud hlt h
    · rcases List.mem_cons.1 (hperm.subset hbb) with h | h
      · have hc : b.order = c := congrArg Block.order h
        exact hbud (hc ▸ hlt) (by rw [← h, buddy_buddy]; exact hb)
      · exact hco b hb hlt h

/-- **The merge loop of `buddy_free`.** Freeing the block at `p` of order `MAX_ORDER - k`, held
by no free or live block, merges it up and leaves the invariant. -/
theorem BuddyInv.freeLoop : ∀ (k : Nat) (s : State) (p : Nat),
    Tiles (⟨p, maxOrder - k⟩ :: (frees s ++ live)) → k ≤ maxOrder - minOrder →
    (∀ b ∈ frees s, s.order b.page = b.order) → (∀ b ∈ live, s.order b.page = b.order) →
    Coalesced s → BuddyInv (Buddy.freeLoop k s p) live
  | 0, s, p, ht, _, hfree, hlive, hco => BuddyInv.push ht hfree hlive hco fun h => absurd h (by simp)
  | k + 1, s, p, ht, hk, hfree, hlive, hco => by
    set c := maxOrder - (k + 1) with hc
    have hB : Valid ⟨p, c⟩ := ht.valid _ (List.mem_cons_self _ _)
    have hcmax : c < maxOrder := by simp only [hc, maxOrder, minOrder] at hk ⊢; omega
    have hbp : addrToPage (buddyAddr (pageToAddr p) c) = (Block.buddy ⟨p, c⟩).page :=
      addrToPage_buddyAddr p hB.low
    simp only [Buddy.freeLoop, ← hc, hbp]
    by_cases hmem : (Block.buddy ⟨p, c⟩).page ∈ s.freeArea c
    · -- the buddy is free: unlink it and go on with the parent
      rw [if_pos hmem]
      have hbf : Block.buddy ⟨p, c⟩ ∈ frees s := mem_frees.2 ⟨hB.mem_orders, hmem⟩
      have hdel := frees_listDel hB.mem_orders s hmem
      obtain ⟨hPv, -, hcount⟩ := hB.merge hcmax
      have hpar : (⟨(parent ⟨p, c⟩).page, maxOrder - k⟩ : Block) = parent ⟨p, c⟩ := by
        ext
        · rfl
        · simp only [parent_order, hc]
          simp only [maxOrder, minOrder] at hk ⊢
          omega
      refine BuddyInv.freeLoop k _ _ ?_ (by omega)
        (fun b hb => hfree b (List.mem_of_mem_erase (hdel.subset hb))) hlive
        (fun b hb hlt hbb => hco b (List.mem_of_mem_erase (hdel.subset hb)) hlt
          (List.mem_of_mem_erase (hdel.subset hbb)))
      show Tiles (⟨(parent ⟨p, c⟩).page, maxOrder - k⟩ :: _)
      rw [hpar]
      have h₁ : (⟨p, c⟩ :: (frees s ++ live)).Perm
          ([⟨p, c⟩, Block.buddy ⟨p, c⟩] ++ ((frees s).erase (Block.buddy ⟨p, c⟩) ++ live)) := by
        refine List.Perm.cons _ ?_
        rw [← List.erase_append_left _ hbf]
        exact List.perm_cons_erase (List.mem_append_left _ hbf)
      exact ((ht.perm h₁).replace (fun b hb => by rw [List.mem_singleton.1 hb]; exact hPv)
        (fun x => (hcount x).symm)).perm ((hdel.append_right _).symm.cons _)
    · rw [if_neg hmem]
      exact BuddyInv.push ht hfree hlive hco fun _ hbf => hmem (mem_frees.1 hbf).2

end Push

/-- **`buddy_free`** of a live block keeps the invariant, for the live blocks without it. -/
theorem BuddyInv.free {s : State} {live : List Block} {b : Block} (h : BuddyInv s live)
    (hb : b ∈ live) : ∃ s', buddyFree s (pageToAddr b.page) = some s' ∧ BuddyInv s' (live.erase b) := by
  have hv := h.tiles.valid b (List.mem_append_right _ hb)
  refine ⟨_, buddyFree_eq hv (h.liveOrder b hb), ?_⟩
  have hperm : (frees s ++ live).Perm (b :: (frees s ++ live.erase b)) :=
    ((List.perm_cons_erase hb).append_left _).trans List.perm_middle
  refine BuddyInv.freeLoop _ s b.page ?_ (by have := hv.low; have := hv.high; omega) h.freeOrder
    (fun a ha => h.liveOrder a (List.mem_of_mem_erase ha)) h.coalesced
  rw [show maxOrder - (maxOrder - b.order) = b.order by have := hv.high; omega]
  exact h.tiles.perm hperm

/-- Coalescing after a split: the buddy of each piece is the block of its order at `p`, which
the live block at `p` keeps from being free, and an old free block whose buddy were a piece
would itself start at `p`. -/
theorem coalesced_of_split {fr old live : List Block} {p req t : Nat}
    (hT : Tiles (fr ++ ⟨p, req⟩ :: live)) (hfr : ∀ b ∈ fr, b ∈ splitBlocks p req t ∨ b ∈ old)
    (hold : ∀ b ∈ old, b.order < maxOrder → b.buddy ∉ old) (hp : ∀ b ∈ old, b.page ≠ p) :
    ∀ b ∈ fr, b.order < maxOrder → b.buddy ∉ fr := by
  have hpiece : ∀ a ∈ splitBlocks p req t, ∃ o, a = Block.buddy ⟨p, o⟩ := fun a ha => by
    obtain ⟨o, -, rfl⟩ := List.mem_map.1 ha
    exact ⟨o, rfl⟩
  have hnot : ∀ o, (⟨p, o⟩ : Block) ∉ fr := fun o ho =>
    hT.not_covers_append ho (List.mem_cons_self _ _) (covers_page ⟨p, o⟩) (covers_page ⟨p, req⟩)
  intro b hb hlt hbb
  rcases hfr b hb with hb' | hb'
  · obtain ⟨o, rfl⟩ := hpiece b hb'
    exact hnot o (by simpa using hbb)
  · rcases hfr _ hbb with hbb' | hbb'
    · obtain ⟨o, ho⟩ := hpiece _ hbb'
      exact hp b hb' (congrArg Block.page (by rw [← buddy_buddy (b := b), ho, buddy_buddy] :
        b = ⟨p, o⟩))
    · exact hold b hb' hlt hbb'

/-- **Taking a free block.** Taking the free block at `p` of order `t` for an allocation of order
`req`, and splitting it down, keeps the invariant with the block of order `req` at `p` live. -/
theorem BuddyInv.split {s s' : State} {live : List Block} {req t p : Nat} (h : BuddyInv s live)
    (h12 : minOrder ≤ req) (ht : req ≤ t) (hmem : ⟨p, t⟩ ∈ frees s)
    (hs : buddySplit req t p ((s.setOrder p req).listDel p t) = some s') :
    BuddyInv s' (⟨p, req⟩ :: live) := by
  set B : Block := ⟨p, t⟩ with hBdef
  set A : List Block := ⟨p, req⟩ :: splitBlocks p req t with hA
  have hB : B.Valid := h.tiles.valid B (List.mem_append_left _ hmem)
  have hdel : (frees ((s.setOrder p req).listDel p t)).Perm ((frees s).erase B) := by
    simpa using frees_listDel hB.mem_orders (s.setOrder p req) (mem_frees.1 hmem).2
  obtain ⟨s'', hs'', -, hset, hkeep, hperm⟩ :=
    buddySplit_spec h12 p ((s.setOrder p req).listDel p t) ht
  obtain rfl : s' = s'' := Option.some.inj (hs.symm.trans hs'')
  obtain ⟨hAv, hAc⟩ := hB.split h12 ht
  -- `B` is the one block of the old tiling on its pages, and `A` holds exactly those pages
  have hT : Tiles (B :: ((frees s).erase B ++ live)) := by
    refine h.tiles.perm ?_
    rw [← List.erase_append_left _ hmem]
    exact List.perm_cons_erase (List.mem_append_left _ hmem)
  have hout : ∀ b ∈ (frees s).erase B ++ live, ∀ x, B.Covers x → ¬ b.Covers x :=
    fun b hb x hx hbx => hT.not_covers_erase (List.mem_cons_self _ _)
      (by rwa [List.erase_cons_head]) hx hbx
  have hinB : ∀ a ∈ A, B.Covers a.page := fun a ha => by
    obtain ⟨b', hb', hx⟩ := exists_covers_of_countP_eq (hAc a.page) ha a.covers_page
    rwa [List.mem_singleton.1 hb'] at hx
  have hpage : ∀ b ∈ (frees s).erase B ++ live, b.page ≠ p ∧ b.page ∉ (splitBlocks p req t).map page :=
    fun b hb => ⟨fun he => hout b hb _ (hinB _ (List.mem_cons_self _ _)) (he ▸ b.covers_page),
      fun he => by
        obtain ⟨a, ha, he⟩ := List.mem_map.1 he
        exact hout b hb _ (hinB a (List.mem_cons_of_mem _ ha)) (he ▸ b.covers_page)⟩
  have hord : ∀ b ∈ (frees s).erase B ++ live, s'.order b.page = s.order b.page := fun b hb => by
    rw [hkeep _ (hpage b hb).2]
    exact Function.update_noteq (hpage b hb).1 _ _
  -- the new tiling
  have hT' : Tiles (frees s' ++ ⟨p, req⟩ :: live) := by
    have hT₁ : Tiles ([B] ++ ((frees s).erase B ++ live)) := hT
    refine (hT₁.replace hAv hAc).perm (List.Perm.symm ?_)
    refine (((hperm hB.high).trans (List.Perm.append_left _ hdel)).append_right _).trans ?_
    exact List.perm_middle.trans (List.Perm.of_eq (by simp [hA]))
  have hsplit_free : ∀ a ∈ splitBlocks p req t, a ∈ frees s' := fun a ha =>
    (hperm hB.high).symm.subset (List.mem_append_left _ ha)
  have hmem' : ∀ b ∈ frees s', b ∈ splitBlocks p req t ∨ b ∈ (frees s).erase B := fun b hb =>
    List.mem_append.1 (((hperm hB.high).trans (List.Perm.append_left _ hdel)).subset hb)
  refine ⟨hT', fun b hb => ?_, fun b hb => ?_, fun b hb hlt hbb => ?_⟩
  · rcases hmem' b hb with hb | hb
    · exact hset b hb
    · rw [hord b (List.mem_append_left _ hb)]
      exact h.freeOrder b (List.mem_of_mem_erase hb)
  · rcases List.mem_cons.1 hb with rfl | hb
    · rw [hkeep _ fun he => ?_]
      · simp
      · obtain ⟨a, ha, he⟩ := List.mem_map.1 he
        exact hT'.not_covers_append (hsplit_free a ha) (List.mem_cons_self _ _)
          a.covers_page (he ▸ covers_page ⟨p, req⟩)
    · rw [hord b (List.mem_append_right _ hb)]
      exact h.liveOrder b hb
  · exact coalesced_of_split hT' hmem' (fun b hb hlt hbb => h.coalesced b
      (List.mem_of_mem_erase hb) hlt (List.mem_of_mem_erase hbb))
      (fun b hb => (hpage b (List.mem_append_left _ hb)).1) b hb hlt hbb

/-- **`buddy_alloc`** of a size up to `2^20` has a result, and keeps the invariant with the
block it returns, of the requested order at the returned page, live. -/
theorem BuddyInv.alloc {s : State} {live : List Block} {size : Int} (h : BuddyInv s live)
    (h0 : 0 ≤ size) (h1 : size ≤ 2 ^ maxOrder) :
    ∃ s' r, buddyAlloc s size = some (s', r) ∧
      BuddyInv s' ((r.map fun a => (⟨addrToPage a, reqOrder size.toNat⟩ : Block)).toList ++ live) := by
  have h12 := minOrder_le_reqOrder size.toNat
  have h20 := reqOrder_le_maxOrder (Int.toNat_le.2 (by exact_mod_cast h1))
  rw [buddyAlloc_eq s h0 h1]
  generalize reqOrder size.toNat = req at h12 h20 ⊢
  obtain ⟨s', r, hs, hcases⟩ := allocLoop_spec s h12 _ _ le_rfl
  refine ⟨s', r, hs, ?_⟩
  rcases hcases with ⟨-, rfl, rfl⟩ | ⟨t, p, rest, ht₁, ht₂, -, hhead, hsplit, rfl⟩
  · simpa using h
  · have hmem : (⟨p, t⟩ : Block) ∈ frees s :=
      mem_frees.2 ⟨mem_orders.2 ⟨h12.trans ht₁, (by omega : t ≤ maxOrder)⟩, by simp [hhead]⟩
    simpa [addrToPage_pageToAddr] using h.split h12 ht₁ hmem hsplit

/-! ### Runs -/

/-- The runs from `buddy_init`, with the blocks allocated and not yet freed: `buddy_alloc` of a
size in `0..2^20`, which adds the block of the requested order at the address it returns, and
`buddy_free` of the address of a live block, which removes it. -/
inductive Run : State → List Block → Prop
  | init : Run buddyInit []
  | alloc {s s' : State} {live : List Block} {size : Int} {r : Option Nat} :
      Run s live → 0 ≤ size → size ≤ 2 ^ maxOrder → buddyAlloc s size = some (s', r) →
      Run s' ((r.map fun a => (⟨addrToPage a, reqOrder size.toNat⟩ : Block)).toList ++ live)
  | free {s s' : State} {live : List Block} {b : Block} :
      Run s live → b ∈ live → buddyFree s (pageToAddr b.page) = some s' → Run s' (live.erase b)

namespace Run

variable {s : State} {live : List Block}

/-- **The invariant holds along every run.** -/
theorem inv (hr : Run s live) : BuddyInv s live := by
  induction hr with
  | init => exact buddyInv_init
  | alloc _ h0 h1 hs ih =>
    obtain ⟨s', r, hs', hI⟩ := ih.alloc h0 h1
    obtain ⟨rfl, rfl⟩ := Prod.mk.inj (Option.some.inj (hs.symm.trans hs'))
    exact hI
  | free _ hb hs ih =>
    obtain ⟨s', hs', hI⟩ := ih.free hb
    obtain rfl := Option.some.inj (hs.symm.trans hs')
    exact hI

theorem alloc_some (hr : Run s live) {size : Int} (h0 : 0 ≤ size) (h1 : size ≤ 2 ^ maxOrder) :
    ∃ s' r, buddyAlloc s size = some (s', r) :=
  let ⟨s', r, hs, _⟩ := hr.inv.alloc h0 h1
  ⟨s', r, hs⟩

theorem free_some (hr : Run s live) {b : Block} (hb : b ∈ live) :
    ∃ s', buddyFree s (pageToAddr b.page) = some s' :=
  let ⟨s', hs, _⟩ := hr.inv.free hb
  ⟨s', hs⟩

end Run

/-- A client's call: `buddy_alloc(size)`, or `buddy_free` of the address of a live block. -/
inductive BOp
  | alloc (size : Int)
  | free (b : Block)

/-- A client's calls in order, from the allocator `s` with the live blocks `live`: each with its
contract met and a result, giving up (`none`) at the first that is not. -/
def replay : State → List Block → List BOp → Option (State × List Block)
  | s, live, [] => some (s, live)
  | s, live, .alloc size :: ops =>
    if 0 ≤ size ∧ size ≤ 2 ^ maxOrder then
      (buddyAlloc s size).bind fun x =>
        replay x.1 ((x.2.map fun a => (⟨addrToPage a, reqOrder size.toNat⟩ : Block)).toList ++ live) ops
    else none
  | s, live, .free b :: ops =>
    if b ∈ live then (buddyFree s (pageToAddr b.page)).bind fun s' => replay s' (live.erase b) ops
    else none

/-- Calls that replay extend a run. -/
theorem Run.replay {s : State} {live : List Block} (hr : Run s live) {ops : List BOp} {s' : State}
    {live' : List Block} (h : replay s live ops = some (s', live')) : Run s' live' := by
  induction ops generalizing s live with
  | nil => obtain ⟨rfl, rfl⟩ := Prod.mk.inj (Option.some.inj h); exact hr
  | cons o ops ih =>
    cases o with
    | alloc size =>
      simp only [Buddy.replay] at h
      split_ifs at h with hs
      obtain ⟨⟨s₁, r⟩, h₁, h⟩ := Option.bind_eq_some.1 h
      exact ih (hr.alloc hs.1 hs.2 h₁) h
    | free b =>
      simp only [Buddy.replay] at h
      split_ifs at h with hb
      obtain ⟨s₁, h₁, h⟩ := Option.bind_eq_some.1 h
      exact ih (hr.free hb h₁) h

/-- **A run read off one evaluation.** If the calls `ops` replay from `buddy_init` to a state and
live list observed by `f` as `v`, some run ends in a state and live list observed as `v`. -/
theorem exists_run_of_replay {β : Type*} (ops : List BOp) (f : State × List Block → β) {v : β}
    (h : (replay buddyInit [] ops).map f = some v) : ∃ s live, Run s live ∧ f (s, live) = v := by
  obtain ⟨⟨s, live⟩, hs, rfl⟩ := Option.map_eq_some'.1 h
  exact ⟨s, live, Run.init.replay hs, rfl⟩

end Buddy
