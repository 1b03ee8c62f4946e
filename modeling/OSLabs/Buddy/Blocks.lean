import Mathlib.Data.List.Nodup
import Mathlib.Data.Nat.Bitwise
import OSLabs.Buddy.Basic

/-!
# Blocks of pages and the tilings the allocator keeps

A block of order `o` is `2^(o - MIN_ORDER)` consecutive pages. The allocator only ever builds
blocks that start at a multiple of their size, and then two blocks that share a page are nested,
a block of order `o + 1` is the union of two blocks of order `o` that are each other's buddy, and
`BUDDY_ADDR` flips exactly the bit that tells the two apart. This file proves these facts and
sets up `Buddy.Tiles`, the statement that a list of blocks covers each page of `g_memory`
exactly once, in the form the invariant of `OSLabs.Buddy.Invariant` uses it.

## Main definitions

* `Buddy.Block` — a block, by its first page and its order; `Block.Covers`, `Block.Overlaps`.
* `Buddy.Block.Valid` — aligned to its size, of order `MIN_ORDER..MAX_ORDER`, inside `g_memory`.
* `Buddy.Block.buddy`, `Buddy.Block.parent` — the block `BUDDY_ADDR` names, and the block
  `buddy_free` merges the two into.
* `Buddy.Tiles` — a list of valid blocks that holds every page exactly once.

## Main results

* `Buddy.addrToPage_buddyAddr` — on page indices, `BUDDY_ADDR` at order `o` is the XOR with
  `2^(o - MIN_ORDER)`.
* `Buddy.Block.Valid.covers_of_le` — valid blocks that share a page are nested.
* `Buddy.Block.Valid.halves`, `Buddy.Block.Valid.merge` — splitting a block and merging a block
  with its buddy keep the pages held, each once.
* `Buddy.Tiles.replace`, `Buddy.Tiles.eq_of_covers` — exchanging blocks that hold the same pages
  keeps a tiling; in a tiling, one block holds each page.
-/

namespace Buddy

/-! ### Bit arithmetic of the address macros -/

theorem xor_two_pow_of_dvd {p k : Nat} (h : 2 ^ (k + 1) ∣ p) : p ^^^ 2 ^ k = p + 2 ^ k := by
  obtain ⟨i, rfl⟩ := h
  refine Nat.eq_of_testBit_eq fun n => ?_
  rw [Nat.testBit_xor, Nat.testBit_mul_pow_two_add i (Nat.pow_lt_pow_succ (by decide)),
    Nat.testBit_mul_pow_two, Nat.testBit_two_pow]
  by_cases hn : n < k + 1
  · simp [hn, show ¬ k + 1 ≤ n by omega]
  · simp [hn, show k ≠ n by omega, show k + 1 ≤ n by omega]

/-- The XOR with `2^k` of an odd multiple of `2^k` moves down by `2^k`. -/
theorem xor_two_pow_add {i k : Nat} : (2 ^ (k + 1) * i + 2 ^ k) ^^^ 2 ^ k = 2 ^ (k + 1) * i := by
  rw [← xor_two_pow_of_dvd (Nat.dvd_mul_right _ _), Nat.xor_assoc, Nat.xor_self, Nat.xor_zero]

/-- **The buddy page.** `ADDR_TO_PAGE(BUDDY_ADDR(PAGE_TO_ADDR(p), o))` flips bit
`o - MIN_ORDER` of the page index `p`. -/
theorem addrToPage_buddyAddr {o : Nat} (p : Nat) (ho : minOrder ≤ o) :
    addrToPage (buddyAddr (pageToAddr p) o) = p ^^^ 2 ^ (o - minOrder) := by
  unfold addrToPage buddyAddr pageToAddr pageSize
  rw [← Nat.shiftRight_eq_div_pow]
  refine Nat.eq_of_testBit_eq fun n => ?_
  rw [Nat.testBit_shiftRight, Nat.testBit_xor, Nat.one_shiftLeft, Nat.mul_comm,
    Nat.testBit_mul_pow_two, Nat.testBit_two_pow, Nat.testBit_xor, Nat.testBit_two_pow]
  simp only [minOrder] at ho ⊢
  simp [show o = 12 + n ↔ o - 12 = n by omega]

theorem addrToPage_pageToAddr (p : Nat) : addrToPage (pageToAddr p) = p :=
  Nat.mul_div_cancel p (Nat.two_pow_pos _)

theorem pageToAddr_lt_pageToAddr {p q : Nat} : pageToAddr p < pageToAddr q ↔ p < q :=
  Nat.mul_lt_mul_right (Nat.two_pow_pos _)

/-- A multiple of `d` below a multiple `n` of `d` is at least `d` below it. -/
theorem add_le_of_dvd {d p n : Nat} (hp : d ∣ p) (hn : d ∣ n) (h : p < n) : p + d ≤ n := by
  obtain ⟨i, rfl⟩ := hp
  obtain ⟨m, rfl⟩ := hn
  calc d * i + d = d * (i + 1) := (Nat.mul_add_one d i).symm
    _ ≤ d * m := Nat.mul_le_mul_left d (Nat.lt_of_mul_lt_mul_left h)

/-! ### Blocks -/

/-- A block of pages: the page it starts at and its order, as `g_pages[page].order`. -/
@[ext]
structure Block where
  page : Nat
  order : Nat
  deriving DecidableEq, Repr

namespace Block

variable {a b : Block} {x y : Nat}

/-- The number of pages of the block, `2^(order - MIN_ORDER)`. -/
def pages (b : Block) : Nat := 2 ^ (b.order - minOrder)

/-- The block holds page `x`. -/
def Covers (b : Block) (x : Nat) : Prop := b.page ≤ x ∧ x < b.page + b.pages

instance (b : Block) (x : Nat) : Decidable (b.Covers x) := inferInstanceAs (Decidable (_ ∧ _))

/-- The two blocks share a page. -/
def Overlaps (a b : Block) : Prop := a.page < b.page + b.pages ∧ b.page < a.page + a.pages

instance (a b : Block) : Decidable (a.Overlaps b) := inferInstanceAs (Decidable (_ ∧ _))

/-- A block as the allocator builds them: its order is in `MIN_ORDER..MAX_ORDER`, its first
page is a multiple of its size, and it lies inside `g_memory`. -/
structure Valid (b : Block) : Prop where
  low : minOrder ≤ b.order
  high : b.order ≤ maxOrder
  aligned : b.pages ∣ b.page
  inside : b.page + b.pages ≤ nPages

instance (b : Block) : Decidable b.Valid :=
  decidable_of_iff (minOrder ≤ b.order ∧ b.order ≤ maxOrder ∧ b.pages ∣ b.page ∧
      b.page + b.pages ≤ nPages)
    ⟨fun ⟨h₁, h₂, h₃, h₄⟩ => ⟨h₁, h₂, h₃, h₄⟩, fun ⟨h₁, h₂, h₃, h₄⟩ => ⟨h₁, h₂, h₃, h₄⟩⟩

/-- The buddy of a block: the block of the same order whose first page differs in the bit of
the block's size, `page ^^^ 2^(order - MIN_ORDER)`. -/
def buddy (b : Block) : Block := ⟨b.page ^^^ b.pages, b.order⟩

/-- The block `buddy_free` merges `b` and its buddy into: one order up, at the lower of their
pages. -/
def parent (b : Block) : Block :=
  ⟨if pageToAddr b.buddy.page < pageToAddr b.page then b.buddy.page else b.page, b.order + 1⟩

theorem pages_pos (b : Block) : 0 < b.pages := Nat.two_pow_pos _

@[simp] theorem buddy_order : b.buddy.order = b.order := rfl
@[simp] theorem buddy_pages : b.buddy.pages = b.pages := rfl
@[simp] theorem buddy_buddy : b.buddy.buddy = b := by
  show Block.mk (b.page ^^^ b.pages ^^^ b.pages) b.order = b
  rw [Nat.xor_assoc, Nat.xor_self, Nat.xor_zero]
theorem buddy_ne_self (b : Block) : b.buddy ≠ b := fun h => by
  have h' : b.page ^^^ b.pages = b.page ^^^ 0 := (congrArg Block.page h).trans (Nat.xor_zero _).symm
  exact b.pages_pos.ne' (Nat.xor_right_inj.1 h')

@[simp] theorem parent_order : b.parent.order = b.order + 1 := rfl

theorem covers_page (b : Block) : b.Covers b.page := ⟨le_rfl, Nat.lt_add_of_pos_right b.pages_pos⟩

theorem overlaps_iff : a.Overlaps b ↔ ∃ x, a.Covers x ∧ b.Covers x := by
  constructor
  · rintro ⟨h₁, h₂⟩
    have := a.pages_pos
    have := b.pages_pos
    exact ⟨max a.page b.page, by simp only [Covers]; omega⟩
  · rintro ⟨x, ⟨h₁, h₂⟩, h₃, h₄⟩
    exact ⟨by omega, by omega⟩

theorem pages_dvd_nPages (h : b.order ≤ maxOrder) : b.pages ∣ nPages :=
  Nat.pow_dvd_pow 2 (Nat.sub_le_sub_right h _)

theorem Valid.lt (hb : b.Valid) (hx : b.Covers x) : x < nPages := by
  have := hb.inside
  unfold Covers at hx
  omega

/-- The one valid block of order `MAX_ORDER` is all of `g_memory`, from page 0. -/
theorem Valid.page_eq_zero (hb : b.Valid) (ho : b.order = maxOrder) : b.page = 0 := by
  have := hb.inside
  simp only [pages, nPages, ho, maxOrder, minOrder, pageSize] at this
  omega

/-- An aligned block holds exactly the pages with its quotient by the block size. -/
theorem Valid.covers_iff (hb : b.Valid) : b.Covers x ↔ x / b.pages = b.page / b.pages := by
  obtain ⟨j, hj⟩ := hb.aligned
  rw [Covers, hj, Nat.mul_div_cancel_left _ b.pages_pos]
  constructor
  · rintro ⟨h₁, h₂⟩
    exact Nat.div_eq_of_lt_le (by rwa [Nat.mul_comm]) (by rwa [Nat.add_one_mul, Nat.mul_comm])
  · rintro rfl
    exact ⟨Nat.mul_div_le x _, by rw [← Nat.mul_add_one]; exact Nat.lt_mul_div_succ x b.pages_pos⟩

/-- **Nesting.** Valid blocks that share a page are nested: the one of larger order holds every
page of the other. -/
theorem Valid.covers_of_le (ha : a.Valid) (hb : b.Valid) (hab : a.order ≤ b.order)
    (hx : a.Covers x) (hbx : b.Covers x) (hy : a.Covers y) : b.Covers y := by
  have hpow : b.pages = a.pages * 2 ^ (b.order - a.order) := by
    rw [pages, pages, ← Nat.pow_add]
    have := ha.low
    congr 1
    omega
  rw [ha.covers_iff] at hx hy
  rw [hb.covers_iff] at hbx ⊢
  rw [← hbx, hpow, ← Nat.div_div_eq_div_mul, ← Nat.div_div_eq_div_mul, hx, hy]

/-- Valid blocks of one order that share a page are the same block. -/
theorem Valid.eq_of_covers (ha : a.Valid) (hb : b.Valid) (h : a.order = b.order)
    (hx : a.Covers x) (hbx : b.Covers x) : a = b := by
  have hp : a.pages = b.pages := by rw [pages, pages, h]
  rw [ha.covers_iff] at hx
  rw [hb.covers_iff] at hbx
  ext
  · calc a.page = a.pages * (a.page / a.pages) := (Nat.mul_div_cancel' ha.aligned).symm
      _ = b.pages * (b.page / b.pages) := by rw [← hx, hp, hbx]
      _ = b.page := Nat.mul_div_cancel' hb.aligned
  · exact h

/-- **Splitting.** The halves of a valid block of order `t + 1` are the block of order `t` at
the same page and its buddy, `2^(t - MIN_ORDER)` pages up; both are valid and together they hold
the pages of the block, each once. -/
theorem Valid.halves {p t : Nat} (hP : Valid ⟨p, t + 1⟩) (ht : minOrder ≤ t) :
    Valid ⟨p, t⟩ ∧ Valid (buddy ⟨p, t⟩) ∧ buddy ⟨p, t⟩ = ⟨p + 2 ^ (t - minOrder), t⟩ ∧
      ∀ x, [(⟨p, t⟩ : Block), buddy ⟨p, t⟩].countP (·.Covers x) =
        [(⟨p, t + 1⟩ : Block)].countP (·.Covers x) := by
  have hsucc : t + 1 - minOrder = t - minOrder + 1 := by omega
  have hpow : pages ⟨p, t + 1⟩ = 2 ^ (t - minOrder) * 2 := by
    rw [pages, hsucc, Nat.pow_succ]
  have hal : 2 ^ (t - minOrder + 1) ∣ p := by
    rw [Nat.pow_succ, ← hpow]
    exact hP.aligned
  have hdvd : 2 ^ (t - minOrder) ∣ p := Nat.dvd_trans (Nat.pow_dvd_pow 2 (Nat.le_succ _)) hal
  have hbud : buddy ⟨p, t⟩ = ⟨p + 2 ^ (t - minOrder), t⟩ := by
    simp only [buddy, pages, xor_two_pow_of_dvd hal]
  have hin : p + 2 ^ (t - minOrder) * 2 ≤ nPages := by
    have := hP.inside
    rwa [hpow] at this
  have hhigh : t + 1 ≤ maxOrder := hP.high
  refine ⟨⟨ht, (by omega : t ≤ maxOrder), hdvd, (by omega : p + 2 ^ (t - minOrder) ≤ nPages)⟩, ?_,
    hbud, fun x => ?_⟩
  · rw [hbud]
    exact ⟨ht, (by omega : t ≤ maxOrder), Nat.dvd_add hdvd (Nat.dvd_refl _),
      (by omega : p + 2 ^ (t - minOrder) + 2 ^ (t - minOrder) ≤ nPages)⟩
  · simp only [hbud, List.countP_cons, List.countP_nil, Covers, pages, hsucc, Nat.pow_succ,
      decide_eq_true_eq]
    split_ifs <;> omega

theorem Valid.buddy_page_of_dvd (hb : b.Valid) (hd : b.parent.pages ∣ b.page) :
    b.buddy.page = b.page + b.pages := by
  have := hb.low
  simp only [buddy, pages, parent_order, show b.order + 1 - minOrder = b.order - minOrder + 1 by
    omega] at hd ⊢
  exact xor_two_pow_of_dvd hd

/-- **Merging.** A valid block below `MAX_ORDER` and its buddy are the two halves of their
parent: the buddy and the parent are valid, and the parent holds the pages of the two, each
once. -/
theorem Valid.merge (hb : b.Valid) (h : b.order < maxOrder) :
    b.parent.Valid ∧ b.buddy.Valid ∧
      ∀ x, [b, b.buddy].countP (·.Covers x) = [b.parent].countP (·.Covers x) := by
  obtain ⟨p, t⟩ := b
  have ht : minOrder ≤ t := hb.low
  have hsucc : t + 1 - minOrder = t - minOrder + 1 := by omega
  obtain ⟨j, hj⟩ : 2 ^ (t - minOrder) ∣ p := hb.aligned
  obtain ⟨i, rfl | rfl⟩ : ∃ i, j = 2 * i ∨ j = 2 * i + 1 := ⟨j / 2, by omega⟩
  · -- the block is the lower half: its parent starts at its page
    have hp : p = 2 ^ (t + 1 - minOrder) * i := by
      rw [hj, hsucc, Nat.pow_succ, Nat.mul_assoc]
    have hdvd : pages ⟨p, t + 1⟩ ∣ p := hp ▸ Nat.dvd_mul_right _ _
    have hpar : parent ⟨p, t⟩ = ⟨p, t + 1⟩ := by
      simp [parent, hb.buddy_page_of_dvd hdvd, pageToAddr_lt_pageToAddr]
    have hP : Valid ⟨p, t + 1⟩ := ⟨(by omega : minOrder ≤ t + 1), h, hdvd, add_le_of_dvd hdvd
      (pages_dvd_nPages h) (by
        have : p + 2 ^ (t - minOrder) ≤ nPages := hb.inside
        have := Nat.two_pow_pos (t - minOrder)
        omega : p < nPages)⟩
    obtain ⟨-, hv, -, hc⟩ := hP.halves ht
    exact ⟨hpar ▸ hP, hv, hpar ▸ hc⟩
  · -- the block is the upper half: its buddy is the lower one
    set q := 2 ^ (t + 1 - minOrder) * i with hq
    have hp : p = q + 2 ^ (t - minOrder) := by
      rw [hj, hq, hsucc, Nat.pow_succ, Nat.mul_add_one, Nat.mul_assoc]
    have hbud : buddy ⟨p, t⟩ = ⟨q, t⟩ := by
      simp only [buddy, pages, hp, hq, hsucc, xor_two_pow_add]
    have hpar : parent ⟨p, t⟩ = ⟨q, t + 1⟩ := by
      simp only [parent, hbud, pageToAddr_lt_pageToAddr]
      simp [hp, Nat.two_pow_pos]
    have hP : Valid ⟨q, t + 1⟩ :=
      ⟨(by omega : minOrder ≤ t + 1), h, Nat.dvd_mul_right _ _, (by
        have : p + 2 ^ (t - minOrder) ≤ nPages := hb.inside
        rw [hsucc, Nat.pow_succ]
        omega : q + 2 ^ (t + 1 - minOrder) ≤ nPages)⟩
    obtain ⟨hv, -, hb', hc⟩ := hP.halves ht
    rw [← hp] at hb'
    rw [hb'] at hc
    refine ⟨hpar ▸ hP, hbud ▸ hv, fun x => ?_⟩
    rw [hbud, hpar, ← hc, (List.Perm.swap _ _ []).countP_eq]

/-- The blocks `buddy_split(req, c, r)` puts on the free lists: for each order `o` from `req` up
to below `c`, the buddy of the block of order `o` at page `r`. -/
def splitBlocks (r req c : Nat) : List Block := (List.range' req (c - req)).map fun o => buddy ⟨r, o⟩

theorem splitBlocks_self (r req : Nat) : splitBlocks r req req = [] := by simp [splitBlocks]

theorem splitBlocks_succ {r req c : Nat} (h : req ≤ c) :
    splitBlocks r req (c + 1) = splitBlocks r req c ++ [buddy ⟨r, c⟩] := by
  rw [splitBlocks, show c + 1 - req = c - req + 1 by omega, List.range'_concat, List.map_append,
    splitBlocks, Nat.one_mul, Nat.add_sub_cancel' h]
  rfl

/-- **Splitting down.** A valid block of order `t` is held, page for page, by its part of order
`req` at the same page together with the buddies `buddy_split` frees on the way down. -/
theorem Valid.split {p req t : Nat} (hB : Valid ⟨p, t⟩) (h12 : minOrder ≤ req) (ht : req ≤ t) :
    (∀ b ∈ (⟨p, req⟩ : Block) :: splitBlocks p req t, b.Valid) ∧
      ∀ x, ((⟨p, req⟩ : Block) :: splitBlocks p req t).countP (·.Covers x) =
        [(⟨p, t⟩ : Block)].countP (·.Covers x) := by
  induction t, ht using Nat.le_induction with
  | base => simpa [splitBlocks_self] using hB
  | succ t ht ih =>
    obtain ⟨hv, hbv, -, hc⟩ := hB.halves (h12.trans ht)
    obtain ⟨ihv, ihc⟩ := ih hv
    rw [splitBlocks_succ ht, ← List.cons_append]
    refine ⟨fun b hb => ?_, fun x => ?_⟩
    · rcases List.mem_append.1 hb with hb | hb
      · exact ihv b hb
      · rw [List.mem_singleton.1 hb]
        exact hbv
    · rw [List.countP_append, ihc x, ← hc x, ← List.countP_append]
      rfl

end Block

/-! ### Tilings -/

/-- Lists of blocks that hold page `x` equally often: if one holds it, so does the other. -/
theorem exists_covers_of_countP_eq {A A' : List Block} {b : Block} {x : Nat}
    (hc : A.countP (·.Covers x) = A'.countP (·.Covers x)) (hb : b ∈ A) (hx : b.Covers x) :
    ∃ b' ∈ A', b'.Covers x := by
  have : 0 < A.countP (·.Covers x) := List.countP_pos_iff.2 ⟨b, hb, by simpa using hx⟩
  rw [hc] at this
  simpa using List.countP_pos_iff.1 this

/-- The blocks of `bs` are valid and hold every page of `g_memory` exactly once. -/
structure Tiles (bs : List Block) : Prop where
  valid : ∀ b ∈ bs, b.Valid
  once : ∀ x < nPages, bs.countP (·.Covers x) = 1

namespace Tiles

variable {bs bs' : List Block} {a b : Block} {x : Nat}

theorem perm (h : Tiles bs) (hp : bs.Perm bs') : Tiles bs' :=
  ⟨fun b hb => h.valid b (hp.mem_iff.2 hb), fun x hx => (hp.countP_eq _).symm.trans (h.once x hx)⟩

/-- Blocks may be exchanged for valid blocks that hold the same pages as often. -/
theorem replace {as as' : List Block} (h : Tiles (as ++ bs)) (hv : ∀ a ∈ as', a.Valid)
    (hc : ∀ x, as'.countP (·.Covers x) = as.countP (·.Covers x)) : Tiles (as' ++ bs) := by
  refine ⟨fun b hb => ?_, fun x hx => ?_⟩
  · rcases List.mem_append.1 hb with hb | hb
    exacts [hv b hb, h.valid b (List.mem_append_right _ hb)]
  · rw [List.countP_append, hc, ← List.countP_append, h.once x hx]

theorem exists_covers (h : Tiles bs) (hx : x < nPages) : ∃ b ∈ bs, b.Covers x := by
  simpa using List.countP_pos_iff.1 (Nat.lt_of_lt_of_eq Nat.zero_lt_one (h.once x hx).symm)

/-- Two blocks at different places of a tiling share no page. -/
theorem not_covers_erase (h : Tiles bs) (ha : a ∈ bs) (hb : b ∈ bs.erase a) (hxa : a.Covers x)
    (hxb : b.Covers x) : False := by
  have h1 := h.once x ((h.valid a ha).lt hxa)
  rw [(List.perm_cons_erase ha).countP_eq, List.countP_cons_of_pos _ _ (by simpa using hxa)] at h1
  have : 0 < (bs.erase a).countP (·.Covers x) := List.countP_pos_iff.2 ⟨b, hb, by simpa using hxb⟩
  omega

theorem eq_of_covers (h : Tiles bs) (ha : a ∈ bs) (hb : b ∈ bs) (hxa : a.Covers x)
    (hxb : b.Covers x) : a = b := by
  by_contra hab
  exact h.not_covers_erase ha ((List.mem_erase_of_ne (Ne.symm hab)).2 hb) hxa hxb

theorem not_covers_append {l₁ l₂ : List Block} (h : Tiles (l₁ ++ l₂)) (ha : a ∈ l₁) (hb : b ∈ l₂)
    (hxa : a.Covers x) (hxb : b.Covers x) : False := by
  have h1 := h.once x ((h.valid a (List.mem_append_left _ ha)).lt hxa)
  have h₁ : 0 < l₁.countP (·.Covers x) := List.countP_pos_iff.2 ⟨a, ha, by simpa using hxa⟩
  have h₂ : 0 < l₂.countP (·.Covers x) := List.countP_pos_iff.2 ⟨b, hb, by simpa using hxb⟩
  rw [List.countP_append] at h1
  omega

/-- No block of a tiling is listed twice. -/
theorem nodup (h : Tiles bs) : bs.Nodup := List.nodup_iff_sublist.2 fun a ha => by
  have h2 := ha.countP_le (·.Covers a.page)
  rw [h.once _ ((h.valid a (ha.subset (by simp))).lt a.covers_page)] at h2
  simp [a.covers_page] at h2

end Tiles

end Buddy
