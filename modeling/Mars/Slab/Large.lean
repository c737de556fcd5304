import Mars.Slab.Basic

/-!
# Large and over-aligned blocks

A block of more than 2048 bytes, or with such an alignment, is made of whole pages. The page count
is computed without an overflow for every layout, the block and the hidden word before it are in the
pages, and the address of the pages is found again when the block is freed.
-/

namespace Mars.Slab

open Lib Lib.Bits Lib.Mem Vm

/-! ### Arithmetic -/

-- The results are written with `pure`, so that a bind after them is rewritten by `pure_bind`.
lemma checkedAdd_ok {a b : Nat} (h : a + b < 2 ^ 64) : checkedAdd a b = pure (a + b) := if_pos h

lemma alignUp_spec {addr k : Nat} (h : addr + 2 ^ k < 2 ^ 64) :
    ∃ r, alignUp addr (2 ^ k) = pure r ∧ addr ≤ r ∧ r < addr + 2 ^ k ∧ 2 ^ k ∣ r := by
  have hpos := Nat.two_pow_pos k
  refine ⟨(addr + 2 ^ k - 1) / 2 ^ k * 2 ^ k, ?_, ?_, ?_, Nat.dvd_mul_left _ _⟩
  · rw [alignUp, checkedAdd_ok h, ← and_complement_mask k (by omega)]
    rfl
  · have hmod := Nat.mod_lt (addr + 2 ^ k - 1) hpos
    have hdiv := Nat.div_add_mod' (addr + 2 ^ k - 1) (2 ^ k)
    omega
  · have hle := Nat.div_mul_le_self (addr + 2 ^ k - 1) (2 ^ k)
    omega

lemma orderOf_spec {n : Nat} (h : n ≤ 2 ^ 50) : ∃ o, orderOf n = pure o ∧ n ≤ 2 ^ o := by
  have hclog := Nat.clog_le_of_le_pow h
  have hlt : 2 ^ Nat.clog 2 n < 2 ^ 64 := Nat.pow_lt_pow_right Nat.one_lt_two (by omega)
  refine ⟨Nat.clog 2 n, ?_, Nat.le_pow_clog Nat.one_lt_two n⟩
  rw [orderOf, nextPowerOfTwo, if_pos hlt]
  exact congrArg Except.ok (trailingZeros_two_pow (by omega))

lemma pageOrder_spec {n : Nat} (h : n ≤ 2 ^ 63 + 8) :
    ∃ o, pageOrder n = pure o ∧ n ≤ 2 ^ o * pageSize := by
  have hsum : checkedAdd n pageSize = pure (n + pageSize) := by
    refine checkedAdd_ok ?_
    rw [Pm.pageSize_eq]
    omega
  obtain ⟨o, ho, hle⟩ : ∃ o, orderOf ((n + pageSize - 1) / pageSize) = pure o ∧
      (n + pageSize - 1) / pageSize ≤ 2 ^ o := by
    refine orderOf_spec ?_
    rw [Pm.pageSize_eq]
    omega
  refine ⟨o, ?_, le_trans ?_ (Nat.mul_le_mul_right pageSize hle)⟩
  · rw [pageOrder, hsum, pure_bind, ho]
  · rw [Pm.pageSize_eq]
    omega

lemma unusedOrder_spec {n : Nat} (h : n ≤ 2 ^ 63) : ∃ o, SlabAllocator.unusedOrder n = pure o := by
  obtain ⟨req, hreq, -, hlt, -⟩ : ∃ r, alignUp n (2 ^ 14) = pure r ∧ n ≤ r ∧ r < n + 2 ^ 14 ∧
      2 ^ 14 ∣ r := alignUp_spec (by omega)
  obtain ⟨o, ho, -⟩ : ∃ o, orderOf (req / pageSize) = pure o ∧ req / pageSize ≤ 2 ^ o := by
    refine orderOf_spec ?_
    rw [Pm.pageSize_eq]
    omega
  have hreq' : alignUp n pageSize = pure req := hreq
  refine ⟨o, ?_⟩
  rw [SlabAllocator.unusedOrder, hreq', pure_bind, ho]

lemma sizeClassIndex_eq_none {n : Nat} : sizeClassIndex n = none ↔ 2048 < n := by
  simp only [sizeClassIndex, List.find?_eq_none, List.mem_range, decide_eq_true_eq, not_le]
  constructor
  · intro h
    exact h 8 (by decide)
  · intro h i hi
    refine lt_of_le_of_lt ?_ h
    have hi := Nat.add_le_add_right (Nat.le_of_lt_succ hi) 3
    exact Nat.pow_le_pow_right Nat.two_pos hi

lemma Layout.align_dvd (l : Layout) (h : l.align ≤ pageSize) : l.align ∣ pageSize := by
  obtain ⟨k, hk⟩ := l.isPowerOfTwo
  rw [hk, pageSize] at h ⊢
  exact Nat.pow_dvd_pow 2 ((Nat.pow_le_pow_iff_right Nat.one_lt_two).1 h)

/-! ### The pages -/

/-- What `alloc_pages` returns is the address of a page, and the block ends in the address space. -/
lemma allocPages_spec {R : List Pm.Region} {A : List Pm.Allocation} {s : Pm.State}
    (h : Pm.Reach R A s ∨ Pm.ReachDmap R A s) (order : Nat) :
    (s.allocPages order).1 = 0 ∨ pageSize ∣ (s.allocPages order).1 ∧
      (s.allocPages order).1 + 2 ^ order * pageSize ≤ 2 ^ 64 := by
  obtain ⟨L, hI, hfull⟩ : ∃ L, s.Inv L ∧ L.Full := by
    rcases h with h | h
    · obtain ⟨L, hL⟩ := h.exists_layout
      exact ⟨L, hL.inv, hL.full⟩
    · obtain ⟨L, hL⟩ := h.exists_layout
      exact ⟨L, hL.inv, hL.full⟩
  rcases hI.allocPages hfull order with ⟨-, hs⟩ | ⟨p, L', s', -, hs, hal⟩
  · exact .inl (by rw [hs])
  · obtain ⟨z, hz, hfits⟩ := hal.fits
    rw [hs]
    refine .inr ⟨Nat.dvd_mul_left _ _, ?_⟩
    calc p * pageSize + 2 ^ order * pageSize
        = (p + 2 ^ order) * pageSize := (add_mul _ _ _).symm
      _ ≤ z.stop := Nat.mul_le_mul_right _ hfits.le_stop
      _ ≤ 2 ^ 64 := (hI.wf z hz).le

namespace SlabAllocator

variable {s s' : SlabAllocator} {l : Layout} {R : List Pm.Region} {A : List Pm.Allocation}

/-- The block at `p` is in the pages from `base` on, which were taken from the page allocator, and
will be freed with them. -/
structure Placed (s s' : SlabAllocator) (l : Layout) (p base order : Nat) : Prop where
  /-- But for the word before the block, the pages are as `alloc_pages` left them. -/
  allocPages : ∃ pages, s.pages.allocPages order = (base, pages) ∧ s'.pages =
    if l.align ≤ pageSize then pages else { pages with mem := pages.mem.setWord (p - 8) base }
  ne_zero : base ≠ 0
  aligned : l.align ∣ p
  base_le : base ≤ p
  le_stop : p + l.size ≤ base + 2 ^ order * pageSize
  /-- The word before the block is in the pages too. -/
  hidden : pageSize < l.align → base + 8 ≤ p ∧ s'.mem.word (p - 8) = base
  /-- The word being there, `dealloc` gives the address of the pages to `free_pages`. -/
  dealloc : ∀ (debug : Bool) (fuel : Nat) (t : SlabAllocator),
    (pageSize < l.align → Set.EqOn s'.mem t.mem (wordBytes (p - 8))) →
      t.freeImpl debug fuel p l =
        match t.pages.freePages debug fuel base with
        | .error e  => .error (.pages e)
        | .ok pages =>
          .ok { t with pages, usedBytes := (t.usedBytes + (2 ^ 64 - l.size)) % 2 ^ 64 }

lemma freeImpl_of_large (hlarge : 2048 < max l.size l.align) {p : Nat} (hp : p ≠ 0)
    (debug : Bool) (fuel : Nat) (t : SlabAllocator) : t.freeImpl debug fuel p l =
      match t.pages.freePages debug fuel (if l.align ≤ pageSize then p else t.mem.word (p - 8)) with
      | .error e  => .error (.pages e)
      | .ok pages =>
        .ok { t with pages, usedBytes := (t.usedBytes + (2 ^ 64 - l.size)) % 2 ^ 64 } := by
  rw [freeImpl, if_neg hp, sizeClassIndex_eq_none.2 hlarge]
  by_cases halign : l.align ≤ pageSize
  · simp only [freeLarge, if_pos halign, freePages]
    cases t.pages.freePages debug fuel p <;> rfl
  · simp only [freeLarge, if_neg halign, freePages]
    cases t.pages.freePages debug fuel (t.mem.word (p - 8)) <;> rfl

lemma allocLarge_of_le (halign : l.align ≤ pageSize) :
    ∃ o, max l.size l.align ≤ 2 ^ o * pageSize ∧ s.allocLarge l =
      .ok ((s.pages.allocPages o).1, { s with pages := (s.pages.allocPages o).2 }) := by
  have hle := l.le
  obtain ⟨o', ho'⟩ := unusedOrder_spec (n := max l.size l.align) (by omega)
  obtain ⟨o, ho, hpages⟩ := pageOrder_spec (n := max l.size l.align) (by omega)
  refine ⟨o, hpages, ?_⟩
  rw [allocLarge, ho', pure_bind, if_pos halign, ho, pure_bind]

lemma total_le (l : Layout) (hsize : 0 < l.size) : max l.size l.align + l.align ≤ 2 ^ 63 := by
  have hle := l.le
  obtain ⟨k, hk⟩ := l.isPowerOfTwo
  have hlt : 2 ^ k < 2 ^ 63 := by omega
  have hk' : k ≤ 62 := Nat.le_of_lt_succ ((Nat.pow_lt_pow_iff_right Nat.one_lt_two).1 hlt)
  have hpow := Nat.pow_le_pow_right Nat.two_pos hk'
  omega

lemma allocAligned_spec {size align : Nat} (hpow : ∃ k, align = 2 ^ k) (hsize : 0 < size)
    (hle : size + align ≤ 2 ^ 63) (h : Pm.Reach R A s.pages ∨ Pm.ReachDmap R A s.pages) :
    ∃ p s' base pages o, s.allocAligned size align = .ok (p, s') ∧
      s.pages.allocPages o = (base, pages) ∧
      (base = 0 ∧ p = 0 ∧ s'.pages = pages ∨ base ≠ 0 ∧ align ∣ p ∧ base + 8 ≤ p ∧
        p + size ≤ base + 2 ^ o * pageSize ∧
        s'.pages = { pages with mem := pages.mem.setWord (p - 8) base }) := by
  obtain ⟨k, rfl⟩ := hpow
  obtain ⟨o, ho, hpages⟩ := pageOrder_spec (n := size + 2 ^ k + 8) (by omega)
  rw [allocAligned, checkedAdd_ok (show size + 2 ^ k < 2 ^ 64 by omega), pure_bind,
    checkedAdd_ok (show size + 2 ^ k + 8 < 2 ^ 64 by omega), pure_bind, ho, pure_bind]
  have hspec := allocPages_spec h o
  rcases hbase : s.pages.allocPages o with ⟨base, pages⟩
  rw [hbase] at hspec
  dsimp only
  by_cases hnull : base = 0
  · rw [if_pos hnull]
    exact ⟨_, _, base, pages, o, rfl, hbase, .inl ⟨hnull, rfl, rfl⟩⟩
  obtain ⟨-, hstop⟩ := hspec.resolve_left hnull
  rw [if_neg hnull]
  obtain ⟨p, hp, hlow, hhigh, hmul⟩ : ∃ r, alignUp (base + 8) (2 ^ k) = pure r ∧
      base + 8 ≤ r ∧ r < base + 8 + 2 ^ k ∧ 2 ^ k ∣ r := by
    refine alignUp_spec ?_
    omega
  rw [checkedAdd_ok (show base + 8 < 2 ^ 64 by omega), pure_bind, hp, pure_bind]
  exact ⟨p, _, base, pages, o, rfl, hbase, .inr ⟨hnull, hmul, hlow, by omega, rfl⟩⟩

lemma allocImpl_of_large (hlarge : 2048 < max l.size l.align) {p : Nat}
    (h : s.allocLarge l = .ok (p, s')) :
    ∃ used, s.allocImpl l = .ok (p, { s' with usedBytes := used }) := by
  rw [allocImpl, sizeClassIndex_eq_none.2 hlarge]
  simp only [h, bind, Except.bind]
  split_ifs
  · exact ⟨_, rfl⟩
  · exact ⟨s'.usedBytes, rfl⟩

/-- For every layout of a large block, `alloc` returns null, `alloc_pages` having returned null, or
a block in pages of its own. -/
theorem allocImpl_large (hsize : 0 < l.size) (hlarge : 2048 < max l.size l.align)
    (h : Pm.Reach R A s.pages ∨ Pm.ReachDmap R A s.pages) :
    ∃ p s' order, s.allocImpl l = .ok (p, s') ∧
      (p = 0 ∧ s.pages.allocPages order = (0, s'.pages) ∨ ∃ base, Placed s s' l p base order) := by
  by_cases halign : l.align ≤ pageSize
  · obtain ⟨o, hpages, halloc⟩ := allocLarge_of_le (s := s) halign
    obtain ⟨used, hs⟩ := allocImpl_of_large hlarge halloc
    refine ⟨_, _, o, hs, ?_⟩
    by_cases hnull : (s.pages.allocPages o).1 = 0
    · exact .inl ⟨hnull, Prod.ext hnull rfl⟩
    obtain ⟨hdvd, -⟩ := (allocPages_spec h o).resolve_left hnull
    refine .inr ⟨(s.pages.allocPages o).1, ⟨_, rfl, (if_pos halign).symm⟩, hnull, ?_,
      Nat.le_refl _, ?_, ?_, ?_⟩
    · exact Nat.dvd_trans (l.align_dvd halign) hdvd
    · exact Nat.add_le_add_left ((Nat.le_max_left _ _).trans hpages) _
    · exact fun hlt => absurd halign (not_le.2 hlt)
    · intro debug fuel t _
      rw [freeImpl_of_large hlarge hnull, if_pos halign]
  · obtain ⟨o', ho'⟩ := unusedOrder_spec (n := max l.size l.align)
      ((Nat.le_add_right _ _).trans (total_le l hsize))
    have hlarge' : s.allocLarge l = s.allocAligned (max l.size l.align) l.align := by
      rw [allocLarge, ho', pure_bind, if_neg halign]
    obtain ⟨p, t, base, pages, o, hp, halloc, hplace⟩ := allocAligned_spec l.isPowerOfTwo
      (hsize.trans_le (Nat.le_max_left _ _)) (total_le l hsize) h
    obtain ⟨used, hs⟩ := allocImpl_of_large hlarge (hlarge'.trans hp)
    refine ⟨_, _, o, hs, ?_⟩
    rcases hplace with ⟨rfl, hnull, rfl⟩ | ⟨hne, hmul, hlow, hstop, hpages⟩
    · exact .inl ⟨hnull, halloc⟩
    have hword : t.mem.word (p - 8) = base := by
      have hlt := (allocPages_spec h o).resolve_left (by rw [halloc]; exact hne)
      rw [mem, hpages]
      exact word_setWord (by rw [halloc] at hlt; omega)
    refine .inr ⟨base, ⟨pages, halloc, hpages.trans (if_neg halign).symm⟩, hne, hmul, by omega, ?_,
      fun _ => ⟨hlow, hword⟩, ?_⟩
    · exact (Nat.add_le_add_left (Nat.le_max_left _ _) p).trans hstop
    · intro debug fuel u heq
      have hword' : u.mem.word (p - 8) = base :=
        (word_congr (heq (Nat.lt_of_not_le halign))).symm.trans hword
      rw [freeImpl_of_large hlarge (by omega), if_neg halign, hword']

theorem allocImpl_two_pages : ∃ (l : Layout) (s : SlabAllocator),
    l.size = 24576 ∧ l.align = 32768 ∧ Pm.Reach [⟨pageSize, 10 * pageSize⟩] [] s.pages ∧
    ∃ s' base order, s.allocImpl l = .ok (65536, s') ∧ Placed s s' l 65536 base order := by
  let l : Layout := ⟨24576, 32768, ⟨15, rfl⟩, by decide⟩
  have hrun : ∃ t, (⟨.new, fun _ => 0⟩ : Pm.State).addRange true 3 pageSize (10 * pageSize) =
      .ok t ∧ ((new t).allocImpl l).toOption.map Prod.fst = some 65536 := by
    refine ⟨_, rfl, ?_⟩
    decide +kernel
  obtain ⟨t, ht, hp⟩ := hrun
  have hreach := Pm.Reach.addRange (.new _) (by decide) (by simp) ht
  obtain ⟨p, s', order, hs, hplace⟩ := allocImpl_large (s := new t) (l := l) (by decide) (by decide)
    (.inl hreach)
  rw [hs] at hp
  obtain rfl : p = 65536 := Option.some.inj hp
  obtain ⟨base, hplaced⟩ := hplace.resolve_left (by simp)
  exact ⟨l, new t, rfl, rfl, hreach, s', base, order, hs, hplaced⟩

end SlabAllocator

end Mars.Slab
