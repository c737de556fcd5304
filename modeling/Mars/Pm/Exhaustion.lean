import Mars.Pm.ReachDmap

/-!
# Pages for tables

`alloc_phys_page` and `alloc_dmap_page` hand out single pages, and the allocators of translation
tables are built on them. None of the two looks at the null pointer that `alloc_pages` returns when
there is no page, and a table is cleared before its pointer is checked.
-/

namespace Mars.Pm

open Lib Lib.Bits Lib.DList Lib.Ownership Vm Mars.Pm.Block

/-! ### Single pages -/

inductive VmError where
  | outOfMemory

namespace State

def allocPage (s : State) : Nat × State := s.allocPages 0

def allocPhysPage (s : State) : Except VmError Nat × State :=
  let (pageAddr, s') := s.allocPage
  let pa := if s.isDmap then dmapAddrToPhys pageAddr else pageAddr
  (.ok pa, s')

def allocDmapPage (s : State) : Except VmError Nat × State :=
  let (pageAddr, s') := s.allocPage
  let va := if s.isDmap then pageAddr else physAddrToDmap pageAddr
  (.ok va, s')

end State

/-! ### Tables -/

/-- The page of a physical or direct-map pointer, at physical addresses. -/
def physPage (ptr : Nat) : Set Nat :=
  Set.Ico (dmapAddrToPhys ptr) (dmapAddrToPhys ptr + pageSize)

instance (ptr x : Nat) : Decidable (x ∈ physPage ptr) :=
  inferInstanceAs (Decidable (_ ≤ _ ∧ _ < _))

/-- Zeros are written to a table. They are seen at all addresses of the page. -/
def clearTable (m : Mem) (ptr : Nat) : Mem :=
  fun x => if dmapAddrToPhys x ∈ physPage ptr then 0 else m x

inductive TablePanic where
  | noPage
  | nullPointer

/-- What `alloc_table` returns or how it panics, the pointer it has written to, and the state. -/
structure TableAlloc where
  result : Except TablePanic Nat
  cleared : Option Nat
  state : State

/-- The table is written before its pointer is checked. -/
def allocTable : Except VmError Nat × State → TableAlloc
  | (.error _, s) => ⟨.error .noPage, none, s⟩
  | (.ok ptr, s)  =>
    ⟨if ptr = 0 then .error .nullPointer else .ok ptr, some ptr,
      { s with mem := clearTable s.mem ptr }⟩

/-- `KernelPTAllocator::alloc_table` -/
def kernelAllocTable (s : State) : TableAlloc := allocTable s.allocDmapPage

/-- `BootTempAllocator::alloc_table` -/
def bootAllocTable (s : State) : TableAlloc := allocTable s.allocPhysPage

def TableAlloc.written (r : TableAlloc) : Set Nat := { x | ∃ ptr ∈ r.cleared, x ∈ physPage ptr }

/-! ### Free and allocated pages -/

namespace State

/-- The page is in a block of one of the lists. -/
def FreePageAt (s : State) (addr : Nat) : Prop :=
  pageSize ∣ addr ∧ ∃ o < maxOrder, ∃ l, IsList s.mem (s.freeArea o) l ∧
    ∃ x ∈ l, x ≤ addr ∧ addr < x + 2 ^ o * pageSize

/-- The page is in a zone, its meta byte says that it is allocated, and it is in no list. -/
def AllocatedPageAt (s : State) (addr : Nat) : Prop :=
  (∃ zs, ZoneChain s.mem s.zoneHead zs ∧ ∃ z ∈ zs, ∃ i < z.totalPages,
    addr = z.dataBase + i * pageSize ∧ s.mem (z.metaArray + i) &&& freeFlag = 0) ∧
  ¬s.FreePageAt addr

end State

/-- Only free pages are handed out, and an error is returned when there is none. -/
structure ReportsExhaustion (s : State) : Prop where
  phys_ok : ∀ pa, s.allocPhysPage.1 = .ok pa → ∃ addr, s.FreePageAt addr ∧
    s.allocPhysPage.2.AllocatedPageAt addr ∧
    pa = if s.isDmap then dmapAddrToPhys addr else addr
  dmap_ok : ∀ va, s.allocDmapPage.1 = .ok va → ∃ addr, s.FreePageAt addr ∧
    s.allocDmapPage.2.AllocatedPageAt addr ∧
    va = if s.isDmap then addr else physAddrToDmap addr
  phys_error : (¬∃ addr, s.FreePageAt addr) → ∃ e, s.allocPhysPage.1 = .error e
  dmap_error : (¬∃ addr, s.FreePageAt addr) → ∃ e, s.allocDmapPage.1 = .error e
  kernelTable : ∀ x ∈ (kernelAllocTable s).written, ∃ addr, s.FreePageAt addr ∧ x ∈ physPage addr
  bootTable : ∀ x ∈ (bootAllocTable s).written, ∃ addr, s.FreePageAt addr ∧ x ∈ physPage addr

section Layout

variable {s s' : State} {L L' : Layout} {p : Nat}

lemma dmapAddrToPhys_idem (a : Nat) : dmapAddrToPhys (dmapAddrToPhys a) = dmapAddrToPhys a := by
  rw [dmapAddrToPhys_eq, dmapAddrToPhys_eq, Nat.mod_mod]

lemma dmapAddrToPhys_physAddrToDmap (a : Nat) :
    dmapAddrToPhys (physAddrToDmap a) = dmapAddrToPhys a := by
  rw [physAddrToDmap]
  split_ifs
  · rfl
  · rw [dmapAddrToPhys_eq, dmapAddrToPhys_eq, Nat.or_mod_two_pow,
      show dmapStart % 2 ^ 48 = 0 by decide, Nat.or_zero]

lemma State.Inv.freePageAt_iff (hI : s.Inv L) :
    s.FreePageAt (p * pageSize) ↔ ∃ b, L.owner p = some b ∧ b.free = true := by
  constructor
  · rintro ⟨-, o, ho, l, hlist, x, hx, hle, hlt⟩
    rw [hlist.unique (hI.lists o ho)] at hx
    obtain ⟨q, rfl, hown⟩ := (hI.listed o x).1 hx
    rw [← add_mul] at hlt
    refine ⟨_, hI.consistent.eq_of_mem hown (mem_span.2 ⟨?_, ?_⟩), rfl⟩
    · exact Nat.le_of_mul_le_mul_right hle (by decide)
    · exact Nat.lt_of_mul_lt_mul_right hlt
  · rintro ⟨b, hown, hfree⟩
    obtain ⟨z, hz, hfits⟩ := hI.fits p b hown
    obtain ⟨hle, hlt⟩ := mem_span.1 (hI.consistent.mem hown)
    refine ⟨Nat.dvd_mul_left _ _, b.order, hfits.order_lt, _, hI.lists _ hfits.order_lt, b.addr,
      (hI.mem_lists_iff hfree).2 (hI.owner_start hown), Nat.mul_le_mul_right _ hle, ?_⟩
    rw [Block.addr, ← add_mul]
    exact Nat.mul_lt_mul_of_pos_right hlt (by decide)

/-- A page is found if there is one. -/
lemma State.Inv.alloc_eq_none (hI : s.Inv L) : L.alloc 0 = none ↔ ¬∃ addr, s.FreePageAt addr := by
  rw [Layout.alloc_eq_none_iff (by decide)]
  constructor
  · rintro hnil ⟨addr, -, o, ho, l, hlist, x, hx, -⟩
    rw [hlist.unique (hI.lists o ho), hnil o (Nat.zero_le o) ho] at hx
    cases hx
  · intro hnone o _ ho
    cases hlist : L.lists o with
    | nil => rfl
    | cons x l =>
      obtain ⟨q, rfl, hown⟩ := (hI.listed o x).1 (by rw [hlist]; exact List.mem_cons_self)
      exact absurd ⟨_, hI.freePageAt_iff.2 ⟨_, hown, rfl⟩⟩ hnone

/-- The page that is handed out was free and is allocated. -/
lemma State.Inv.allocPage (hI : s.Inv L) (hfull : L.Full) (hfree : ∃ addr, s.FreePageAt addr) :
    s.FreePageAt s.allocPage.1 ∧ s.allocPage.2.AllocatedPageAt s.allocPage.1 := by
  rw [State.allocPage]
  rcases hI.allocPages hfull 0 with ⟨hnone, -⟩ | ⟨p, L', s', -, hs, hal⟩
  · exact absurd hfree (hI.alloc_eq_none.1 hnone)
  · rw [hs]
    obtain ⟨z, hz, hfits⟩ := hal.fits
    have hpage := hfits.hasPage (start_mem_span _)
    have hlive := (hal.live p _ rfl).2 (.inl ⟨start_mem_span _, rfl⟩)
    constructor
    · cases hown : L.owner p with
      | none => exact absurd ⟨⟨z, hz, hpage⟩, hown⟩ (hfull p)
      | some b =>
        exact hI.freePageAt_iff.2 ⟨b, hown, hal.fresh p (start_mem_span _) b hown⟩
    · refine ⟨⟨_, hal.inv.chain, z, by rw [hal.zones]; exact hz, ?_⟩, ?_⟩
      · obtain ⟨i, hi, rfl⟩ := hpage.exists_index
        refine ⟨i, hi, add_mul _ _ _, ?_⟩
        rw [hal.inv.metas z (by rw [hal.zones]; exact hz) i hi _ hlive,
          flag_eq_zero_iff (by dsimp only; decide)]
      · intro hfree'
        obtain ⟨b, hown, hb⟩ := hal.inv.freePageAt_iff.1 hfree'
        rw [hlive] at hown
        cases hown
        cases hb

lemma State.Inv.reports_iff (hI : s.Inv L) (hfull : L.Full) :
    ReportsExhaustion s ↔ ∃ addr, s.FreePageAt addr := by
  constructor
  · intro h
    by_contra hnone
    obtain ⟨e, he⟩ := h.phys_error hnone
    cases he
  · intro hfree
    obtain ⟨hwas, hnow⟩ := hI.allocPage hfull hfree
    refine ⟨?_, ?_, fun hnone => absurd hfree hnone, fun hnone => absurd hfree hnone, ?_, ?_⟩
    · intro pa hpa
      cases hpa
      exact ⟨_, hwas, hnow, rfl⟩
    · intro va hva
      cases hva
      exact ⟨_, hwas, hnow, rfl⟩
    · rintro x ⟨ptr, hptr, hx⟩
      cases hptr
      refine ⟨_, hwas, ?_⟩
      split_ifs at hx
      · exact hx
      · rwa [physPage, dmapAddrToPhys_physAddrToDmap] at hx
    · rintro x ⟨ptr, hptr, hx⟩
      cases hptr
      refine ⟨_, hwas, ?_⟩
      split_ifs at hx
      · rwa [physPage, dmapAddrToPhys_idem] at hx
      · exact hx

end Layout

/-- In every state before or after the transition the pages are free ones and exhaustion is
reported, unless there is no free page. -/
theorem reportsExhaustion_iff {R : List Region} {A : List Allocation} {s : State}
    (h : Reach R A s ∨ ReachDmap R A s) : ReportsExhaustion s ↔ ∃ addr, s.FreePageAt addr := by
  rcases h with h | h
  · obtain ⟨L, hL⟩ := h.exists_layout
    exact hL.inv.reports_iff hL.full
  · obtain ⟨L, hL⟩ := h.exists_layout
    exact hL.inv.reports_iff hL.full

theorem reportsExhaustion_two_pages : ∃ s, Reach [⟨pageSize, 4 * pageSize⟩] [] s ∧
    ReportsExhaustion s := by
  have hrun : ∃ s, (⟨.new, fun _ => 0⟩ : State).addRange true 3 pageSize (4 * pageSize) = .ok s ∧
      (s.allocPages 0).1 = 2 * pageSize := by
    refine ⟨_, rfl, ?_⟩
    decide +kernel
  obtain ⟨s, hs, haddr⟩ := hrun
  have hreach := Reach.addRange (.new _) (by decide) (by simp) hs
  refine ⟨s, hreach, (reportsExhaustion_iff (.inl hreach)).2 ?_⟩
  obtain ⟨L, hL⟩ := hreach.exists_layout
  by_contra hnone
  rcases hL.alloc 0 with ⟨-, hnull⟩ | ⟨p, L', hsome, -⟩
  · rw [hnull] at haddr
    exact absurd haddr (show 0 ≠ 2 * pageSize by decide)
  · rw [hL.inv.alloc_eq_none.2 hnone] at hsome
    cases hsome

/-- After the only page is allocated, the address 0 is returned, and the table is written to the
physical page 0. -/
theorem exhausted_one_page : ∃ s, Reach [⟨pageSize, 3 * pageSize⟩] [⟨2 * pageSize, 0⟩] s ∧
    s.allocPhysPage.1 = .ok 0 ∧ s.allocDmapPage.1 = .ok dmapStart ∧
    (kernelAllocTable s).written = physPage 0 ∧ ¬ReportsExhaustion s := by
  have hrun : ∃ s, (⟨.new, fun _ => 0⟩ : State).addRange true 3 pageSize (3 * pageSize) = .ok s ∧
      (s.allocPages 0).1 = 2 * pageSize ∧ ((s.allocPages 0).2.allocPages 0).1 = 0 ∧
      (s.allocPages 0).2.isDmap = false := by
    refine ⟨_, rfl, ?_⟩
    decide +kernel
  obtain ⟨s, hs, haddr, hnull, hdmap⟩ := hrun
  have hreach := Reach.alloc 0 (Reach.addRange (.new _) (by decide) (by simp) hs)
  rw [haddr] at hreach
  have hva : (s.allocPages 0).2.allocDmapPage.1 = .ok dmapStart := by
    rw [State.allocDmapPage, State.allocPage]
    simp only [hnull, hdmap]
    rfl
  have hpa : (s.allocPages 0).2.allocPhysPage.1 = .ok 0 := by
    rw [State.allocPhysPage, State.allocPage]
    simp only [hnull, hdmap]
    rfl
  refine ⟨_, hreach, hpa, hva, ?_, fun hreports => ?_⟩
  · have hcleared : (kernelAllocTable (s.allocPages 0).2).cleared = some dmapStart := by
      rw [kernelAllocTable]
      generalize (s.allocPages 0).2.allocDmapPage = page at hva
      obtain ⟨result, t⟩ := page
      cases hva
      rfl
    have hpage : physPage dmapStart = physPage 0 := by
      rw [physPage, physPage, show dmapAddrToPhys dmapStart = dmapAddrToPhys 0 by decide]
    rw [TableAlloc.written, hcleared, ← hpage]
    simp
  · obtain ⟨L, hL⟩ := hreach.exists_layout
    obtain ⟨addr, hfree, -, hzero⟩ := hreports.phys_ok 0 hpa
    rw [hdmap, if_neg Bool.false_ne_true] at hzero
    subst hzero
    rw [← zero_mul pageSize] at hfree
    obtain ⟨b, hown, -⟩ := hL.inv.freePageAt_iff.1 hfree
    obtain ⟨z, hz, hfits⟩ := hL.inv.fits 0 b hown
    have hbounds := hL.inv.page_bounds hz (hfits.hasPage (hL.inv.consistent.mem hown))
    exact lt_irrefl 0 hbounds.1

end Mars.Pm
