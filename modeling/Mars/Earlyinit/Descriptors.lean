import Mars.Pm.Bounds
import Mars.Pm.Exhaustion

/-!
# Descriptors of pages

Embedding of `create_page_descriptors` of `earlyinit/mem.rs` and of `PageDescriptors` of
`klib/src/vm/user/mod.rs`. There is one descriptor for each page from the least to the greatest
address of the page allocator, once all memory has been given to it. A descriptor is its index in
the slice.
-/

namespace Mars.Earlyinit

open Paging (pageShift)
open Pm Vm

/-! ### The code -/

inductive DescriptorPanic where
  | allocator (e : Panic)
  /-- `max - min`, in a debug build. -/
  | overflow
  | doubleInit
  | uninitialized
  | noDescriptor
  | indexOutOfBounds

structure DescriptorSlice where
  len : Nat
  start : Nat
  stop : Nat

/-- `create_page_descriptors`, if there is memory for the slice. -/
def createPageDescriptors (debug : Bool) (fuel : Nat) (s : State) :
    Except DescriptorPanic DescriptorSlice :=
  match s.maxAddress debug fuel with
  | .error e       => .error (.allocator e)
  | .ok maxAddress =>
    let min := dmapAddrToPhys s.minAddress
    let max := dmapAddrToPhys maxAddress
    if debug && max < min then .error .overflow
    else
      let size := (max + 2 ^ 64 - min) % 2 ^ 64
      .ok { len := size / pageSize, start := min, stop := max }

abbrev PageDescriptors := Option DescriptorSlice

namespace PageDescriptors

def new : PageDescriptors := none

def init (p : PageDescriptors) (descriptors : DescriptorSlice) :
    Except DescriptorPanic PageDescriptors :=
  if p.isNone then .ok (some descriptors) else .error .doubleInit

def getPageDescriptor (p : PageDescriptors) (pa : Nat) : Except DescriptorPanic Nat :=
  match p with
  | none       => .error .uninitialized
  | some descs =>
    if ¬ (descs.start ≤ pa ∧ pa < descs.stop) then .error .noDescriptor
    else
      let pfn := (pa - descs.start) >>> pageShift
      if pfn < descs.len then .ok pfn else .error .indexOutOfBounds

end PageDescriptors

/-- The two lines of `uefi_arm64_bootstrap`. -/
def installPageDescriptors (debug : Bool) (fuel : Nat) (s : State) :
    Except DescriptorPanic PageDescriptors := do
  let descriptors ← createPageDescriptors debug fuel s
  PageDescriptors.new.init descriptors

/-! ### The pages that can be allocated -/

/-- A run from the state `s₀` with the blocks `A₀` on, in which no more memory is added. -/
inductive Serves (R : List Region) (A₀ : List Allocation) (s₀ : State) :
    List Allocation → State → Prop
  | start : Serves R A₀ s₀ A₀ s₀
  | alloc {A : List Allocation} {s : State} (order : Nat) (h : Serves R A₀ s₀ A s) :
      Serves R A₀ s₀ (granted (s.allocPages order).1 order A) (s.allocPages order).2
  | free {A : List Allocation} {s s' : State} {debug : Bool} {fuel : Nat} {a : Allocation}
      (h : Serves R A₀ s₀ A s) (ha : a ∈ A) (hs : s.freePages debug fuel a.addr = .ok s') :
      Serves R A₀ s₀ (A.erase a) s'
  | write {A : List Allocation} {s : State} {m : Lib.Mem} (h : Serves R A₀ s₀ A s)
      (hm : ∀ x, s.mem x ≠ m x → (∃ a ∈ A, x ∈ a.bytes) ∨
        ∀ r ∈ R, dmapAddrToPhys x < r.start ∨ r.stop ≤ dmapAddrToPhys x) :
      Serves R A₀ s₀ A { s with mem := m }

/-- The page is in a block that `alloc_pages` returns at some time. -/
def Returns (R : List Region) (A₀ : List Allocation) (s₀ : State) (page : Nat) : Prop :=
  ∃ A s order k, Serves R A₀ s₀ A s ∧ (s.allocPages order).1 ≠ 0 ∧ k < 2 ^ order ∧
    page = (s.allocPages order).1 + k * pageSize

/-- Every page that can be allocated has its own descriptor. -/
structure Describes (R : List Region) (A : List Allocation) (s : State) (p : PageDescriptors) :
    Prop where
  found : ∀ page, Returns R A s page → ∃ i, p.getPageDescriptor (dmapAddrToPhys page) = .ok i
  distinct : ∀ page page' i, Returns R A s page → Returns R A s page' →
    p.getPageDescriptor (dmapAddrToPhys page) = .ok i →
    p.getPageDescriptor (dmapAddrToPhys page') = .ok i → page = page'

section

variable {R : List Region} {A A₀ : List Allocation} {s s₀ : State} {L : Layout} {z : Zone}
  {debug : Bool} {fuel page : Nat}

lemma Serves.exists_spans (h : Serves R A₀ s₀ A s) (hL : Spans R A₀ s₀ L) :
    ∃ L', L'.zones = L.zones ∧ Spans R A s L' := by
  induction h with
  | start => exact ⟨L, rfl, hL⟩
  | alloc order _ ih =>
    obtain ⟨L₁, hzones, hL₁⟩ := ih
    obtain ⟨L₂, hzones', hL₂⟩ := hL₁.alloc order
    exact ⟨L₂, hzones'.trans hzones, hL₂⟩
  | free _ ha hs ih =>
    obtain ⟨L₁, hzones, hL₁⟩ := ih
    obtain ⟨L₂, hzones', hL₂⟩ := hL₁.free ha hs
    exact ⟨L₂, hzones'.trans hzones, hL₂⟩
  | write _ hm ih =>
    obtain ⟨L₁, hzones, hL₁⟩ := ih
    exact ⟨L₁, hzones, hL₁.write hm⟩

lemma Returns.exists_zone (h : Returns R A₀ s₀ page) (hL : Spans R A₀ s₀ L) :
    ∃ z ∈ L.zones, ∃ p, z.HasPage p ∧ page = p * pageSize := by
  obtain ⟨A, s, order, k, hserves, hne, hk, rfl⟩ := h
  obtain ⟨L', hzones, hL'⟩ := hserves.exists_spans hL
  rcases hL'.managed.inv.allocPages hL'.managed.full order with ⟨-, hs⟩ | ⟨p, L₂, s₂, -, hs, hal⟩
  · rw [hs] at hne
    exact absurd rfl hne
  · obtain ⟨z, hz, hfits⟩ := hal.fits
    rw [hzones] at hz
    refine ⟨z, hz, p + k, hfits.hasPage (Block.mem_span.2 ⟨Nat.le_add_right _ _, ?_⟩), ?_⟩
    · exact Nat.add_lt_add_left hk p
    · rw [hs, add_mul]

/-! ### No zone at the end -/

lemma createPageDescriptors_eq {min max : Nat} (hmin : s.minAddress = min + dmapStart)
    (hmax : s.maxAddress debug fuel = .ok (max + dmapStart)) (hlt : max < 2 ^ 48)
    (hle : min ≤ max) :
    createPageDescriptors debug fuel s = .ok ⟨(max - min) / pageSize, min, max⟩ := by
  have hmin' : dmapAddrToPhys s.minAddress = min := by
    rw [hmin, dmapAddrToPhys_add (by omega)]
  have hsize : (max + 2 ^ 64 - min) % 2 ^ 64 = max - min := by
    omega
  rw [createPageDescriptors, hmax]
  dsimp only
  rw [hmin', dmapAddrToPhys_add hlt, if_neg (by simpa using fun _ => hle), hsize]

lemma getPageDescriptor_eq {len start stop pa : Nat} (hle : start ≤ pa) (hlt : pa < stop)
    (hlen : (pa - start) / pageSize < len) :
    PageDescriptors.getPageDescriptor (some ⟨len, start, stop⟩) pa =
      .ok ((pa - start) / pageSize) := by
  have hshift : (pa - start) >>> pageShift = (pa - start) / pageSize :=
    Nat.shiftRight_eq_div_pow _ _
  rw [PageDescriptors.getPageDescriptor]
  rw [if_neg (not_not.2 ⟨hle, hlt⟩), hshift, if_pos hlen]

/-- Without a zone at the end of the address space, all pages are between the bounds. -/
lemma exists_bounds (debug : Bool) (h : Spans R A s L) (hne : L.zones ≠ [])
    (hstop : ∀ z ∈ L.zones, z.stop < 2 ^ 64) (hfuel : R.length < fuel) :
    ∃ min max, s.minAddress = min + dmapStart ∧
      s.maxAddress debug fuel = .ok (max + dmapStart) ∧ max < 2 ^ 48 ∧
      ∀ z ∈ L.zones, min + dmapStart ≤ z.dataBase ∧ z.stop ≤ max + dmapStart := by
  obtain ⟨max, hmax, hle, hattained⟩ := h.maxAddress
    (show State.EndsFit debug L.zones from fun _ => hstop) hfuel
  obtain ⟨⟨y, hy, hmin⟩, hlowest⟩ := h.lowest.resolve_left fun hnil => hne hnil.1
  have hle' : ∀ z ∈ L.zones, z.stop ≤ max := by
    intro z hz
    have hz' := hle z hz
    rwa [Nat.mod_eq_of_lt (hstop z hz)] at hz'
  have hlt : max < 2 ^ 64 := by
    rcases hattained with rfl | ⟨z, -, rfl⟩
    · decide
    · exact Nat.mod_lt _ (by decide)
  have hdmap := h.inDmap y hy
  have hystop := hle' y hy
  have hydata := y.dataBase_le_stop
  obtain ⟨min', hmin'⟩ := Nat.exists_eq_add_of_le' (hmin ▸ hdmap)
  obtain ⟨max', rfl⟩ := Nat.exists_eq_add_of_le' (hdmap.trans (hydata.trans hystop))
  refine ⟨min', max', hmin', hmax, ?_, fun z hz => ⟨?_, hle' z hz⟩⟩
  · rw [dmapStart_eq] at hlt
    omega
  · rw [← hmin']
    exact hlowest z hz

lemma describes_of_stop_lt (h : Spans R A s L) (hne : L.zones ≠ [])
    (hstop : ∀ z ∈ L.zones, z.stop < 2 ^ 64) (hfuel : R.length < fuel) :
    ∃ p, installPageDescriptors debug fuel s = .ok p ∧ Describes R A s p := by
  obtain ⟨min, max, hmin, hmax, hlt, hbounds⟩ :=
    exists_bounds debug h hne hstop hfuel
  obtain ⟨y, hy⟩ := List.exists_mem_of_ne_nil _ hne
  have hle : min ≤ max := by
    have hbounds := hbounds y hy
    have hdata := y.dataBase_le_stop
    omega
  have hcreate : createPageDescriptors debug fuel s = _ :=
    createPageDescriptors_eq hmin hmax hlt hle
  refine ⟨some ⟨(max - min) / pageSize, min, max⟩, ?_, ?_⟩
  · rw [installPageDescriptors, hcreate]
    rfl
  -- the descriptor of a page is the number of pages between the least address and the page
  have hget : ∀ page, Returns R A s page → pageSize ∣ page ∧ ∃ pa, page = pa + dmapStart ∧
      min ≤ pa ∧ PageDescriptors.getPageDescriptor (some ⟨(max - min) / pageSize, min, max⟩)
        (dmapAddrToPhys page) = .ok ((pa - min) / pageSize) := by
    intro page hpage
    obtain ⟨z, hz, q, ⟨hfirst, hlast⟩, rfl⟩ := hpage.exists_zone h
    obtain ⟨hdata, hend⟩ := hbounds z hz
    rw [Zone.dataBase, pageSize_eq] at hdata
    rw [Zone.stop, pageSize_eq] at hend
    obtain ⟨pa, hpa⟩ := Nat.exists_eq_add_of_le' (show dmapStart ≤ q * pageSize by
      rw [pageSize_eq]
      omega)
    have hq := hpa
    rw [pageSize_eq] at hq
    refine ⟨Nat.dvd_mul_left _ _, pa, hpa, by omega, ?_⟩
    rw [hpa, dmapAddrToPhys_add (by omega)]
    refine getPageDescriptor_eq (by omega) (by omega) ?_
    rw [pageSize_eq]
    omega
  refine ⟨fun page hpage => ?_, fun page page' i hpage hpage' hi hi' => ?_⟩
  · obtain ⟨-, pa, -, -, hpa⟩ := hget page hpage
    exact ⟨_, hpa⟩
  · obtain ⟨⟨q, hq⟩, pa, hpa, hmin, hok⟩ := hget page hpage
    obtain ⟨⟨q', hq'⟩, pa', hpa', hmin', hok'⟩ := hget page' hpage'
    rw [hok, Except.ok.injEq] at hi
    rw [hok', Except.ok.injEq] at hi'
    rw [pageSize_eq] at *
    omega

/-! ### A zone at the end -/

/-- The pages of a zone at the end of the address space are behind the range. -/
lemma getPageDescriptor_of_end (h : Spans R A s L) (hz : z ∈ L.zones) (hstop : z.stop = 2 ^ 64)
    (hfuel : R.length < fuel) {p : PageDescriptors}
    (hp : installPageDescriptors debug fuel s = .ok p) {q : Nat} (hq : z.HasPage q) :
    p.getPageDescriptor (dmapAddrToPhys (q * pageSize)) = .error .noDescriptor := by
  obtain ⟨max, hmax, -, hattained⟩ := h.maxAddress (.release _) hfuel
  have hpage : z.dataBase ≤ q * pageSize ∧ q * pageSize < 2 ^ 64 := by
    rw [← hstop]
    exact ⟨Nat.mul_le_mul_right _ hq.1, Nat.mul_lt_mul_of_pos_right hq.2 (by decide)⟩
  have hmax' : dmapAddrToPhys max ≤ dmapAddrToPhys (q * pageSize) := by
    have hdmap := h.inDmap z hz
    rcases hattained with rfl | ⟨z', hz', rfl⟩
    · exact Nat.zero_le _
    by_cases hne : z' = z
    · rw [hne, hstop, Nat.mod_self]
      exact Nat.zero_le _
    · have hle := h.stop_le_dataBase hz hstop hz' hne
      have hdmap' := (h.inDmap z' hz').trans z'.dataBase_le_stop
      rw [dmapAddrToPhys_eq, dmapAddrToPhys_eq]
      rw [dmapStart_eq] at hdmap hdmap'
      omega
  rw [installPageDescriptors, createPageDescriptors] at hp
  rcases State.maxAddress_or debug fuel s with hover | heq
  · rw [hover] at hp
    cases hp
  rw [heq, hmax] at hp
  dsimp only at hp
  split_ifs at hp
  · cases hp
  · cases hp
    rw [PageDescriptors.getPageDescriptor]
    rw [if_pos fun hin => not_lt.2 hmax' hin.2]

/-- A page that is never returned stays free, and then single pages can be allocated without
end. -/
lemma exists_serves_length (h : Spans R [] s L) (hz : z ∈ L.zones) {q : Nat} (hq : z.HasPage q)
    (hnever : ∀ A t, Serves R [] s A t → (t.allocPages 0).1 ≠ q * pageSize) (n : Nat) :
    ∃ A t, Serves R [] s A t ∧ A.length = n ∧ ∀ a ∈ A, a.order = 0 ∧ a.addr ≠ q * pageSize := by
  induction n with
  | zero => exact ⟨[], s, .start, rfl, by simp⟩
  | succ n ih =>
    obtain ⟨A, t, hserves, hlen, hA⟩ := ih
    obtain ⟨L', hzones, hL'⟩ := hserves.exists_spans h
    have hinv := hL'.managed.inv
    rw [← hzones] at hz
    have hfree : ∃ addr, t.FreePageAt addr := by
      cases hown : L'.owner q with
      | none => exact absurd ⟨⟨z, hz, hq⟩, hown⟩ (hL'.managed.full q)
      | some b =>
        refine ⟨_, hinv.freePageAt_iff.2 ⟨b, hown, ?_⟩⟩
        by_contra hfree
        obtain ⟨start, order, free⟩ := b
        obtain rfl : free = false := by simpa using hfree
        have hmem : ⟨start * pageSize, order⟩ ∈ A :=
          (hL'.managed.records.live _).2 ⟨start, rfl, hinv.owner_start hown⟩
        obtain ⟨rfl, haddr⟩ := hA _ hmem
        obtain ⟨hle, hlt⟩ := Block.mem_span.1 (hinv.consistent.mem hown)
        exact haddr (congrArg (· * pageSize) (le_antisymm hle (Nat.le_of_lt_succ hlt)))
    rcases hinv.allocPages hL'.managed.full 0 with ⟨hnone, -⟩ | ⟨p, L₂, t', -, ht', hal⟩
    · exact absurd hfree (hinv.alloc_eq_none.1 hnone)
    · obtain ⟨y, hy, hfits⟩ := hal.fits
      have hne := Nat.ne_of_gt (hinv.page_bounds hy (hfits.hasPage (Block.start_mem_span _))).1
      have hnext := hserves.alloc 0
      have hother := hnever A t hserves
      rw [ht'] at hnext hother
      rw [granted, if_neg hne] at hnext
      refine ⟨_, _, hnext, ?_, List.forall_mem_cons.2 ⟨⟨rfl, hother⟩, hA⟩⟩
      rw [List.length_cons, hlen]

/-- Every page that is free at first can be allocated. -/
lemma returns_of_hasPage (h : Spans R [] s L) (hz : z ∈ L.zones) {q : Nat} (hq : z.HasPage q) :
    Returns R [] s (q * pageSize) := by
  by_contra hnot
  have hpos := (h.managed.inv.page_bounds hz hq).1
  have hnever : ∀ A t, Serves R [] s A t → (t.allocPages 0).1 ≠ q * pageSize := by
    intro A t hserves heq
    refine hnot ⟨A, t, 0, 0, hserves, ?_, Nat.one_pos, ?_⟩
    · rw [heq]
      exact Nat.ne_of_gt hpos
    · rw [heq, zero_mul, add_zero]
  obtain ⟨A, t, hserves, hlen, hA⟩ := exists_serves_length h hz hq hnever (2 ^ 64)
  obtain ⟨L', -, hL'⟩ := hserves.exists_spans h
  have hsum := sum_pages_lt hL'.managed.inv hL'.managed.records.nodup fun a ha =>
    (hL'.managed.records.live a).1 ha
  have hone : A.map (fun a => 2 ^ a.order) = A.map fun _ => 1 := by
    refine List.map_congr_left fun a ha => ?_
    rw [(hA a ha).1, Nat.pow_zero]
  rw [hone, List.map_const', List.sum_replicate_nat, mul_one, hlen] at hsum
  exact lt_irrefl _ hsum

end

/-- The pages of a range that ends at `2 ^ 48` have no descriptors. -/
lemma not_describes_of_stop {R : List Region} {s : State} (h : ReachDmap R [] s) {debug : Bool}
    {fuel : Nat} (hfuel : R.length < fuel) {r : Region} (hr : r ∈ R) (hstop : r.stop = 2 ^ 48) :
    ¬ ∃ p, installPageDescriptors debug fuel s = .ok p ∧ Describes R [] s p := by
  rintro ⟨p, hp, hdescribes⟩
  obtain ⟨L, hL⟩ := h.exists_spans
  obtain ⟨z, hz, hzstop⟩ := hL.exists_zone_of_region hr
  rw [hstop, dmapStart_eq, Nat.add_sub_cancel' (by decide)] at hzstop
  have hpage : z.HasPage z.first :=
    ⟨Nat.le_refl _, Nat.lt_add_of_pos_right (hL.managed.inv.wf z hz).pos⟩
  obtain ⟨i, hi⟩ := hdescribes.found _ (returns_of_hasPage hL hz hpage)
  rw [getPageDescriptor_of_end hL hz hzstop hfuel hp hpage] at hi
  cases hi

/-- Once memory has been added, and while no block is in use, every page that can be allocated gets
its own descriptor exactly if no range ends at `2 ^ 48`. -/
theorem describes_iff {R : List Region} {s : State} (h : ReachDmap R [] s) (hne : R ≠ [])
    (debug : Bool) {fuel : Nat} (hfuel : R.length < fuel) :
    (∃ p, installPageDescriptors debug fuel s = .ok p ∧ Describes R [] s p) ↔
      ∀ r ∈ R, r.stop ≠ 2 ^ 48 := by
  constructor
  · intro hdescribes r hr hstop
    exact not_describes_of_stop h hfuel hr hstop hdescribes
  · intro hstop
    obtain ⟨L, hL⟩ := h.exists_spans
    have hzones : L.zones ≠ [] := by
      intro hnil
      have hstops := hL.stops
      rw [hnil, List.map_nil] at hstops
      exact hne (List.map_eq_nil_iff.1 hstops.symm)
    refine describes_of_stop_lt hL hzones (fun z hz => ?_) hfuel
    obtain ⟨r, hr, hzstop⟩ := hL.exists_region_of_zone hz
    have hle := (hL.managed.inv.wf z hz).le
    have hne := hstop r hr
    rw [dmapStart_eq] at hzstop
    omega

/-- The allocator goes over to the direct map after any run below `2 ^ 48`. -/
lemma exists_reachDmap {R : List Region} {s : State} (h : Reach R [] s)
    (hlow : ∀ r ∈ R, r.stop ≤ 2 ^ 48) : ∃ t, ReachDmap R [] t := by
  obtain ⟨L, n, -, hn⟩ := h.transition hlow true
  obtain ⟨-, t, ht, -⟩ := hn n le_rfl
  exact ⟨t, .transition h hlow ht⟩

theorem describes_three_pages : ∃ s, ReachDmap [⟨pageSize, pageSize + 3 * pageSize⟩] [] s ∧
    ((∃ p, installPageDescriptors true 2 s = .ok p ∧
      Describes [⟨pageSize, pageSize + 3 * pageSize⟩] [] s p) ↔
    ∀ r ∈ [(⟨pageSize, pageSize + 3 * pageSize⟩ : Region)], r.stop ≠ 2 ^ 48) := by
  obtain ⟨s, h⟩ := reach_three_pages (Nat.dvd_refl pageSize) (by decide)
  obtain ⟨t, ht⟩ := exists_reachDmap h (List.forall_mem_singleton.2 (by decide))
  exact ⟨t, ht, describes_iff ht (List.cons_ne_nil _ _) true (by decide)⟩

/-- The last three pages of the physical address space, besides three other pages. -/
def endRegions : List Region :=
  [⟨2 ^ 48 - 3 * pageSize, 2 ^ 48⟩, ⟨pageSize, pageSize + 3 * pageSize⟩]

theorem not_describes_last_pages : ∃ s, ReachDmap endRegions [] s ∧
    ∀ debug, ¬ ∃ p, installPageDescriptors debug 3 s = .ok p ∧ Describes endRegions [] s p := by
  obtain ⟨s, h⟩ := reach_three_pages (Nat.dvd_refl pageSize) (by decide)
  have hkernel : isKernelAddress (2 ^ 48 - 3 * pageSize) = s.isDmap := by
    rw [h.isDmap]
    decide
  have hadd : ∃ s', s.addRange true 3 (2 ^ 48 - 3 * pageSize) (2 ^ 48) = .ok s' :=
    State.addRange_of_reserve (show pageSize ∣ 2 ^ 48 - 3 * pageSize by decide)
      (fun _ => hkernel) (by decide) (show State.reservedPages 3 3 0 = .ok 1 from rfl)
  obtain ⟨s', hs'⟩ := hadd
  have hreach := Reach.addRange h (by decide) (List.forall_mem_singleton.2 (by decide)) hs'
  obtain ⟨t, ht⟩ := exists_reachDmap hreach (by decide)
  exact ⟨t, ht, fun debug => not_describes_of_stop ht (by decide) (.head _) rfl⟩

end Mars.Earlyinit
