import Mars.Pm.Canonical
import Mathlib.Algebra.BigOperators.Group.List.Basic

/-!
# Runs of the page allocator

A run starts with an allocator that has no zone. It adds disjoint ranges, allocates, frees what was
allocated, and in between the clients write to the blocks they hold. Every state of a run has a
layout that agrees with the ranges and the blocks in use.
-/

namespace Mars.Pm

open Lib Lib.Bits Lib.DList Lib.Ownership Vm Zone Mars.Pm.Block

structure Region where
  start : Nat
  stop : Nat

/-- A block that was allocated and has not been freed. -/
structure Allocation where
  addr : Nat
  order : Nat
deriving DecidableEq

namespace Allocation

def bytes (a : Allocation) : Set Nat := Set.Ico a.addr (a.addr + 2 ^ a.order * pageSize)

def block (a : Allocation) : Block := ⟨a.addr / pageSize, a.order, false⟩

end Allocation

/-- The blocks in use after a call has returned the address. -/
def granted (addr order : Nat) (A : List Allocation) : List Allocation :=
  if addr = 0 then A else ⟨addr, order⟩ :: A

/-- The states that runs lead to, with the ranges and the blocks in use. -/
inductive Reach : List Region → List Allocation → State → Prop
  | new (m : Mem) : Reach [] [] ⟨.new, m⟩
  | addRange {R : List Region} {A : List Allocation} {s s' : State} {debug : Bool}
      {fuel start stop : Nat} (h : Reach R A s) (hlt : stop < 2 ^ 64)
      (hd : ∀ r ∈ R, stop ≤ r.start ∨ r.stop ≤ start)
      (hs : s.addRange debug fuel start stop = .ok s') : Reach (⟨start, stop⟩ :: R) A s'
  | alloc {R : List Region} {A : List Allocation} {s : State} (order : Nat) (h : Reach R A s) :
      Reach R (granted (s.allocPages order).1 order A) (s.allocPages order).2
  | free {R : List Region} {A : List Allocation} {s s' : State} {debug : Bool} {fuel : Nat}
      {a : Allocation} (h : Reach R A s) (ha : a ∈ A)
      (hs : s.freePages debug fuel a.addr = .ok s') : Reach R (A.erase a) s'
  | write {R : List Region} {A : List Allocation} {s : State} {m : Mem} (h : Reach R A s)
      (hm : ∀ x, s.mem x ≠ m x → (∃ a ∈ A, x ∈ a.bytes) ∨ ∀ r ∈ R, x < r.start ∨ r.stop ≤ x) :
      Reach R A { s with mem := m }

def Zone.region (z : Zone) : Region := ⟨z.metaArray, z.stop⟩

/-- A layout that agrees with the state and the record of the run. -/
structure Tracks (R : List Region) (A : List Allocation) (s : State) (L : Layout) : Prop where
  inv : s.Inv L
  full : L.Full
  canonical : L.Canonical
  regions : L.zones.map Zone.region = R
  sized : ∀ z ∈ L.zones, z.Sized
  lt : ∀ z ∈ L.zones, z.stop < 2 ^ 64
  nodup : A.Nodup
  live : ∀ a, a ∈ A ↔ ∃ p, a.addr = p * pageSize ∧ L.Live p a.order
  allocated : s.allocatedPages = (A.map fun a => 2 ^ a.order).sum

/-! ### The number of allocated pages -/

section Count

variable {s : State} {L : Layout} {A : List Allocation}

lemma Zone.Wf.lastPage_le {z : Zone} (hz : z.Wf) : z.first + z.totalPages ≤ 2 ^ 50 := by
  have hle := hz.le
  rw [Zone.stop, pageSize_eq] at hle
  omega

lemma Allocation.block_eq {a : Allocation} {p : Nat} (h : a.addr = p * pageSize) :
    a.block = ⟨p, a.order, false⟩ := by
  rw [block, h, Nat.mul_div_cancel _ (by decide)]

/-- The blocks in use do not overlap, so they have fewer pages than there are addresses. -/
lemma sum_pages_lt (hI : s.Inv L) (hnodup : A.Nodup)
    (hlive : ∀ a ∈ A, ∃ p, a.addr = p * pageSize ∧ L.Live p a.order) :
    (A.map fun a => 2 ^ a.order).sum < 2 ^ 64 := by
  have hblocks : (A.map Allocation.block).Nodup := by
    refine List.Nodup.map_on ?_ hnodup
    rintro ⟨addr, order⟩ ha ⟨addr', order'⟩ ha' heq
    obtain ⟨p, hp, -⟩ := hlive _ ha
    obtain ⟨p', hp', -⟩ := hlive _ ha'
    rw [Allocation.block_eq hp, Allocation.block_eq hp'] at heq
    cases heq
    rw [Allocation.mk.injEq]
    exact ⟨hp.trans hp'.symm, rfl⟩
  have howns : ∀ b ∈ A.map Allocation.block, ∃ p, L.owner p = some b := by
    intro b hb
    obtain ⟨a, ha, rfl⟩ := List.mem_map.1 hb
    obtain ⟨p, hp, hown⟩ := hlive a ha
    rw [Allocation.block_eq hp]
    exact ⟨p, hown⟩
  have hsub : ∀ b ∈ A.map Allocation.block, b.span ⊆ Finset.range (2 ^ 50) := by
    intro b hb p hp
    obtain ⟨q, hown⟩ := howns b hb
    obtain ⟨z, hz, hfits⟩ := hI.fits q b hown
    have hlast := (hI.wf z hz).lastPage_le
    have hpage := (hfits.hasPage hp).2
    exact Finset.mem_range.2 (by omega)
  have hle := hI.consistent.sum_card_le hblocks howns hsub
  rw [List.map_map, Finset.card_range] at hle
  have hcard : ((fun b : Block => b.span.card) ∘ Allocation.block) = fun a => 2 ^ a.order := by
    funext a
    simp [Block.span, Allocation.block]
  rw [hcard] at hle
  exact hle.trans_lt (by decide)

end Count

/-! ### The record -/

/-- The record has exactly the allocated blocks of the layout. -/
structure Records (A : List Allocation) (L : Layout) : Prop where
  nodup : A.Nodup
  live : ∀ a, a ∈ A ↔ ∃ p, a.addr = p * pageSize ∧ L.Live p a.order

namespace Records

variable {A : List Allocation} {L L' : Layout} {s s' : State} {a : Allocation} {p order : Nat}

lemma alloc (h : Records A L) (hal : State.Allocated s L s' L' p order) :
    Records (⟨p * pageSize, order⟩ :: A) L' where
  nodup := by
    refine List.nodup_cons.2 ⟨fun hmem => ?_, h.nodup⟩
    obtain ⟨q, hq, hlive⟩ := (h.live _).1 hmem
    obtain rfl := eq_of_mul_pageSize hq
    cases hal.fresh _ (start_mem_span _) _ hlive
  live := by
    rintro ⟨addr, k⟩
    rw [List.mem_cons, h.live, Allocation.mk.injEq]
    constructor
    · rintro (⟨rfl, rfl⟩ | ⟨q, hq, hlive⟩)
      · exact ⟨p, rfl, (hal.live p _ rfl).2 (.inl ⟨start_mem_span _, rfl⟩)⟩
      · exact ⟨q, hq, (hal.live q _ rfl).2 (.inr hlive)⟩
    · rintro ⟨q, hq, hlive⟩
      rcases (hal.live q _ rfl).1 hlive with ⟨-, heq⟩ | hlive
      · cases heq
        exact .inl ⟨hq, rfl⟩
      · exact .inr ⟨q, hq, hlive⟩

lemma free (h : Records A L) (hfreed : State.Freed s L s' L' p order) :
    Records (A.erase ⟨p * pageSize, order⟩) L' where
  nodup := h.nodup.erase _
  live := by
    intro c
    rw [h.nodup.mem_erase_iff, h.live]
    constructor
    · rintro ⟨hne, q, hq, hc⟩
      refine ⟨q, hq, (hfreed.live q _ rfl).2 ⟨hc, fun heq => hne ?_⟩⟩
      obtain ⟨addr, k⟩ := c
      cases heq
      rw [Allocation.mk.injEq]
      exact ⟨hq, rfl⟩
    · rintro ⟨q, hq, hc⟩
      obtain ⟨hc, hne⟩ := (hfreed.live q _ rfl).1 hc
      refine ⟨?_, q, hq, hc⟩
      rintro rfl
      obtain rfl := eq_of_mul_pageSize hq
      exact hne rfl

lemma addZone {z : Zone} (h : Records A L) (hadded : State.Added s L s' z) :
    Records A (L.addZone z) where
  nodup := h.nodup
  live := by
    intro a
    rw [h.live]
    exact exists_congr fun p => and_congr_right fun _ => (hadded.live p _ rfl).symm

lemma exists_zone (h : Records A L) (hI : s.Inv L) (ha : a ∈ A) :
    ∃ z ∈ L.zones, ∃ i < z.totalPages, a.addr = (z.first + i) * pageSize ∧
      L.Live (z.first + i) a.order := by
  obtain ⟨p, hp, hlive⟩ := (h.live a).1 ha
  obtain ⟨z, hz, hfits⟩ := hI.fits p _ hlive
  obtain ⟨i, hi, rfl⟩ := (hfits.hasPage (start_mem_span _)).exists_index
  exact ⟨z, hz, i, hi, hp, hlive⟩

lemma owner_of_bytes (h : Records A L) (hI : s.Inv L) (ha : a ∈ A) {x : Nat} (hx : x ∈ a.bytes) :
    ∃ p, x ∈ pageBytes p ∧ L.owner p = some a.block := by
  obtain ⟨q, hq, hlive⟩ := (h.live a).1 ha
  obtain ⟨hle, hlt⟩ := hx
  rw [hq, pageSize_eq] at hle
  rw [hq, ← add_mul, pageSize_eq] at hlt
  rw [Allocation.block_eq hq]
  refine ⟨x / pageSize, ?_, hI.consistent.eq_of_mem hlive (mem_span.2 ?_)⟩
  · rw [mem_pageBytes, pageSize_eq]
    omega
  · dsimp only
    rw [pageSize_eq]
    omega

end Records

/-! ### Writes of others -/

/-- The invariant is about the reserved parts of the zones and the free pages. -/
lemma State.Inv.of_mem {s : State} {L : Layout} {m : Mem} (hI : s.Inv L)
    (hreserved : ∀ z ∈ L.zones, Set.EqOn s.mem m z.reserved)
    (hpage : ∀ p b, L.owner p = some b → b.free = true → Set.EqOn s.mem m (pageBytes p)) :
    ({ s with mem := m } : State).Inv L := by
  refine ⟨?_, hI.wf, hI.apart, hI.consistent, hI.fits, ?_, ?_, hI.listed, ?_⟩
  · refine hI.chain.congr fun z hz => (hreserved z hz).mono fun a ha => ?_
    exact mem_reserved_header (hI.wf z hz) ha
  · intro z hz i hi b hb
    rw [← hI.metas z hz i hi b hb]
    exact (hreserved z hz (mem_reserved_meta hi)).symm
  · intro o ho
    refine (hI.lists o ho).congr fun x hx => ?_
    obtain ⟨p, rfl, hown⟩ := (hI.listed o x).1 hx
    exact (hpage p _ hown rfl).mono (links_subset p)
  · intro z hz i hi o hown
    have htail := (hpage _ _ hown rfl).mono (tailBytes_subset _)
    have hnode := hI.nodes z hz i hi o hown
    rw [blockZone_congr htail, blockPageIndex_congr htail] at hnode
    exact hnode

/-- What a write changes in the zones is in blocks in use. -/
lemma Records.inv_write {A : List Allocation} {s : State} {L : Layout} {m : Mem} (h : Records A L)
    (hI : s.Inv L)
    (hm : ∀ z ∈ L.zones, ∀ x ∈ z.bytes, s.mem x ≠ m x → ∃ a ∈ A, x ∈ a.bytes) :
    ({ s with mem := m } : State).Inv L := by
  refine hI.of_mem (fun z hz x hx => ?_) fun p b hown hfree x hx => ?_
  · by_contra hne
    obtain ⟨a, ha, hmem⟩ := hm z hz x (.inl hx) hne
    obtain ⟨p, hp, hown⟩ := h.owner_of_bytes hI ha hmem
    obtain ⟨y, hy, hfits⟩ := hI.fits p _ hown
    exact hI.notMem_reserved hy hz (hfits.hasPage (hI.consistent.mem hown)) hp hx
  · by_contra hne
    obtain ⟨z, hz, hfits⟩ := hI.fits p b hown
    have hpage := hfits.hasPage (hI.consistent.mem hown)
    obtain ⟨a, ha, hmem⟩ := hm z hz x (Zone.bytes_of_page hpage hx) hne
    obtain ⟨q, hq, hown'⟩ := h.owner_of_bytes hI ha hmem
    obtain rfl := eq_of_mem_pageBytes hx hq
    rw [hown] at hown'
    cases hown'
    cases hfree

/-! ### The steps of a run -/

namespace Tracks

variable {R : List Region} {A : List Allocation} {s s' : State} {L : Layout} {m : Mem}

lemma new (m : Mem) : Tracks [] [] ⟨.new, m⟩ ⟨[], fun _ => none, fun _ => []⟩ where
  inv := by
    refine ⟨rfl, by rintro _ ⟨⟩, .nil, by rintro _ _ ⟨⟩, by rintro _ _ ⟨⟩, by rintro _ ⟨⟩,
      fun o _ => isList_nil m, fun o x => ⟨by rintro ⟨⟩, ?_⟩, by rintro _ ⟨⟩⟩
    rintro ⟨p, -, ⟨⟩⟩
  full := by rintro p ⟨⟨z, ⟨⟩, -⟩, -⟩
  canonical := by rintro _ ⟨⟩
  regions := rfl
  sized := by rintro _ ⟨⟩
  lt := by rintro _ ⟨⟩
  nodup := List.nodup_nil
  live := fun a => ⟨by rintro ⟨⟩, by rintro ⟨p, -, ⟨⟩⟩⟩
  allocated := rfl

lemma records (h : Tracks R A s L) : Records A L := ⟨h.nodup, h.live⟩

lemma addRange (h : Tracks R A s L) {debug : Bool} {fuel start stop : Nat} (hlt : stop < 2 ^ 64)
    (hd : ∀ r ∈ R, stop ≤ r.start ∨ r.stop ≤ start)
    (hs : s.addRange debug fuel start stop = .ok s') :
    ∃ z, Tracks (⟨start, stop⟩ :: R) A s' (L.addZone z) := by
  have hapart : ∀ z ∈ L.zones, stop ≤ z.metaArray ∨ z.stop ≤ start := by
    intro z hz
    refine hd z.region ?_
    rw [← h.regions]
    exact List.mem_map_of_mem hz
  obtain ⟨z, hmeta, hstop, hadded⟩ := h.inv.addRange h.full hs hlt fun y hy a ha => by
    have hin := bytes_subset (h.inv.wf y hy) ha
    have := hapart y hy
    omega
  have hwf : z.Wf := hadded.inv.wf z (by rw [hadded.zones]; exact List.mem_cons_self)
  have hdisj : ∀ z' ∈ L.zones, z.Disjoint z' := by
    intro z' hz'
    refine disjoint_of_ranges hwf (h.inv.wf z' hz') ?_
    rw [hmeta, hstop]
    exact hapart z' hz'
  refine ⟨z, hadded.inv, hadded.full, h.inv.canonical_addZone h.full h.canonical hdisj, ?_,
    ?_, ?_, h.nodup, (h.records.addZone hadded).live, hadded.allocated.trans h.allocated⟩
  · rw [hadded.zones, List.map_cons, h.regions, Zone.region, hmeta, hstop]
  · rw [hadded.zones]
    exact List.forall_mem_cons.2 ⟨hadded.sized, h.sized⟩
  · rw [hadded.zones]
    exact List.forall_mem_cons.2 ⟨hstop ▸ hlt, h.lt⟩

lemma alloc (h : Tracks R A s L) (order : Nat) :
    (L.alloc order = none ∧ s.allocPages order = (0, s)) ∨
    ∃ p L', L.alloc order = some (p, L') ∧ (s.allocPages order).1 = p * pageSize ∧
      p * pageSize ≠ 0 ∧ Tracks R (⟨p * pageSize, order⟩ :: A) (s.allocPages order).2 L' := by
  rcases h.inv.allocPages h.full order with hnone | ⟨p, L', s', hsome, hs, hal⟩
  · exact .inl hnone
  · obtain ⟨z, hz, hfits⟩ := hal.fits
    have hne := Nat.ne_of_gt (h.inv.page_bounds hz (hfits.hasPage (start_mem_span _))).1
    obtain ⟨hnodup, hlive⟩ := h.records.alloc hal
    have hsum := sum_pages_lt hal.inv hnodup fun a ha => (hlive a).1 ha
    rw [hs]
    refine .inr ⟨p, L', hsome, rfl, hne, hal.inv, hal.full,
      h.inv.canonical_alloc h.full h.canonical hsome, ?_, ?_, ?_, hnodup, hlive, ?_⟩
    · rw [hal.zones, h.regions]
    · rw [hal.zones]
      exact h.sized
    · rw [hal.zones]
      exact h.lt
    · rw [hal.allocated, h.allocated]
      rw [List.map_cons, List.sum_cons] at hsum ⊢
      rw [add_comm, Nat.mod_eq_of_lt hsum]

lemma free_page (h : Tracks R A s L) (debug : Bool) {fuel : Nat} (hfuel : L.zones.length < fuel)
    {z : Zone} (hz : z ∈ L.zones) {i order : Nat} (hi : i < z.totalPages)
    (hlive : L.Live (z.first + i) order) :
    ∃ s', s.freePages debug fuel ((z.first + i) * pageSize) = .ok s' ∧
      Tracks R (A.erase ⟨(z.first + i) * pageSize, order⟩) s' (L.free z (z.first + i) order) := by
  obtain ⟨s', hs', hfreed⟩ := h.inv.freePages h.full hz hi (h.lt z hz) hlive
    (fun _ => h.lt) hfuel
  have ha : (⟨(z.first + i) * pageSize, order⟩ : Allocation) ∈ A :=
    (h.live _).2 ⟨z.first + i, rfl, hlive⟩
  refine ⟨s', hs', hfreed.inv, hfreed.full, h.inv.canonical_free h.full h.canonical hz hi hlive,
    ?_, ?_, ?_, (h.records.free hfreed).nodup, (h.records.free hfreed).live, ?_⟩
  · rw [hfreed.zones, h.regions]
  · rw [hfreed.zones]
    exact h.sized
  · rw [hfreed.zones]
    exact h.lt
  · have hsum := List.sum_map_erase (fun a : Allocation => 2 ^ a.order) ha
    have hlt := sum_pages_lt h.inv h.nodup fun a ha => (h.live a).1 ha
    rw [hfreed.allocated, h.allocated]
    generalize 2 ^ order = n at hsum ⊢
    omega

lemma free (h : Tracks R A s L) (debug : Bool) {fuel : Nat} (hfuel : L.zones.length < fuel)
    {a : Allocation} (ha : a ∈ A) :
    ∃ s' L', s.freePages debug fuel a.addr = .ok s' ∧ Tracks R (A.erase a) s' L' := by
  obtain ⟨z, hz, i, hi, haddr, hlive⟩ := h.records.exists_zone h.inv ha
  obtain ⟨s', hs', htracks⟩ := h.free_page debug hfuel hz hi hlive
  rw [← haddr] at hs' htracks
  exact ⟨s', _, hs', htracks⟩

/-- The clients write to their blocks, others to memory outside of the ranges. -/
lemma write (h : Tracks R A s L)
    (hm : ∀ x, s.mem x ≠ m x → (∃ a ∈ A, x ∈ a.bytes) ∨ ∀ r ∈ R, x < r.start ∨ r.stop ≤ x) :
    Tracks R A { s with mem := m } L := by
  refine { h with inv := h.records.inv_write h.inv fun z hz x hx hne => ?_ }
  refine (hm x hne).resolve_right fun hout => ?_
  have hin := bytes_subset (h.inv.wf z hz) hx
  have hout := hout z.region (h.regions ▸ List.mem_map_of_mem hz)
  dsimp only [Zone.region] at hout
  omega

end Tracks

/-! ### Whole runs -/

namespace State

variable {debug : Bool} {addr fuel : Nat} {s : State}

/-- A longer search for the zone ends in the same way. -/
lemma freeFrom_mono {r : Except Panic State} (hr : r ≠ .error .diverges) (k : Nat) :
    ∀ {zone : Nat}, freeFrom debug addr s fuel zone = r →
      freeFrom debug addr s (fuel + k) zone = r := by
  induction fuel with
  | zero =>
    intro zone h
    exact absurd h.symm hr
  | succ fuel ih =>
    intro zone h
    rw [add_right_comm]
    rw [freeFrom] at h ⊢
    by_cases hzone : zone = 0
    · rwa [if_pos hzone] at h ⊢
    rw [if_neg hzone] at h ⊢
    simp only [bind, Except.bind] at h ⊢
    cases hstop : zoneEnd debug s.mem zone with
    | error e =>
      rw [hstop] at h
      exact h
    | ok dataEnd =>
      rw [hstop] at h
      dsimp only at h ⊢
      by_cases hin : zoneDataBase s.mem zone ≤ addr ∧ addr < dataEnd
      · rw [if_pos hin] at h ⊢
        exact h
      · rw [if_neg hin] at h ⊢
        exact ih h

lemma freePages_mono {r : Except Panic State} (hr : r ≠ .error .diverges) (k : Nat)
    (h : s.freePages debug fuel addr = r) : s.freePages debug (fuel + k) addr = r := by
  unfold freePages at h ⊢
  by_cases hzero : addr = 0
  · rwa [if_pos hzero] at h ⊢
  · rw [if_neg hzero] at h ⊢
    exact freeFrom_mono hr k h

/-- A debug build does what a release build does, or it stops at an overflow. -/
lemma zoneEnd_or (debug : Bool) (m : Mem) (zone : Nat) :
    zoneEnd debug m zone = .error .overflow ∨ zoneEnd debug m zone = zoneEnd false m zone := by
  rw [zoneEnd, zoneEnd]
  split_ifs <;> simp_all

lemma freePages_or (debug : Bool) (fuel : Nat) (s : State) (addr : Nat) :
    s.freePages debug fuel addr = .error .overflow ∨
      s.freePages debug fuel addr = s.freePages false fuel addr := by
  have hfrom : ∀ zone, freeFrom debug addr s fuel zone = .error .overflow ∨
      freeFrom debug addr s fuel zone = freeFrom false addr s fuel zone := by
    induction fuel with
    | zero => exact fun _ => .inr rfl
    | succ fuel ih =>
      intro zone
      rw [freeFrom, freeFrom]
      by_cases hzone : zone = 0
      · exact .inr (by rw [if_pos hzone, if_pos hzone])
      rw [if_neg hzone, if_neg hzone]
      rcases zoneEnd_or debug s.mem zone with hover | heq
      · exact .inl (by rw [hover]; rfl)
      rw [heq]
      simp only [bind, Except.bind]
      cases zoneEnd false s.mem zone with
      | error e => exact .inr rfl
      | ok dataEnd =>
        dsimp only
        by_cases hin : zoneDataBase s.mem zone ≤ addr ∧ addr < dataEnd
        · rw [if_pos hin, if_pos hin]
          exact .inr rfl
        · rw [if_neg hin, if_neg hin]
          exact ih _
  rw [freePages, freePages]
  split_ifs
  · exact .inr rfl
  · exact hfrom _

lemma freePages_release {s' : State} (h : s.freePages debug fuel addr = .ok s') :
    s.freePages false fuel addr = .ok s' := by
  rcases freePages_or debug fuel s addr with hover | heq
  · cases hover.symm.trans h
  · exact heq.symm.trans h

end State

lemma Reach.exists_layout {R : List Region} {A : List Allocation} {s : State} (h : Reach R A s) :
    ∃ L, Tracks R A s L := by
  induction h with
  | new m => exact ⟨_, .new m⟩
  | addRange _ hlt hd hs ih =>
    obtain ⟨L, hL⟩ := ih
    obtain ⟨z, hz⟩ := hL.addRange hlt hd hs
    exact ⟨_, hz⟩
  | alloc order _ ih =>
    obtain ⟨L, hL⟩ := ih
    rcases hL.alloc order with ⟨-, hnull⟩ | ⟨p, L', -, hp, hne, hL'⟩
    · rw [hnull, granted, if_pos rfl]
      exact ⟨L, hL⟩
    · rw [granted, hp, if_neg hne]
      exact ⟨L', hL'⟩
  | @free R A s s' debug fuel a _ ha hs ih =>
    obtain ⟨L, hL⟩ := ih
    obtain ⟨s'', L', hs'', hL'⟩ :=
      hL.free debug (show L.zones.length < fuel + (L.zones.length + 1) by omega) ha
    rw [State.freePages_mono (by simp) _ hs] at hs''
    cases hs''
    exact ⟨_, hL'⟩
  | write _ hm ih =>
    obtain ⟨L, hL⟩ := ih
    exact ⟨L, hL.write hm⟩

end Mars.Pm
