import Mars.Pm.Dmap
import Mars.Pm.FreePages
import Mars.Pm.Shift

/-!
# The transition to the direct map

After `transition_dmap` the allocator has the layout it had before, moved to the direct map. The
header of a zone, its data pages and the nodes of the lists move; so does the meta array, unless it
is at the physical address 0, which `to_dmap` takes for the null pointer.
-/

namespace Mars.Pm

open Function Lib Lib.Bits Lib.DList Lib.Ownership Vm Zone Layout Mars.Pm.Block

/-- The number of pages before the direct map. -/
def dmapPages : Nat := dmapStart / pageSize

lemma dmapPages_mul : dmapPages * pageSize = dmapStart := by decide

def Zone.toDmap (z : Zone) : Zone where
  addr := z.addr + dmapStart
  metaArray := Pm.toDmap z.metaArray
  first := z.first + dmapPages
  totalPages := z.totalPages

def Layout.toDmap (L : Layout) : Layout := L.shift dmapPages Zone.toDmap

lemma movesPages_toDmap : MovesPages dmapPages Zone.toDmap := ⟨fun _ => rfl, fun _ => rfl⟩

/-! ### Zones -/

section Zones

variable {z z' : Zone} {zs : List Zone} {a i p : Nat} {m M : Mem}

lemma Zone.toDmap_dataBase (z : Zone) : z.toDmap.dataBase = z.dataBase + dmapStart := by
  rw [dataBase, dataBase, ← dmapPages_mul, ← add_mul]
  rfl

lemma Zone.toDmap_stop (z : Zone) : z.toDmap.stop = z.stop + dmapStart := by
  rw [stop, stop, ← dmapPages_mul, ← add_mul]
  congr 1
  exact add_right_comm _ _ _

/-- The parts of a zone below `2 ^ 48`. -/
lemma Zone.Wf.low (hz : z.Wf) (hlow : z.stop ≤ 2 ^ 48) :
    z.metaArray + z.totalPages < 2 ^ 48 ∧ z.addr ≠ 0 ∧ z.addr + zoneSize < 2 ^ 48 ∧
      z.dataBase < 2 ^ 48 := by
  have hpos := hz.pos
  have hroom := hz.room
  have hheader := hz.header
  have hlt : z.dataBase < z.stop :=
    Nat.mul_lt_mul_of_pos_right (Nat.lt_add_of_pos_right hpos) (by decide)
  omega

lemma Zone.Wf.toDmap (hz : z.Wf) (hlow : z.stop ≤ 2 ^ 48) : z.toDmap.Wf where
  pos := hz.pos
  room := by
    obtain ⟨hlt, -⟩ := hz.low hlow
    have hroom := hz.room
    dsimp only [Zone.toDmap]
    by_cases hmeta : z.metaArray = 0
    · rw [hmeta, toDmap_zero]
      omega
    · rw [toDmap_of_lt hmeta (by omega)]
      omega
  header := by
    rw [z.toDmap_dataBase, ← hz.header]
    exact add_right_comm _ _ _
  le := by
    rw [z.toDmap_stop, dmapStart_eq]
    omega

/-- The meta bytes keep their physical address, also if the array is not moved. -/
lemma Zone.Wf.phys_metaArray (hz : z.Wf) (hlow : z.stop ≤ 2 ^ 48) (hi : i < z.totalPages) :
    dmapAddrToPhys (z.toDmap.metaArray + i) = z.metaArray + i := by
  obtain ⟨hlt, -⟩ := hz.low hlow
  dsimp only [Zone.toDmap]
  by_cases hmeta : z.metaArray = 0
  · rw [hmeta, toDmap_zero, dmapAddrToPhys_of_lt (by omega)]
  · rw [toDmap_of_lt hmeta (by omega), add_right_comm, dmapAddrToPhys_add (by omega)]

lemma Zone.phys_mem_bytes (hz : z.Wf) (hlow : z.stop ≤ 2 ^ 48) (ha : a ∈ z.toDmap.bytes) :
    dmapAddrToPhys a ∈ z.bytes := by
  obtain ⟨hmetalt, hne, haddr, hdata⟩ := hz.low hlow
  have hoff : ∀ {x}, x + dmapStart ≤ a → a < 2 ^ 48 + dmapStart →
      ∃ y, a = y + dmapStart ∧ x ≤ y ∧ dmapAddrToPhys a = y := by
    intro x hle hlt
    refine ⟨a - dmapStart, by omega, by omega, ?_⟩
    obtain ⟨y, rfl⟩ := Nat.exists_eq_add_of_le' ((Nat.le_add_left _ _).trans hle)
    rw [Nat.add_sub_cancel, dmapAddrToPhys_add (by omega)]
  rcases ha with (⟨hle, hlt⟩ | ⟨hle, hlt⟩) | ⟨hle, hlt⟩
  · obtain ⟨i, rfl⟩ := Nat.exists_eq_add_of_le hle
    have hi := Nat.lt_of_add_lt_add_left hlt
    rw [hz.phys_metaArray hlow hi]
    exact .inl (mem_reserved_meta hi)
  · rw [z.toDmap_dataBase] at hlt
    obtain ⟨y, rfl, hy, hphys⟩ := hoff hle (by omega)
    rw [hphys]
    exact .inl (.inr ⟨hy, Nat.lt_of_add_lt_add_right hlt⟩)
  · rw [z.toDmap_dataBase] at hle
    rw [z.toDmap_stop] at hlt
    obtain ⟨y, rfl, hy, hphys⟩ := hoff hle (by omega)
    rw [hphys]
    exact .inr ⟨hy, Nat.lt_of_add_lt_add_right hlt⟩

lemma ZoneChain.head_cases (h : ZoneChain m p zs) : p = 0 ∨ ∃ z ∈ zs, p = z.addr := by
  cases zs with
  | nil => exact .inl h
  | cons z zs => exact .inr ⟨z, (.head _), h.1⟩

/-- The bytes of the header after the transition. -/
def Zone.dmapHeader (z : Zone) : Set Nat :=
  Set.Ico (z.addr + dmapStart) (z.addr + dmapStart + zoneSize)

lemma Zone.notMem_dmapHeader (hz : z.Wf) (hz' : z'.Wf) (hd : z.Disjoint z') (hi : i < zoneSize) :
    z'.addr + dmapStart + i ∉ z.dmapHeader := by
  rintro ⟨hle, hlt⟩
  have hmem' := mem_reserved_header hz' ⟨Nat.le_add_right _ _, Nat.add_lt_add_left hi _⟩
  have hmem : z'.addr + i ∈ z.reserved := mem_reserved_header hz ⟨by omega, by omega⟩
  exact hd _ (.inl hmem) (.inl hmem')

/-- The headers in memory are replaced by those of the moved zones, and nothing else changes. -/
lemma transitionZones_spec (zs : List Zone) : ∀ {M : Mem} {ptr fuel : Nat}, ZoneChain m ptr zs →
    (∀ z ∈ zs, ∀ i < zoneSize, M (z.addr + dmapStart + i) = m (z.addr + i)) →
    (∀ z ∈ zs, z.Wf) → (∀ z ∈ zs, z.stop ≤ 2 ^ 48) → zs.Pairwise Zone.Disjoint →
    zs.length < fuel →
    ∃ M', transitionZones fuel M ptr = .ok M' ∧
      ZoneChain M' (toDmap ptr) (zs.map Zone.toDmap) ∧
      ∀ a, (∀ z ∈ zs, a ∉ z.dmapHeader) → M' a = M a := by
  induction zs with
  | nil =>
    intro M ptr fuel hchain _ _ _ _ hfuel
    obtain ⟨fuel, rfl⟩ := Nat.exists_eq_succ_of_ne_zero hfuel.ne'
    obtain rfl : ptr = 0 := hchain
    exact ⟨M, rfl, rfl, fun _ _ => rfl⟩
  | cons z zs ih =>
    intro M ptr fuel hchain hbytes hwf hlow hapart hfuel
    obtain ⟨fuel, rfl⟩ := Nat.exists_eq_succ_of_ne_zero (Nat.zero_lt_of_lt hfuel).ne'
    obtain ⟨rfl, hmeta, hdata, htotal, hrest⟩ := hchain
    obtain ⟨hz, hwf⟩ := List.forall_mem_cons.1 hwf
    obtain ⟨hzlow, hlow⟩ := List.forall_mem_cons.1 hlow
    obtain ⟨hzbytes, hbytes⟩ := List.forall_mem_cons.1 hbytes
    obtain ⟨hd, hapart⟩ := List.pairwise_cons.1 hapart
    obtain ⟨hmetalt, hne, haddr, hdatalt⟩ := hz.low hzlow
    have hzone := toDmap_of_lt hne (by omega)
    have hword : ∀ k, k + 8 ≤ zoneSize →
        M.word (z.addr + dmapStart + k) = m.word (z.addr + k) := by
      intro k hk
      refine Mem.word_eq_of_bytes fun i hi => ?_
      rw [add_assoc _ k, add_assoc _ k]
      exact hzbytes (k + i) (by omega)
    have hnextlt : zoneNext m z.addr < 2 ^ 48 := by
      rcases hrest.head_cases with hzero | ⟨y, hy, haddr'⟩
      · rw [hzero]
        decide
      · rw [haddr']
        have := ((hwf y hy).low (hlow y hy)).2.2.1
        omega
    have hfields := transitionZone_fields M (z.addr + dmapStart)
    rw [show zoneMetaArray M (z.addr + dmapStart) = z.metaArray from
        (hword 0 (by decide)).trans hmeta,
      show zoneDataBase M (z.addr + dmapStart) = z.dataBase from (hword 8 (by decide)).trans hdata,
      show zoneTotalPages M (z.addr + dmapStart) = z.totalPages from
        (hword 16 (by decide)).trans htotal,
      show zoneNext M (z.addr + dmapStart) = zoneNext m z.addr from hword 24 (by decide)] at hfields
    obtain ⟨hmeta', hdata', htotal', hnext'⟩ :=
      hfields (toDmap_lt (by omega)) (toDmap_lt hdatalt) (toDmap_lt hnextlt)
    have hother : ∀ y ∈ zs, ∀ i < zoneSize,
        transitionZone M (z.addr + dmapStart) (y.addr + dmapStart + i) = m (y.addr + i) := by
      intro y hy i hi
      rw [← hbytes y hy i hi]
      refine transitionZone_apply ?_
      by_contra hin
      exact notMem_dmapHeader hz (hwf y hy) (hd y hy) hi ⟨by omega, by omega⟩
    obtain ⟨M', hM', hchain', hframe⟩ := ih hrest hother hwf hlow hapart
      (show zs.length < fuel by simpa using hfuel)
    have hheader : Set.EqOn (transitionZone M (z.addr + dmapStart)) M' z.dmapHeader := by
      intro a ha
      refine (hframe a fun y hy ha' => ?_).symm
      obtain ⟨i, rfl⟩ : ∃ i, a = y.addr + dmapStart + i := ⟨a - (y.addr + dmapStart), by
        have := ha'.1
        omega⟩
      exact notMem_dmapHeader hz (hwf y hy) (hd y hy) (by have := ha'.2; omega) ha
    have hsame : ∀ k, k + 8 ≤ zoneSize → M'.word (z.addr + dmapStart + k) =
        (transitionZone M (z.addr + dmapStart)).word (z.addr + dmapStart + k) := by
      intro k hk
      refine (Mem.word_congr fun a ha => hheader ?_).symm
      exact ⟨by have := ha.1; omega, by have := ha.2; omega⟩
    refine ⟨M', ?_, ?_, ?_⟩
    · rw [transitionZones, if_neg hne]
      simp only [hzone]
      rw [show zoneNext M (z.addr + dmapStart) = zoneNext m z.addr from hword 24 (by decide)]
      exact hM'
    · rw [hzone]
      refine ⟨rfl, (hsame 0 (by decide)).trans hmeta', ?_, (hsame 16 (by decide)).trans htotal', ?_⟩
      · have hheader := hz.header
        rw [toDmap_dataBase, ← toDmap_of_lt (by omega) hdatalt]
        exact (hsame 8 (by decide)).trans hdata'
      · rw [show zoneNext M' z.toDmap.addr = toDmap (zoneNext m z.addr) from
          (hsame 24 (by decide)).trans hnext']
        exact hchain'
    · intro a ha
      obtain ⟨hza, ha⟩ := List.forall_mem_cons.1 ha
      rw [hframe a ha]
      refine transitionZone_apply ?_
      by_contra hin
      exact hza ⟨by omega, by omega⟩

end Zones

/-! ### Lists -/

/-- The bytes of a node that the transition writes. -/
def dmapNode (x : Nat) : Set Nat := Set.Ico (x + dmapStart) (x + dmapStart + 24)

section Blocks

variable {m : Mem} {x y : Nat}

lemma Seg.first_cases {b p b' : Nat} {l : List Nat} (h : Seg m b p l b' 0) : p = 0 ∨ p ∈ l := by
  cases l with
  | nil => exact .inl h.2
  | cons x l =>
    rw [h.1]
    exact .inr (.head _)

/-- The links and the zones in the nodes are replaced by their images, and nothing else changes. -/
lemma transitionBlocks_spec (l : List Nat) : ∀ {M : Mem} {b ptr last fuel : Nat},
    Seg m b ptr l last 0 →
    (∀ x ∈ l, ∀ i < 24, M (x + dmapStart + i) = m (x + i)) → b < 2 ^ 48 →
    (∀ x ∈ l, x < 2 ^ 48 ∧ blockZone m x < 2 ^ 48) →
    l.Pairwise (fun x y => x + 24 ≤ y ∨ y + 24 ≤ x) → l.length < fuel →
    ∃ M', transitionBlocks fuel M ptr = .ok M' ∧
      Seg M' (toDmap b) (toDmap ptr) (l.map (· + dmapStart)) (toDmap last) 0 ∧
      (∀ x ∈ l, blockZone M' (x + dmapStart) = toDmap (blockZone m x)) ∧
      ∀ a, (∀ x ∈ l, a ∉ dmapNode x) → M' a = M a := by
  induction l with
  | nil =>
    intro M b ptr last fuel hseg _ _ _ _ hfuel
    obtain ⟨fuel, rfl⟩ := Nat.exists_eq_succ_of_ne_zero hfuel.ne'
    obtain ⟨rfl, rfl⟩ := hseg
    refine ⟨M, rfl, ⟨rfl, rfl⟩, ?_, fun _ _ => rfl⟩
    intro x hx
    cases hx
  | cons x l ih =>
    intro M b ptr last fuel hseg hbytes hb hlow hapart hfuel
    obtain ⟨fuel, rfl⟩ := Nat.exists_eq_succ_of_ne_zero (Nat.zero_lt_of_lt hfuel).ne'
    obtain ⟨rfl, hne, hprev, hrest⟩ := hseg
    obtain ⟨hxbytes, hbytes⟩ := List.forall_mem_cons.1 hbytes
    obtain ⟨⟨hxlt, hzonelt⟩, hlow⟩ := List.forall_mem_cons.1 hlow
    obtain ⟨hd, hapart⟩ := List.pairwise_cons.1 hapart
    have hblock := toDmap_of_lt hne hxlt
    have hword : ∀ k, k + 8 ≤ 24 → M.word (ptr + dmapStart + k) = m.word (ptr + k) := by
      intro k hk
      refine Mem.word_eq_of_bytes fun i hi => ?_
      rw [add_assoc _ k, add_assoc _ k]
      exact hxbytes (k + i) (by omega)
    have hnextlt : next m ptr < 2 ^ 48 := by
      rcases Seg.first_cases hrest with hzero | hmem
      · rw [hzero]
        decide
      · exact (hlow _ hmem).1
    have hfields := transitionBlock_fields M (ptr + dmapStart)
    rw [show next M (ptr + dmapStart) = next m ptr from hword 0 (by decide),
      show prev M (ptr + dmapStart) = b from (hword 8 (by decide)).trans hprev,
      show blockZone M (ptr + dmapStart) = blockZone m ptr from hword 16 (by decide)] at hfields
    obtain ⟨hnext', hprev', hzone'⟩ :=
      hfields (toDmap_lt hnextlt) (toDmap_lt hb) (toDmap_lt hzonelt)
    have hother : ∀ y ∈ l, ∀ i < 24,
        transitionBlock M (ptr + dmapStart) (y + dmapStart + i) = m (y + i) := by
      intro y hy i hi
      rw [← hbytes y hy i hi]
      have := hd y hy
      exact transitionBlock_apply (by omega)
    obtain ⟨M', hM', hseg', hzones, hframe⟩ := ih hrest hother hxlt hlow hapart
      (show l.length < fuel by simpa using hfuel)
    have hsame : ∀ k, k + 8 ≤ 24 → M'.word (ptr + dmapStart + k) =
        (transitionBlock M (ptr + dmapStart)).word (ptr + dmapStart + k) := by
      intro k hk
      refine Mem.word_congr fun a ha => hframe a fun y hy hmem => ?_
      have hle := ha.1
      have hlt := ha.2
      have hle' := hmem.1
      have hlt' := hmem.2
      have := hd y hy
      omega
    refine ⟨M', ?_, ?_, ?_, ?_⟩
    · rw [transitionBlocks, if_neg hne]
      simp only [hblock]
      rw [show next M (ptr + dmapStart) = next m ptr from hword 0 (by decide)]
      exact hM'
    · rw [hblock] at hseg' ⊢
      refine ⟨rfl, ?_, (hsame 8 (by decide)).trans hprev', ?_⟩
      · exact Nat.ne_of_gt (Nat.add_pos_left (Nat.pos_of_ne_zero hne) _)
      · dsimp only
        rw [show next M' (ptr + dmapStart) = toDmap (next m ptr) from
          (hsame 0 (by decide)).trans hnext']
        exact hseg'
    · refine List.forall_mem_cons.2 ⟨?_, hzones⟩
      exact (hsame 16 (by decide)).trans hzone'
    · intro a ha
      obtain ⟨hxa, ha⟩ := List.forall_mem_cons.1 ha
      rw [hframe a ha]
      refine transitionBlock_apply ?_
      by_contra hin
      exact hxa ⟨by omega, by omega⟩

end Blocks

/-! ### All lists -/

/-- The nodes of the lists in memory `m`: they start pages below `2 ^ 48`, their zones are below it
too, and no node is in two lists. -/
structure LowNodes (m : Mem) (lists : Nat → List Nat) : Prop where
  page : ∀ k x, x ∈ lists k → ∃ p, x = p * pageSize ∧ x < 2 ^ 48
  zone : ∀ k x, x ∈ lists k → blockZone m x < 2 ^ 48
  one : ∀ k k' x, x ∈ lists k → x ∈ lists k' → k = k'
  nodup : ∀ k < maxOrder, (lists k).Nodup

namespace LowNodes

variable {m : Mem} {lists : Nat → List Nat} (h : LowNodes m lists) {k k' x y : Nat}

include h

lemma add_lt (hx : x ∈ lists k) {i : Nat} (hi : i < pageSize) : x + i < 2 ^ 48 := by
  obtain ⟨p, rfl, hlt⟩ := h.page k x hx
  have hp : p < 2 ^ 34 := Nat.lt_of_mul_lt_mul_right (a := pageSize) hlt
  calc
    p * pageSize + i < p * pageSize + pageSize := Nat.add_lt_add_left hi _
    _ = (p + 1) * pageSize := (Nat.succ_mul p pageSize).symm
    _ ≤ 2 ^ 34 * pageSize := Nat.mul_le_mul_right _ hp

lemma apart (hx : x ∈ lists k) (hy : y ∈ lists k') (hne : x ≠ y) : x + 24 ≤ y ∨ y + 24 ≤ x := by
  obtain ⟨p, rfl, -⟩ := h.page k x hx
  obtain ⟨q, rfl, -⟩ := h.page k' y hy
  have hpq : p ≠ q := by
    rintro rfl
    exact hne rfl
  rw [pageSize_eq]
  omega

lemma notMem_dmapNode (hx : x ∈ lists k) (hy : y ∈ lists k') (hne : x ≠ y) {i : Nat}
    (hi : i < 24) : y + dmapStart + i ∉ dmapNode x := by
  rintro ⟨hle, hlt⟩
  have := h.apart hx hy hne
  omega

lemma pairwise (hk : k < maxOrder) : (lists k).Pairwise fun x y => x + 24 ≤ y ∨ y + 24 ≤ x :=
  (h.nodup k hk).imp_of_mem fun hx hy hne => h.apart hx hy hne

end LowNodes

/-- The list of an order after the transition. -/
structure MovedList (m : Mem) (l : List Nat) (M : Mem) (head : Nat) : Prop where
  isList : IsList M head (l.map (· + dmapStart))
  zone : ∀ x ∈ l, blockZone M (x + dmapStart) = toDmap (blockZone m x)

lemma MovedList.congr {m M M' : Mem} {l : List Nat} {head : Nat} (h : MovedList m l M head)
    (hM : ∀ x ∈ l, Set.EqOn M M' (dmapNode x)) : MovedList m l M' head where
  isList := by
    refine h.isList.congr fun y hy => ?_
    obtain ⟨x, hx, rfl⟩ := List.mem_map.1 hy
    refine (hM x hx).mono fun a ha => ?_
    exact ⟨ha.1, by have := ha.2; omega⟩
  zone := by
    intro x hx
    rw [← h.zone x hx]
    refine (Mem.word_congr fun a ha => hM x hx ?_).symm
    exact ⟨by have := ha.1; omega, by have := ha.2; omega⟩

/-- The states differ in the lists and the memory only. -/
structure SameRest (s t : State) : Prop where
  zoneHead : t.zoneHead = s.zoneHead
  totalPages : t.totalPages = s.totalPages
  allocatedPages : t.allocatedPages = s.allocatedPages
  lowestAddress : t.lowestAddress = s.lowestAddress

lemma SameRest.trans {s r t : State} (h : SameRest s r) (h' : SameRest r t) : SameRest s t where
  zoneHead := h'.zoneHead.trans h.zoneHead
  totalPages := h'.totalPages.trans h.totalPages
  allocatedPages := h'.allocatedPages.trans h.allocatedPages
  lowestAddress := h'.lowestAddress.trans h.lowestAddress

namespace State

lemma transitionArea_spec {m : Mem} {lists : Nat → List Nat} (hnodes : LowNodes m lists)
    {s : State} {k fuel : Nat} (hk : k < maxOrder) (hlist : IsList m (s.freeArea k) (lists k))
    (hbytes : ∀ x ∈ lists k, ∀ i < 24, s.mem (x + dmapStart + i) = m (x + i))
    (hfuel : (lists k).length < fuel) :
    ∃ t, transitionArea fuel s k = .ok t ∧
      SameRest s t ∧
      t.freeArea = update s.freeArea k (toDmap (s.freeArea k)) ∧
      MovedList m (lists k) t.mem (toDmap (s.freeArea k)) ∧
      ∀ a, (∀ x ∈ lists k, a ∉ dmapNode x) → t.mem a = s.mem a := by
  obtain ⟨last, hseg⟩ := hlist.seg
  have hlow : ∀ x ∈ lists k, x < 2 ^ 48 ∧ blockZone m x < 2 ^ 48 := by
    intro x hx
    obtain ⟨-, -, hlt⟩ := hnodes.page k x hx
    exact ⟨hlt, hnodes.zone k x hx⟩
  obtain ⟨M, hM, hseg', hzone, hframe⟩ := transitionBlocks_spec (lists k) hseg hbytes
    (by decide) hlow (hnodes.pairwise hk) hfuel
  refine ⟨{ s with
    freeArea := update s.freeArea k (toDmap (s.freeArea k))
    mem := M }, ?_, ⟨rfl, rfl, rfl, rfl⟩, rfl, ⟨⟨⟨_, hseg'⟩, ?_, ?_⟩, hzone⟩, hframe⟩
  · rw [transitionArea, hM]
    rfl
  · rw [List.pairwise_map]
    refine hlist.apart.imp fun happart => ?_
    unfold Apart at happart ⊢
    omega
  · intro y hy
    obtain ⟨x, hx, rfl⟩ := List.mem_map.1 hy
    have := (hlow x hx).1
    rw [dmapStart_eq]
    omega

lemma transitionAreas_spec {m : Mem} {lists : Nat → List Nat} (hnodes : LowNodes m lists)
    {fuel : Nat} (hfuel : ∀ k < maxOrder, (lists k).length < fuel) (n : Nat) :
    ∀ {s : State}, n ≤ maxOrder →
    (∀ k, maxOrder - n ≤ k → k < maxOrder → IsList m (s.freeArea k) (lists k)) →
    (∀ k, maxOrder - n ≤ k → k < maxOrder → ∀ x ∈ lists k, ∀ i < 24,
      s.mem (x + dmapStart + i) = m (x + i)) →
    ∃ t, transitionAreas fuel n s = .ok t ∧
      SameRest s t ∧
      (∀ k, maxOrder - n ≤ k → k < maxOrder →
        t.freeArea k = toDmap (s.freeArea k) ∧ MovedList m (lists k) t.mem (t.freeArea k)) ∧
      (∀ k < maxOrder - n, t.freeArea k = s.freeArea k) ∧
      ∀ a, (∀ k, maxOrder - n ≤ k → k < maxOrder → ∀ x ∈ lists k, a ∉ dmapNode x) →
        t.mem a = s.mem a := by
  induction n with
  | zero =>
    intro s _ _ _
    refine ⟨s, rfl, ⟨rfl, rfl, rfl, rfl⟩, ?_, fun _ _ => rfl, fun _ _ => rfl⟩
    intro k hle hlt
    omega
  | succ n ih =>
    intro s hn hlists hbytes
    have hlt : maxOrder - (n + 1) < maxOrder := by omega
    obtain ⟨r, hr, hrest, harea, hmoved, hframe⟩ := transitionArea_spec hnodes hlt
      (hlists _ le_rfl hlt) (hbytes _ le_rfl hlt) (hfuel _ hlt)
    have hareas : ∀ k ≠ maxOrder - (n + 1), r.freeArea k = s.freeArea k := by
      intro k hk
      rw [harea, update_of_ne hk]
    -- the nodes of the other lists are in other pages
    have hother : ∀ k ≠ maxOrder - (n + 1), ∀ x ∈ lists k, ∀ i < 24,
        r.mem (x + dmapStart + i) = s.mem (x + dmapStart + i) := by
      intro k hk x hx i hi
      refine hframe _ fun y hy => hnodes.notMem_dmapNode hy hx ?_ hi
      rintro rfl
      exact hk (hnodes.one _ _ _ hx hy)
    obtain ⟨t, ht, hrest', hmoved', hkept, hframe'⟩ := ih (by omega)
      (fun k hle hk => by
        rw [hareas k (by omega)]
        exact hlists k (by omega) hk)
      (fun k hle hk x hx i hi => by
        rw [hother k (by omega) x hx i hi]
        exact hbytes k (by omega) hk x hx i hi)
    have hfirst : t.freeArea (maxOrder - (n + 1)) =
        toDmap (s.freeArea (maxOrder - (n + 1))) := by
      rw [hkept _ (by omega), harea, update_self]
    refine ⟨t, ?_, hrest.trans hrest', ?_, ?_, ?_⟩
    · rw [transitionAreas, hr]
      exact ht
    · intro k hle hk
      by_cases hkn : k = maxOrder - (n + 1)
      · subst hkn
        refine ⟨hfirst, ?_⟩
        rw [hfirst]
        refine hmoved.congr fun x hx a ha => (hframe' a fun k' hle' hk' y hy ha' => ?_).symm
        have hne : y ≠ x := by
          rintro rfl
          have := hnodes.one _ _ _ hx hy
          omega
        obtain ⟨i, rfl⟩ := Nat.exists_eq_add_of_le ha.1
        exact hnodes.notMem_dmapNode hy hx hne (Nat.add_lt_add_iff_left.1 ha.2) ha'
      · rw [← hareas k hkn]
        exact hmoved' k (by omega) hk
    · intro k hk
      rw [hkept k (by omega), hareas k (by omega)]
    · intro a ha
      rw [hframe' a fun k hle hk => ha k (by omega) hk]
      exact hframe a (ha _ le_rfl hlt)

/-! ### The transition -/

/-- The state after the transition, for a layout before. -/
structure Moved (s : State) (L : Layout) (t : State) : Prop where
  chain : ZoneChain t.mem t.zoneHead (L.zones.map Zone.toDmap)
  lists : ∀ k < maxOrder, MovedList s.mem (L.lists k) t.mem (t.freeArea k)
  zoneHead : t.zoneHead = toDmap s.zoneHead
  freeArea : ∀ k < maxOrder, t.freeArea k = toDmap (s.freeArea k)
  totalPages : t.totalPages = s.totalPages
  allocatedPages : t.allocatedPages = s.allocatedPages
  lowestAddress : t.lowestAddress = toDmap s.lowestAddress
  isDmap : t.isDmap = true
  bytes : ∀ a, (∀ z ∈ L.zones, a ∉ z.dmapHeader) →
    (∀ k < maxOrder, ∀ x ∈ L.lists k, a ∉ dmapNode x) → t.mem a = s.mem (dmapAddrToPhys a)

section Transition

variable {s t : State} {L : Layout} {z : Zone}

lemma Inv.lowNodes (hI : s.Inv L) (hlow : ∀ z ∈ L.zones, z.stop ≤ 2 ^ 48) :
    LowNodes s.mem L.lists where
  page := by
    intro k x hx
    obtain ⟨p, rfl, hown⟩ := (hI.listed k x).1 hx
    obtain ⟨z, hz, hfits⟩ := hI.fits p _ hown
    have hpage := (hfits.hasPage (start_mem_span _)).2
    have hstop := hlow z hz
    rw [Zone.stop, pageSize_eq] at *
    exact ⟨p, rfl, by dsimp only at hpage; omega⟩
  zone := by
    intro k x hx
    obtain ⟨z, hz, -, -, -, -, -, hzone, -⟩ := hI.exists_node hx
    rw [hzone]
    have := ((hI.wf z hz).low (hlow z hz)).2.2.1
    omega
  one := by
    intro k k' x hx hx'
    obtain ⟨p, rfl, hown⟩ := (hI.listed k x).1 hx
    obtain ⟨q, hq, hown'⟩ := (hI.listed k' _).1 hx'
    rw [← eq_of_mul_pageSize hq, hown] at hown'
    cases hown'
    rfl
  nodup := fun k hk => (hI.lists k hk).nodup

/-- A byte of a node is not in the reserved part of a zone. -/
lemma Inv.node_notMem_reserved (hI : s.Inv L) (hz : z ∈ L.zones) {k x i : Nat}
    (hx : x ∈ L.lists k) (hi : i < pageSize) : x + i ∉ z.reserved := by
  obtain ⟨p, rfl, hown⟩ := (hI.listed k x).1 hx
  obtain ⟨y, hy, hfits⟩ := hI.fits p _ hown
  have hpage := hfits.hasPage (start_mem_span _)
  refine hI.notMem_reserved hy hz hpage ?_
  rw [mem_pageBytes, add_mul]
  dsimp only
  omega

lemma Inv.header_notMem_node (hI : s.Inv L) (hz : z ∈ L.zones) {k x a : Nat}
    (hx : x ∈ L.lists k) (ha : a ∈ z.dmapHeader) : a ∉ dmapNode x := by
  rintro ⟨hle, hlt⟩
  obtain ⟨i, rfl⟩ := Nat.exists_eq_add_of_le hle
  obtain ⟨hle', hlt'⟩ := ha
  refine hI.node_notMem_reserved hz hx (i := i) ?_ ?_
  · rw [pageSize_eq]
    omega
  · exact mem_reserved_header (hI.wf z hz) ⟨by omega, by omega⟩

/-- The transition returns with all pointers moved. -/
lemma Inv.transitionDmap (hI : s.Inv L) (hlow : ∀ z ∈ L.zones, z.stop ≤ 2 ^ 48)
    (hdmap : s.isDmap = false) {debug : Bool} {fuel : Nat} (hzones : L.zones.length < fuel)
    (hlists : ∀ k < maxOrder, (L.lists k).length < fuel) :
    ∃ t, s.transitionDmap debug fuel = .ok t ∧ Moved s L t := by
  have hnodes := hI.lowNodes hlow
  have hheader : ∀ z ∈ L.zones, ∀ i < zoneSize,
      atDmap s.mem (z.addr + dmapStart + i) = s.mem (z.addr + i) := by
    intro z hz i hi
    have := ((hI.wf z hz).low (hlow z hz)).2.2.1
    rw [add_right_comm]
    exact atDmap_add (by omega)
  obtain ⟨M, hM, hchain, hframe⟩ := transitionZones_spec L.zones hI.chain hheader hI.wf hlow
    hI.apart hzones
  have hnode : ∀ k x, x ∈ L.lists k → ∀ i < 24, M (x + dmapStart + i) = s.mem (x + i) := by
    intro k x hx i hi
    rw [hframe _ fun z hz ha => hI.header_notMem_node hz hx ha
      ⟨Nat.le_add_right _ _, Nat.add_lt_add_left hi _⟩, add_right_comm]
    exact atDmap_add (hnodes.add_lt hx (hi.trans (by decide)))
  obtain ⟨t, ht, hrest, hmoved, -, hframe'⟩ := transitionAreas_spec hnodes hlists maxOrder
    (s := { s with
      lowestAddress := toDmap s.lowestAddress
      zoneHead := toDmap s.zoneHead
      mem := M }) le_rfl (fun k _ hk => hI.lists k hk) (fun k _ _ x hx => hnode k x hx)
  refine ⟨{ t with isDmap := true }, ?_, ?_⟩
  · rw [State.transitionDmap, hdmap, Bool.and_false, if_neg Bool.false_ne_true, hM]
    rw [hdmap] at ht
    simp only [bind, Except.bind, ht]
  · refine ⟨?_, fun k hk => (hmoved k (Nat.zero_le k) hk).2, hrest.zoneHead,
      fun k hk => (hmoved k (Nat.zero_le k) hk).1, hrest.totalPages, hrest.allocatedPages,
      hrest.lowestAddress, rfl, ?_⟩
    · rw [show ({ t with isDmap := true } : State).zoneHead = toDmap s.zoneHead from hrest.zoneHead]
      refine hchain.congr fun y hy a ha => (hframe' a fun k _ _ x hx => ?_).symm
      obtain ⟨z, hz, rfl⟩ := List.mem_map.1 hy
      exact hI.header_notMem_node hz hx ha
    · intro a hheaders hblocks
      refine (hframe' a fun k _ hk => hblocks k hk).trans ?_
      exact hframe a hheaders

/-! ### The layout after the transition -/

/-- A byte that is not a pointer of a header or of a node is seen as before. -/
lemma Inv.moved_apply (hI : s.Inv L) (hmoved : Moved s L t) (hlow : ∀ z ∈ L.zones, z.stop ≤ 2 ^ 48)
    {a : Nat} (hheader : ∀ z ∈ L.zones, dmapAddrToPhys a ∉ Set.Ico z.addr (z.addr + zoneSize))
    (hnode : ∀ k, ∀ x ∈ L.lists k, dmapAddrToPhys a ∉ Set.Ico x (x + 24)) :
    t.mem a = s.mem (dmapAddrToPhys a) := by
  refine hmoved.bytes a ?_ ?_
  · rintro z hz ⟨hle, hlt⟩
    obtain ⟨-, -, haddr, -⟩ := (hI.wf z hz).low (hlow z hz)
    obtain ⟨i, rfl⟩ := Nat.exists_eq_add_of_le hle
    refine hheader z hz ?_
    rw [add_right_comm, dmapAddrToPhys_add (by omega)]
    exact ⟨Nat.le_add_right _ _, by omega⟩
  · rintro k - x hx ⟨hle, hlt⟩
    obtain ⟨i, rfl⟩ := Nat.exists_eq_add_of_le hle
    have hi : i < 24 := Nat.lt_of_add_lt_add_left hlt
    refine hnode k x hx ?_
    rw [add_right_comm, dmapAddrToPhys_add ((hI.lowNodes hlow).add_lt hx (hi.trans (by decide)))]
    exact ⟨Nat.le_add_right _ _, Nat.add_lt_add_left hi _⟩

/-- The allocator has the layout it had, moved to the direct map. -/
lemma Inv.toDmap (hI : s.Inv L) (hmoved : Moved s L t) (hlow : ∀ z ∈ L.zones, z.stop ≤ 2 ^ 48) :
    t.Inv L.toDmap where
  chain := hmoved.chain
  wf := by
    intro y hy
    obtain ⟨z, hz, rfl⟩ := List.mem_map.1 hy
    exact (hI.wf z hz).toDmap (hlow z hz)
  apart := by
    refine List.pairwise_map.2 (hI.apart.imp_of_mem fun hz hz' hd a ha ha' => ?_)
    exact hd _ (phys_mem_bytes (hI.wf _ hz) (hlow _ hz) ha)
      (phys_mem_bytes (hI.wf _ hz') (hlow _ hz') ha')
  consistent := shift_consistent hI.consistent
  fits := by
    intro p b hb
    obtain ⟨q, c, rfl, rfl, hc⟩ := owner_shift_eq_some hb
    obtain ⟨z, hz, hfits⟩ := hI.fits q c hc
    exact ⟨z.toDmap, List.mem_map_of_mem hz, (fitsIn_shift movesPages_toDmap).2 hfits⟩
  metas := by
    intro y hy i hi b hb
    obtain ⟨z, hz, rfl⟩ := List.mem_map.1 hy
    rw [show z.toDmap.first + i = z.first + i + dmapPages from add_right_comm _ _ _] at hb
    rw [Layout.toDmap, owner_shift_add, Option.map_eq_some_iff] at hb
    obtain ⟨c, hc, rfl⟩ := hb
    have hi' : i < z.totalPages := hi
    have hphys := (hI.wf z hz).phys_metaArray (hlow z hz) hi'
    have hreserved := mem_reserved_meta hi'
    rw [← hphys] at hreserved
    rw [byte_shift, ← hI.metas z hz i hi c hc, ← hphys]
    refine hI.moved_apply hmoved hlow ?_ ?_
    · intro y hy hmem
      by_cases heq : y = z
      · subst heq
        have hroom := (hI.wf y hz).room
        have hle := hmem.1
        omega
      · exact hI.reserved_notMem hz hy (Ne.symm heq) hreserved
          (mem_reserved_header (hI.wf y hy) hmem)
    · rintro k x hx ⟨hle, hlt⟩
      obtain ⟨j, hj⟩ := Nat.exists_eq_add_of_le hle
      rw [hj] at hreserved hlt
      exact hI.node_notMem_reserved hz hx (by rw [pageSize_eq]; omega) hreserved
  lists := by
    intro k hk
    exact (hmoved.lists k hk).isList
  listed := by
    intro k x
    rw [Layout.toDmap, lists_shift, List.mem_map]
    constructor
    · rintro ⟨y, hy, rfl⟩
      obtain ⟨p, rfl, hown⟩ := (hI.listed k y).1 hy
      exact ⟨p + dmapPages, (add_mul _ _ _).symm,
        owner_shift_add_iff (b := ⟨p, k, true⟩) |>.2 hown⟩
    · rintro ⟨p, rfl, hown⟩
      obtain ⟨q, ⟨start, o, free⟩, rfl, hb, hc⟩ := owner_shift_eq_some hown
      rw [shift_mk, Block.mk.injEq] at hb
      obtain ⟨hstart, rfl, rfl⟩ := hb
      obtain rfl := Nat.add_right_cancel hstart
      exact ⟨q * pageSize, (hI.listed k _).2 ⟨q, rfl, hc⟩, (add_mul _ _ _).symm⟩
  nodes := by
    intro y hy i hi o hown
    obtain ⟨z, hz, rfl⟩ := List.mem_map.1 hy
    have hfirst : z.toDmap.first + i = z.first + i + dmapPages := add_right_comm _ _ _
    rw [hfirst] at hown ⊢
    have hown' := owner_shift_add_iff (b := ⟨z.first + i, o, true⟩) |>.1 hown
    have hi' : i < z.totalPages := hi
    obtain ⟨hzone, hindex⟩ := hI.nodes z hz i hi' o hown'
    have hlist : (z.first + i) * pageSize ∈ L.lists o := (hI.listed o _).2 ⟨_, rfl, hown'⟩
    have hfits := hI.fitsIn hz ⟨by omega, by omega⟩ hown'
    obtain ⟨-, hne, haddr, -⟩ := (hI.wf z hz).low (hlow z hz)
    rw [add_mul, dmapPages_mul]
    constructor
    · rw [(hmoved.lists o hfits.order_lt).zone _ hlist, hzone, toDmap_of_lt hne (by omega)]
      rfl
    · refine Eq.trans (Mem.word_eq_of_bytes fun j hj => ?_) hindex
      have hnodes := hI.lowNodes hlow
      have hbyte : 24 + j < pageSize := by
        rw [pageSize_eq]
        omega
      have hphys := dmapAddrToPhys_add (hnodes.add_lt hlist hbyte)
      rw [add_assoc ((z.first + i) * pageSize) 24 j, add_assoc _ 24 j, add_right_comm _ dmapStart]
      rw [hI.moved_apply hmoved hlow ?_ ?_, hphys]
      · intro y hy hmem
        rw [hphys] at hmem
        exact hI.node_notMem_reserved hy hlist hbyte (mem_reserved_header (hI.wf y hy) hmem)
      · intro k x hx hmem
        rw [hphys] at hmem
        obtain ⟨hle, hlt⟩ := hmem
        obtain ⟨q, rfl, -⟩ := hnodes.page k x hx
        rw [pageSize_eq] at hle hlt
        omega

end Transition

end State

end Mars.Pm
