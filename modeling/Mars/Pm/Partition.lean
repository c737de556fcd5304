import Mars.Pm.Reach
import Mathlib.Order.CompletePartialOrder

/-!
# The pages are divided among the blocks

In every state of a run the data pages of the zones are divided into blocks. A block is in use, or
its node is in the list of its order; the meta bytes, the lists in memory and the counter say the
same. The free blocks are the largest that the free pages allow.
-/

namespace Mars.Pm

open Lib Lib.Bits Lib.DList Lib.Ownership Vm Mars.Pm.Block

/-- A block in use, or a free block in its list. -/
def IsBlock (A : List Allocation) (ls : Nat → List Nat) (b : Block) : Prop :=
  if b.free then b.order < maxOrder ∧ b.addr ∈ ls b.order else ⟨b.addr, b.order⟩ ∈ A

/-- The zones `zs` are linked from the head, the lists of free blocks are `ls`, and every data page
of a zone belongs to one block. -/
structure Partition (R : List Region) (A : List Allocation) (s : State) (zs : List Zone)
    (ls : Nat → List Nat) : Prop where
  chain : ZoneChain s.mem s.zoneHead zs
  regions : zs.map Zone.region = R
  wf : ∀ z ∈ zs, z.Wf
  lists : ∀ o < maxOrder, IsList s.mem (s.freeArea o) (ls o)
  one_list : ∀ x o o', o < maxOrder → o' < maxOrder → x ∈ ls o → x ∈ ls o' → o = o'
  page : ∀ z ∈ zs, ∀ p, z.HasPage p → ∃! b, p ∈ b.span ∧ IsBlock A ls b
  fits : ∀ b, IsBlock A ls b → ∃ z ∈ zs, b.FitsIn z
  metas : ∀ z ∈ zs, ∀ b, IsBlock A ls b → b.FitsIn z →
    ∀ p ∈ b.span, s.mem (z.metaArray + (p - z.first)) = b.byte
  nodes : ∀ z ∈ zs, ∀ b, IsBlock A ls b → b.FitsIn z → b.free = true →
    blockZone s.mem b.addr = z.addr ∧ blockPageIndex s.mem b.addr = b.start - z.first
  allocated : s.allocatedPages = (A.map fun a => 2 ^ a.order).sum
  apart : A.Pairwise fun a c => Disjoint a.bytes c.bytes
  reserved : ∀ a ∈ A, ∀ z ∈ zs, Disjoint a.bytes z.reserved

namespace Tracks

variable {R : List Region} {A : List Allocation} {s : State} {L : Layout} (h : Tracks R A s L)

include h

lemma isBlock_iff {b : Block} : IsBlock A L.lists b ↔ L.owner b.start = some b := by
  obtain ⟨start, order, free⟩ := b
  cases free with
  | true =>
    rw [IsBlock, if_pos rfl, h.inv.mem_lists_iff rfl, and_iff_right_iff_imp]
    intro hown
    obtain ⟨z, -, hfits⟩ := h.inv.fits _ _ hown
    exact hfits.order_lt
  | false =>
    rw [IsBlock, if_neg Bool.false_ne_true, h.live]
    constructor
    · rintro ⟨p, hp, hlive⟩
      obtain rfl : start = p := eq_of_mul_pageSize hp
      exact hlive
    · intro hown
      exact ⟨start, rfl, hown⟩

lemma page {z : Zone} (hz : z ∈ L.zones) {p : Nat} (hp : z.HasPage p) :
    ∃! b, p ∈ b.span ∧ IsBlock A L.lists b := by
  cases hown : L.owner p with
  | none => exact absurd ⟨⟨z, hz, hp⟩, hown⟩ (h.full p)
  | some b =>
    refine ⟨b, ⟨h.inv.consistent.mem hown, h.isBlock_iff.2 (h.inv.owner_start hown)⟩, ?_⟩
    rintro c ⟨hc, hblock⟩
    have hsame := h.inv.consistent.eq_of_mem (h.isBlock_iff.1 hblock) hc
    rw [hown] at hsame
    exact (Option.some.inj hsame).symm

lemma one_list {x o o' : Nat} (hx : x ∈ L.lists o) (hx' : x ∈ L.lists o') : o = o' := by
  obtain ⟨p, rfl, hown⟩ := (h.inv.listed o x).1 hx
  obtain ⟨q, hq, hown'⟩ := (h.inv.listed o' _).1 hx'
  obtain rfl := eq_of_mul_pageSize hq
  rw [hown] at hown'
  cases hown'
  rfl

/-- Different blocks in use have no byte in common. -/
lemma bytes_disjoint {a c : Allocation} (ha : a ∈ A) (hc : c ∈ A) (hne : a ≠ c) :
    Disjoint a.bytes c.bytes := by
  rw [Set.disjoint_left]
  intro x hx hx'
  obtain ⟨p, hp, hown⟩ := h.records.owner_of_bytes h.inv ha hx
  obtain ⟨q, hq, hown'⟩ := h.records.owner_of_bytes h.inv hc hx'
  obtain rfl := eq_of_mem_pageBytes hp hq
  obtain ⟨i, hi, -⟩ := (h.live a).1 ha
  obtain ⟨j, hj, -⟩ := (h.live c).1 hc
  rw [hown, Allocation.block_eq hi, Allocation.block_eq hj] at hown'
  obtain ⟨addr, order⟩ := a
  obtain ⟨addr', order'⟩ := c
  cases hown'
  exact hne (by rw [Allocation.mk.injEq]; exact ⟨hi.trans hj.symm, rfl⟩)

lemma bytes_reserved {a : Allocation} (ha : a ∈ A) {z : Zone} (hz : z ∈ L.zones) :
    Disjoint a.bytes z.reserved := by
  rw [Set.disjoint_left]
  intro x hx
  obtain ⟨p, hp, hown⟩ := h.records.owner_of_bytes h.inv ha hx
  obtain ⟨y, hy, hfits⟩ := h.inv.fits p _ hown
  exact h.inv.notMem_reserved hy hz (hfits.hasPage (h.inv.consistent.mem hown)) hp

lemma metas {z : Zone} (hz : z ∈ L.zones) {b : Block} (hown : L.owner b.start = some b)
    (hfits : b.FitsIn z) {p : Nat} (hp : p ∈ b.span) :
    s.mem (z.metaArray + (p - z.first)) = b.byte := by
  obtain ⟨hle, hlt⟩ := hfits.hasPage hp
  refine h.inv.metas z hz (p - z.first) (by omega) b ?_
  rw [Nat.add_sub_cancel' hle]
  exact h.inv.consistent.eq_of_mem hown hp

lemma nodes {z : Zone} (hz : z ∈ L.zones) {b : Block} (hown : L.owner b.start = some b)
    (hfits : b.FitsIn z) (hfree : b.free = true) :
    blockZone s.mem b.addr = z.addr ∧ blockPageIndex s.mem b.addr = b.start - z.first := by
  obtain ⟨start, order, free⟩ := b
  cases hfree
  obtain ⟨i, hi, rfl⟩ := (hfits.hasPage (start_mem_span _)).exists_index
  rw [Nat.add_sub_cancel_left]
  exact h.inv.nodes z hz i hi order hown

end Tracks

/-- In every state of a run the data pages are divided among the blocks in use and the free blocks,
and the meta bytes, the lists and the counter agree with that. -/
theorem Reach.partition {R : List Region} {A : List Allocation} {s : State} (h : Reach R A s) :
    ∃ zs ls, Partition R A s zs ls := by
  obtain ⟨L, hL⟩ := h.exists_layout
  refine ⟨L.zones, L.lists, hL.inv.chain, hL.regions, hL.inv.wf, hL.inv.lists, ?_, ?_, ?_, ?_, ?_,
    hL.allocated, ?_, ?_⟩
  · intro x o o' _ _ hx hx'
    exact hL.one_list hx hx'
  · intro z hz p hp
    exact hL.page hz hp
  · intro b hb
    exact hL.inv.fits _ b (hL.isBlock_iff.1 hb)
  · intro z hz b hb hfits p hp
    exact hL.metas hz (hL.isBlock_iff.1 hb) hfits hp
  · intro z hz b hb hfits hfree
    exact hL.nodes hz (hL.isBlock_iff.1 hb) hfits hfree
  · exact hL.nodup.imp_of_mem fun ha hc hne => hL.bytes_disjoint ha hc hne
  · intro a ha z hz
    exact hL.bytes_reserved ha hz

/-- Three pages are added, of which one is reserved; one page is allocated. -/
lemma reach_alloc_page : ∃ s, Reach [⟨pageSize, 4 * pageSize⟩] [⟨2 * pageSize, 0⟩] s := by
  have hrun : ∃ s, (⟨.new, fun _ => 0⟩ : State).addRange true 3 pageSize (4 * pageSize) = .ok s ∧
      (s.allocPages 0).1 = 2 * pageSize := by
    refine ⟨_, rfl, ?_⟩
    decide +kernel
  obtain ⟨s, hs, haddr⟩ := hrun
  have hreach := Reach.alloc 0 (Reach.addRange (.new _) (by decide) (by simp) hs)
  rw [haddr] at hreach
  exact ⟨_, hreach⟩

theorem Reach.partition_of_alloc : ∃ s zs ls,
    Partition [⟨pageSize, 4 * pageSize⟩] [⟨2 * pageSize, 0⟩] s zs ls := by
  obtain ⟨s, hreach⟩ := reach_alloc_page
  exact ⟨s, Reach.partition hreach⟩

/-! ### Coalescing -/

/-- The page belongs to a block that is in one of the lists. -/
def FreePage (ls : Nat → List Nat) (p : Nat) : Prop :=
  ∃ o < maxOrder, ∃ x ∈ ls o, x ≤ p * pageSize ∧ p * pageSize < x + 2 ^ o * pageSize

lemma eq_of_regions {zs zs' : List Zone} (hs : ∀ z ∈ zs, z.Sized) (hs' : ∀ z ∈ zs', z.Sized)
    (h : zs.map Zone.region = zs'.map Zone.region) : zs = zs' := by
  induction zs generalizing zs' with
  | nil => exact (List.map_eq_nil_iff.1 h.symm).symm
  | cons z zs ih =>
    cases zs' with
    | nil => cases h
    | cons z' zs' =>
      rw [List.map_cons, List.map_cons, List.cons.injEq, Zone.region, Zone.region,
        Region.mk.injEq] at h
      obtain ⟨⟨hmeta, hstop⟩, hrest⟩ := h
      obtain ⟨hz, hzs⟩ := List.forall_mem_cons.1 hs
      obtain ⟨hz', hzs'⟩ := List.forall_mem_cons.1 hs'
      rw [hz.eq hz' hmeta hstop, ih hzs hzs' hrest]

namespace Tracks

variable {R : List Region} {A : List Allocation} {s : State} {L : Layout} (h : Tracks R A s L)

include h

lemma freePage_iff {p : Nat} : FreePage L.lists p ↔ ∃ b, L.owner p = some b ∧ b.free = true := by
  constructor
  · rintro ⟨o, -, x, hx, hle, hlt⟩
    obtain ⟨q, rfl, hown⟩ := (h.inv.listed o x).1 hx
    rw [← add_mul] at hlt
    refine ⟨_, h.inv.consistent.eq_of_mem hown (mem_span.2 ⟨?_, ?_⟩), rfl⟩
    · exact Nat.le_of_mul_le_mul_right hle (by decide)
    · exact Nat.lt_of_mul_lt_mul_right hlt
  · rintro ⟨b, hown, hfree⟩
    obtain ⟨z, -, hfits⟩ := h.inv.fits p b hown
    obtain ⟨hle, hlt⟩ := mem_span.1 (h.inv.consistent.mem hown)
    refine ⟨b.order, hfits.order_lt, b.addr,
      (h.inv.mem_lists_iff hfree).2 (h.inv.owner_start hown), ?_, ?_⟩
    · exact Nat.mul_le_mul_right _ hle
    · rw [Block.addr, ← add_mul]
      exact Nat.mul_lt_mul_of_pos_right hlt (by decide)

lemma freeAt_iff {z : Zone} {i o : Nat} :
    L.FreeAt z i o ↔ i < z.totalPages ∧ (z.first + i) * pageSize ∈ L.lists o := by
  refine and_congr_right fun _ => ?_
  exact (h.inv.mem_lists_iff (b := ⟨z.first + i, o, true⟩) rfl).symm

lemma not_buddies {z : Zone} (hz : z ∈ L.zones) {i o : Nat} (ho : o < 10) (hi : i < z.totalPages)
    (hi' : i ^^^ 2 ^ o < z.totalPages) :
    ¬((z.first + i) * pageSize ∈ L.lists o ∧ (z.first + (i ^^^ 2 ^ o)) * pageSize ∈ L.lists o) := by
  rintro ⟨hmem, hmem'⟩
  have hfree := h.freeAt_iff.2 ⟨hi, hmem⟩
  have hfree' := h.freeAt_iff.2 ⟨hi', hmem'⟩
  have hlt := (h.inv.wf z hz).lastPage_le
  obtain ⟨-, -, hal⟩ := fitsIn_iff.1 (h.inv.fitsIn hz ⟨by omega, by omega⟩ hfree.2)
  have hpow : (1 <<< o : Nat) = 2 ^ o := by rw [Nat.shiftLeft_eq, one_mul]
  rcases xor_cases hal (by omega) with ⟨hxor, -, hdvd⟩ | ⟨hxor, -, hdvd⟩
  · rw [hpow] at hxor
    rw [hxor] at hfree'
    exact h.canonical z hz i o (by rw [maxOrder]; omega) hdvd ⟨hfree, hfree'⟩
  · rw [hpow] at hxor hdvd
    rw [hxor] at hfree
    exact h.canonical z hz _ o (by rw [maxOrder]; omega) hdvd ⟨hfree', hfree⟩

lemma allocPages_eq_zero_iff {k : Nat} (hk : k ≤ 10) : (s.allocPages k).1 = 0 ↔
    ¬∃ z ∈ L.zones, ∃ i, 2 ^ k ∣ i ∧ i + 2 ^ k ≤ z.totalPages ∧
      ∀ j < 2 ^ k, FreePage L.lists (z.first + (i + j)) := by
  have hrun : ∀ z i, L.FreeRun z i k ↔ ∀ j < 2 ^ k, FreePage L.lists (z.first + (i + j)) :=
    fun z i => forall₂_congr fun j _ => h.freePage_iff.symm
  simp only [← hrun]
  rw [← h.inv.alloc_eq_none_iff h.canonical (by rw [maxOrder]; omega)]
  rcases h.alloc k with ⟨hnone, hnull⟩ | ⟨p, L', hsome, haddr, hne, -⟩
  · rw [hnone, hnull]
    exact iff_of_true rfl rfl
  · rw [hsome, haddr]
    exact iff_of_false hne (by simp)

/-- Without blocks in use, the free blocks are the largest that fit into the zones. -/
lemma mem_lists_iff_maximal (hA : A = []) {o x : Nat} : x ∈ L.lists o ↔
    ∃ z ∈ L.zones, ∃ i, x = (z.first + i) * pageSize ∧ z.Maximal i o := by
  have hfree : ∀ p b, L.owner p = some b → b.free = true := by
    intro p b hown
    cases hb : b.free with
    | true => rfl
    | false =>
      have hmem := h.isBlock_iff.2 (h.inv.owner_start hown)
      rw [IsBlock, hb, if_neg Bool.false_ne_true, hA] at hmem
      cases hmem
  constructor
  · intro hx
    obtain ⟨z, hz, i, hi, rfl, hown, -⟩ := h.inv.exists_node hx
    refine ⟨z, hz, i, rfl, ?_⟩
    exact (h.inv.freeAt_iff_maximal h.full h.canonical hfree hz).1 ⟨hi, hown⟩
  · rintro ⟨z, hz, i, rfl, hmax⟩
    have hat := (h.inv.freeAt_iff_maximal h.full h.canonical hfree hz).2 hmax
    exact (h.freeAt_iff.1 hat).2

lemma zones_eq {A' : List Allocation} {s' : State} {L' : Layout} (h' : Tracks R A' s' L') :
    L.zones = L'.zones :=
  eq_of_regions h.sized h'.sized (h.regions.trans h'.regions.symm)

end Tracks

/-- No two buddies of an order below 10 are free, an allocation fails only if there is no aligned
run of free pages, and without blocks in use the free blocks are those of every other run that
added the same ranges and has no blocks in use, such as one that only added them. -/
structure Coalesced (R : List Region) (A : List Allocation) (s : State) (zs : List Zone)
    (ls : Nat → List Nat) : Prop where
  chain : ZoneChain s.mem s.zoneHead zs
  regions : zs.map Zone.region = R
  lists : ∀ o < maxOrder, IsList s.mem (s.freeArea o) (ls o)
  buddies : ∀ z ∈ zs, ∀ i o, o < 10 → i < z.totalPages → i ^^^ 2 ^ o < z.totalPages →
    ¬((z.first + i) * pageSize ∈ ls o ∧ (z.first + (i ^^^ 2 ^ o)) * pageSize ∈ ls o)
  null_iff : ∀ k ≤ 10, (s.allocPages k).1 = 0 ↔
    ¬∃ z ∈ zs, ∃ i, 2 ^ k ∣ i ∧ i + 2 ^ k ≤ z.totalPages ∧
      ∀ j < 2 ^ k, FreePage ls (z.first + (i + j))
  restored : A = [] → ∀ s', Reach R [] s' → ∀ o < maxOrder, ∀ l,
    IsList s'.mem (s'.freeArea o) l → ∀ x, x ∈ ls o ↔ x ∈ l

theorem Reach.coalesced {R : List Region} {A : List Allocation} {s : State} (h : Reach R A s) :
    ∃ zs ls, Coalesced R A s zs ls := by
  obtain ⟨L, hL⟩ := h.exists_layout
  refine ⟨L.zones, L.lists, hL.inv.chain, hL.regions, hL.inv.lists, ?_, ?_, ?_⟩
  · intro z hz i o ho hi hi'
    exact hL.not_buddies hz ho hi hi'
  · intro k hk
    exact hL.allocPages_eq_zero_iff hk
  · intro hA s' h' o ho l hl x
    obtain ⟨L', hL'⟩ := h'.exists_layout
    rw [hl.unique (hL'.inv.lists o ho), hL.mem_lists_iff_maximal hA,
      hL'.mem_lists_iff_maximal rfl, hL.zones_eq hL']

theorem Reach.coalesced_of_free : ∃ s fuel s',
    Reach [⟨pageSize, 4 * pageSize⟩] [⟨2 * pageSize, 0⟩] s ∧
    s.freePages true fuel (2 * pageSize) = .ok s' ∧
    ∃ zs ls, Coalesced [⟨pageSize, 4 * pageSize⟩] [] s' zs ls := by
  obtain ⟨s, hreach⟩ := reach_alloc_page
  obtain ⟨L, hL⟩ := hreach.exists_layout
  obtain ⟨s', -, hs', -⟩ := hL.free true (Nat.lt_succ_self _) (.head _)
  have hfree := Reach.free hreach (.head _) hs'
  exact ⟨s, _, s', hreach, hs', Reach.coalesced hfree⟩

end Mars.Pm
