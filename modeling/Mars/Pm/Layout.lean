import Mars.Lib.Ownership
import Mars.Pm.Basic
import Mathlib.Order.Interval.Finset.Nat
import Mathlib.Tactic.IntervalCases

/-!
# Zones, blocks and the invariant of the page allocator

A layout says which zones there are, which block every page belongs to and which free blocks are in
the list of each order; pages are numbered through the whole memory. The invariant relates a layout
to the memory. While the allocator works on a block, its pages belong to nobody.
-/

namespace Mars.Pm

open Lib Lib.DList Lib.Ownership Vm

lemma pageSize_eq : pageSize = 16384 := rfl

lemma eq_of_mul_pageSize {p q : Nat} (h : p * pageSize = q * pageSize) : p = q :=
  Nat.eq_of_mul_eq_mul_right (by decide) h

/-! ### Zones -/

structure Zone where
  /-- The address of the header. -/
  addr : Nat
  metaArray : Nat
  /-- The number of the first data page. -/
  first : Nat
  totalPages : Nat
deriving DecidableEq

namespace Zone

def dataBase (z : Zone) : Nat := z.first * pageSize

def stop (z : Zone) : Nat := (z.first + z.totalPages) * pageSize

def HasPage (z : Zone) (p : Nat) : Prop := z.first ≤ p ∧ p < z.first + z.totalPages

/-- The meta array and the header fit before the data pages. -/
structure Wf (z : Zone) : Prop where
  pos : 0 < z.totalPages
  room : z.metaArray + z.totalPages ≤ z.addr
  header : z.addr + zoneSize = z.dataBase
  le : z.stop ≤ 2 ^ 64

/-- The bytes of the meta array and of the header. -/
def reserved (z : Zone) : Set Nat :=
  Set.Ico z.metaArray (z.metaArray + z.totalPages) ∪ Set.Ico z.addr z.dataBase

def bytes (z : Zone) : Set Nat := z.reserved ∪ Set.Ico z.dataBase z.stop

def Disjoint (z z' : Zone) : Prop := ∀ a ∈ z.bytes, a ∉ z'.bytes

instance : Std.Symm Disjoint := ⟨fun _ _ h a ha ha' => h a ha' ha⟩

end Zone

/-- The headers of the zones are linked from the pointer `p` on. -/
def ZoneChain (m : Mem) : (p : Nat) → List Zone → Prop
  | p, []      => p = 0
  | p, z :: zs => p = z.addr ∧ zoneMetaArray m z.addr = z.metaArray ∧
      zoneDataBase m z.addr = z.dataBase ∧ zoneTotalPages m z.addr = z.totalPages ∧
      ZoneChain m (zoneNext m z.addr) zs

lemma ZoneChain.fields {m : Mem} {p : Nat} {z : Zone} {zs : List Zone} (h : ZoneChain m p zs)
    (hz : z ∈ zs) :
    zoneMetaArray m z.addr = z.metaArray ∧ zoneDataBase m z.addr = z.dataBase ∧
      zoneTotalPages m z.addr = z.totalPages := by
  induction zs generalizing p with
  | nil => cases hz
  | cons y zs ih =>
    obtain ⟨-, hmeta, hdata, htotal, hrest⟩ := h
    rcases List.mem_cons.1 hz with rfl | hz
    · exact ⟨hmeta, hdata, htotal⟩
    · exact ih hrest hz

/-! ### Blocks -/

/-- A block of `2 ^ order` pages, free or allocated. -/
structure Block where
  start : Nat
  order : Nat
  free : Bool
deriving DecidableEq

namespace Block

def span (b : Block) : Finset Nat := Finset.Ico b.start (b.start + 2 ^ b.order)

def byte (b : Block) : UInt8 :=
  if b.free then UInt8.ofNat b.order ||| freeFlag else UInt8.ofNat b.order

def addr (b : Block) : Nat := b.start * pageSize

/-- The block is at a multiple of its size within the zone. -/
structure FitsIn (b : Block) (z : Zone) : Prop where
  order_lt : b.order < maxOrder
  first_le : z.first ≤ b.start
  le_stop : b.start + 2 ^ b.order ≤ z.first + z.totalPages
  aligned : 2 ^ b.order ∣ b.start - z.first

variable {b c : Block} {z : Zone} {p : Nat}

lemma mem_span : p ∈ b.span ↔ b.start ≤ p ∧ p < b.start + 2 ^ b.order := Finset.mem_Ico

lemma start_mem_span (b : Block) : b.start ∈ b.span :=
  mem_span.2 ⟨Nat.le_refl _, Nat.lt_add_of_pos_right (Nat.two_pow_pos _)⟩

lemma FitsIn.hasPage (h : b.FitsIn z) (hp : p ∈ b.span) : z.HasPage p := by
  obtain ⟨hle, hlt⟩ := mem_span.1 hp
  exact ⟨h.first_le.trans hle, hlt.trans_le h.le_stop⟩

/-- A block given by its index in the zone. -/
lemma fitsIn_iff {i o : Nat} {free : Bool} : (⟨z.first + i, o, free⟩ : Block).FitsIn z ↔
    o < maxOrder ∧ i + 2 ^ o ≤ z.totalPages ∧ 2 ^ o ∣ i := by
  constructor
  · rintro ⟨horder, -, hle, hal⟩
    rw [Nat.add_sub_cancel_left] at hal
    dsimp only at hle
    exact ⟨horder, by omega, hal⟩
  · rintro ⟨horder, hle, hal⟩
    refine ⟨horder, Nat.le_add_right _ _, ?_, ?_⟩
    · dsimp only
      omega
    · rwa [Nat.add_sub_cancel_left]

/-- The tests of `free_pages` and `free_block_in_zone` read the block off its meta byte. -/
lemma flag_eq_zero_iff (hb : b.order < maxOrder) : b.byte &&& freeFlag = 0 ↔ b.free = false := by
  obtain ⟨start, order, free⟩ := b
  have hkey : ∀ o < 11, (UInt8.ofNat o ||| 0x80) &&& 0x80 ≠ 0 ∧ UInt8.ofNat o &&& 0x80 = 0 := by
    decide
  obtain ⟨hfree, hlive⟩ := hkey order hb
  cases free
  · simpa [byte, freeFlag] using hlive
  · simpa [byte, freeFlag] using hfree

lemma order_of_byte (hb : b.order < maxOrder) : b.byte &&& ~~~freeFlag = UInt8.ofNat b.order := by
  obtain ⟨start, order, free⟩ := b
  have hkey : ∀ o < 11, (UInt8.ofNat o ||| 0x80) &&& ~~~0x80 = UInt8.ofNat o ∧
      UInt8.ofNat o &&& ~~~0x80 = UInt8.ofNat o := by
    decide
  obtain ⟨hfree, hlive⟩ := hkey order hb
  cases free
  · exact hlive
  · exact hfree

/-- Blocks of the same order that share a page and are in the same zone are at the same place. -/
lemma FitsIn.start_eq (h : b.FitsIn z) (hp : p ∈ b.span) (hz : z.first ≤ p)
    (hal : 2 ^ b.order ∣ p - z.first) : b.start = p := by
  obtain ⟨hle, hlt⟩ := mem_span.1 hp
  obtain ⟨k, hk⟩ := h.aligned
  obtain ⟨l, hl⟩ := hal
  have hfirst := h.first_le
  have hkl : k = l := by
    refine le_antisymm ?_ ?_
    · refine Nat.le_of_mul_le_mul_left ?_ (Nat.two_pow_pos b.order)
      omega
    · refine Nat.le_of_lt_succ (Nat.lt_of_mul_lt_mul_left (a := 2 ^ b.order) ?_)
      rw [Nat.mul_succ]
      omega
  subst hkl
  omega

end Block

/-! ### Layouts -/

structure Layout where
  zones : List Zone
  owner : Nat → Option Block
  /-- The addresses of the free blocks of each order. -/
  lists : Nat → List Nat

namespace Layout

variable (L : Layout)

/-- A page of a zone that belongs to no block. -/
def Vacant (p : Nat) : Prop := (∃ z ∈ L.zones, z.HasPage p) ∧ L.owner p = none

def Live (p order : Nat) : Prop := L.owner p = some ⟨p, order, false⟩

def remove (b : Block) : Layout :=
  { L with
    owner := release Block.span L.owner b
    lists := Function.update L.lists b.order ((L.lists b.order).erase b.addr) }

def insert (b : Block) : Layout :=
  { L with
    owner := assign Block.span L.owner b
    lists := Function.update L.lists b.order (b.addr :: L.lists b.order) }

end Layout

/-- The memory and the heads of the lists are as the layout says. -/
structure State.Inv (s : State) (L : Layout) : Prop where
  chain : ZoneChain s.mem s.zoneHead L.zones
  wf : ∀ z ∈ L.zones, z.Wf
  apart : L.zones.Pairwise Zone.Disjoint
  consistent : Consistent Block.span L.owner
  fits : ∀ p b, L.owner p = some b → ∃ z ∈ L.zones, b.FitsIn z
  metas : ∀ z ∈ L.zones, ∀ i < z.totalPages, ∀ b, L.owner (z.first + i) = some b →
    s.mem (z.metaArray + i) = b.byte
  lists : ∀ o < maxOrder, IsList s.mem (s.freeArea o) (L.lists o)
  listed : ∀ o x, x ∈ L.lists o ↔ ∃ p, x = p * pageSize ∧ L.owner p = some ⟨p, o, true⟩
  nodes : ∀ z ∈ L.zones, ∀ i < z.totalPages, ∀ o,
    L.owner (z.first + i) = some ⟨z.first + i, o, true⟩ →
    blockZone s.mem ((z.first + i) * pageSize) = z.addr ∧
      blockPageIndex s.mem ((z.first + i) * pageSize) = i

/-! ### The parts of the memory -/

def pageBytes (p : Nat) : Set Nat := Set.Ico (p * pageSize) ((p + 1) * pageSize)

lemma mem_pageBytes {p a : Nat} : a ∈ pageBytes p ↔ p * pageSize ≤ a ∧ a < (p + 1) * pageSize :=
  Iff.rfl

lemma eq_of_mem_pageBytes {p q a : Nat} (hp : a ∈ pageBytes p) (hq : a ∈ pageBytes q) : p = q := by
  rw [mem_pageBytes, pageSize_eq] at hp hq
  omega

lemma links_subset (p : Nat) : links (p * pageSize) ⊆ pageBytes p := by
  intro a ha
  rw [mem_links] at ha
  rw [mem_pageBytes, pageSize_eq] at *
  omega

/-- The words after the links of a node. -/
def tailBytes (p : Nat) : Set Nat := Set.Ico (p * pageSize + 16) (p * pageSize + 32)

lemma tailBytes_subset (p : Nat) : tailBytes p ⊆ pageBytes p := by
  intro a ha
  obtain ⟨hle, hlt⟩ := ha
  rw [mem_pageBytes, pageSize_eq] at *
  omega

lemma notMem_links_of_tailBytes {p q a : Nat} (ha : a ∈ tailBytes p) :
    a ∉ links (q * pageSize) := by
  obtain ⟨hle, hlt⟩ := ha
  rw [mem_links, pageSize_eq] at *
  omega

lemma apart_of_ne {p q : Nat} (hpq : p ≠ q) : Apart (p * pageSize) (q * pageSize) := by
  unfold Apart
  rw [pageSize_eq]
  omega

namespace Zone

variable {z z' : Zone} {p a : Nat}

lemma mem_reserved_meta {i : Nat} (hi : i < z.totalPages) : z.metaArray + i ∈ z.reserved :=
  .inl ⟨Nat.le_add_right _ _, Nat.add_lt_add_left hi _⟩

lemma mem_reserved_header (hz : z.Wf) (ha : a ∈ Set.Ico z.addr (z.addr + zoneSize)) :
    a ∈ z.reserved := by
  rw [hz.header] at ha
  exact .inr ha

lemma dataBase_le_stop (z : Zone) : z.dataBase ≤ z.stop :=
  Nat.mul_le_mul_right _ (Nat.le_add_right _ _)

lemma HasPage.exists_index (h : z.HasPage p) : ∃ i < z.totalPages, p = z.first + i := by
  obtain ⟨i, rfl⟩ := Nat.exists_eq_add_of_le h.1
  exact ⟨i, Nat.lt_of_add_lt_add_left h.2, rfl⟩

lemma page_subset (hp : z.HasPage p) (ha : a ∈ pageBytes p) : z.dataBase ≤ a ∧ a < z.stop := by
  obtain ⟨hle, hlt⟩ := hp
  obtain ⟨ha, ha'⟩ := ha
  constructor
  · exact (Nat.mul_le_mul_right _ hle).trans ha
  · exact ha'.trans_le (Nat.mul_le_mul_right _ hlt)

lemma bytes_of_page (hp : z.HasPage p) (ha : a ∈ pageBytes p) : a ∈ z.bytes :=
  .inr (page_subset hp ha)

lemma metaArray_le_dataBase (hz : z.Wf) : z.metaArray + z.totalPages + zoneSize ≤ z.dataBase := by
  have := hz.room
  have := hz.header
  omega

/-- All bytes of a zone are between its meta array and its end. -/
lemma bytes_subset (hz : z.Wf) (ha : a ∈ z.bytes) : z.metaArray ≤ a ∧ a < z.stop := by
  have hroom := hz.room
  have hheader := hz.header
  have hstop := z.dataBase_le_stop
  rcases ha with (⟨hle, hlt⟩ | ⟨hle, hlt⟩) | ⟨hle, hlt⟩ <;> constructor <;> omega

lemma disjoint_of_ranges (hz : z.Wf) (hz' : z'.Wf)
    (h : z.stop ≤ z'.metaArray ∨ z'.stop ≤ z.metaArray) : z.Disjoint z' := by
  intro a ha ha'
  have hin := bytes_subset hz ha
  have hin' := bytes_subset hz' ha'
  omega

/-- A data page has no byte in common with the reserved part of any zone. -/
lemma page_reserved (hz : z.Wf) (hd : z ≠ z' → z.Disjoint z') (hp : z.HasPage p)
    (ha : a ∈ pageBytes p) : a ∉ z'.reserved := by
  intro ha'
  by_cases heq : z = z'
  · subst heq
    obtain ⟨hle, -⟩ := page_subset hp ha
    have hroom := metaArray_le_dataBase hz
    rcases ha' with ⟨-, hlt⟩ | ⟨-, hlt⟩ <;> omega
  · exact hd heq a (bytes_of_page hp ha) (.inl ha')

lemma eq_of_hasPage (hd : z ≠ z' → z.Disjoint z') (hp : z.HasPage p) (hp' : z'.HasPage p) :
    z = z' := by
  by_contra hne
  have ha : p * pageSize ∈ pageBytes p := ⟨Nat.le_refl _, by rw [pageSize_eq]; omega⟩
  exact hd hne _ (bytes_of_page hp ha) (bytes_of_page hp' ha)

end Zone

/-! ### Consequences of the invariant -/

namespace State.Inv

variable {s : State} {L : Layout} {z z' : Zone} {b : Block} {p q a i o : Nat} (hI : s.Inv L)

include hI

section

variable (hz : z ∈ L.zones) (hz' : z' ∈ L.zones)

include hz hz'

lemma disjoint_of_ne (hne : z ≠ z') : z.Disjoint z' :=
  hI.apart.forall hz hz' hne

lemma zone_eq (hp : z.HasPage p) (hp' : z'.HasPage p) : z = z' :=
  Zone.eq_of_hasPage (hI.disjoint_of_ne hz hz') hp hp'

lemma notMem_reserved (hp : z.HasPage p) (ha : a ∈ pageBytes p) : a ∉ z'.reserved :=
  Zone.page_reserved (hI.wf z hz) (hI.disjoint_of_ne hz hz') hp ha

lemma reserved_notMem (hne : z ≠ z') (ha : a ∈ z.reserved) : a ∉ z'.reserved :=
  fun ha' => hI.disjoint_of_ne hz hz' hne a (.inl ha) (.inl ha')

end

lemma fitsIn (hz : z ∈ L.zones) (hp : z.HasPage p) (hb : L.owner p = some b) : b.FitsIn z := by
  obtain ⟨z', hz', hfits⟩ := hI.fits p b hb
  rw [hI.zone_eq hz hz' hp (hfits.hasPage (hI.consistent.mem hb))]
  exact hfits

lemma owner_start (hb : L.owner p = some b) : L.owner b.start = some b :=
  hI.consistent.eq_of_mem hb b.start_mem_span

lemma mem_lists_iff (hfree : b.free = true) :
    b.addr ∈ L.lists b.order ↔ L.owner b.start = some b := by
  obtain ⟨start, order, free⟩ := b
  cases hfree
  rw [hI.listed]
  constructor
  · rintro ⟨p, hp, hown⟩
    obtain rfl : start = p := eq_of_mul_pageSize hp
    exact hown
  · intro hown
    exact ⟨start, rfl, hown⟩

/-- A block in a list is at a page of a zone, and its node says which one. -/
lemma exists_node {x : Nat} (hx : x ∈ L.lists o) : ∃ z ∈ L.zones, ∃ i < z.totalPages,
    x = (z.first + i) * pageSize ∧ L.owner (z.first + i) = some ⟨z.first + i, o, true⟩ ∧
      (⟨z.first + i, o, true⟩ : Block).FitsIn z ∧
      blockZone s.mem x = z.addr ∧ blockPageIndex s.mem x = i := by
  obtain ⟨p, rfl, hown⟩ := (hI.listed o x).1 hx
  obtain ⟨z, hz, hfits⟩ := hI.fits p _ hown
  obtain ⟨i, hi, rfl⟩ := (hfits.hasPage (Block.start_mem_span _)).exists_index
  exact ⟨z, hz, i, hi, rfl, hown, hfits, hI.nodes z hz i hi o hown⟩

end State.Inv

end Mars.Pm
