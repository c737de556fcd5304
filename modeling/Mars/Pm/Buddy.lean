import Mars.Pm.Layout

/-!
# The buddy system on layouts

What the operations of the allocator do, said of zones, blocks and lists and not of memory. A
layout is full if every page of a zone belongs to a block; during an operation the pages that
belong to nobody are one hole in one zone.
-/

namespace Mars.Pm

open Lib Lib.Bits Lib.Ownership Vm Mars.Pm.Block

namespace Layout

/-! ### Operations -/

def handOut (L : Layout) (b : Block) : Layout := { L with owner := assign Block.span L.owner b }

def takeBack (L : Layout) (b : Block) : Layout := { L with owner := release Block.span L.owner b }

/-- The upper halves of a block of order `target + n` at `p` become free blocks. -/
def split (p target : Nat) : (n : Nat) → Layout → Layout
  | 0,     L => L
  | n + 1, L => split p target n (L.insert ⟨p + 2 ^ (target + n), target + n, true⟩)

/-- A block of order `target` is cut off the free block of order `order` at `p`. -/
def take (L : Layout) (p order target : Nat) : Layout :=
  (split p target (order - target) (L.remove ⟨p, order, true⟩)).handOut ⟨p, target, false⟩

def allocFrom (L : Layout) (target : Nat) : (n : Nat) → Option (Nat × Layout)
  | 0     => none
  | n + 1 =>
    match L.lists (maxOrder - (n + 1)) with
    | x :: _ => some (x / pageSize, L.take (x / pageSize) (maxOrder - (n + 1)) target)
    | []     => L.allocFrom target n

/-- The page of the new block, if there is one. -/
def alloc (L : Layout) (target : Nat) : Option (Nat × Layout) :=
  if maxOrder ≤ target then none else L.allocFrom target (maxOrder - target)

/-- Whether the buddy of a block is a free block of the same order. -/
def isFree (L : Layout) (z : Zone) (index order : Nat) : Bool :=
  index + 2 ^ order ≤ z.totalPages &&
    L.owner (z.first + index) == some ⟨z.first + index, order, true⟩

/-- The block at `index` of the zone is merged with its buddies, at most `n` times. -/
def merge (z : Zone) : (n : Nat) → Layout → (index order : Nat) → Layout × Nat × Nat
  | 0,     L, index, order => (L, index, order)
  | n + 1, L, index, order =>
    let buddy := index ^^^ (1 <<< order)
    if L.isFree z buddy order then
      merge z n (L.remove ⟨z.first + buddy, order, true⟩) (index &&& complement (1 <<< order))
        (order + 1)
    else (L, index, order)

def free (L : Layout) (z : Zone) (p order : Nat) : Layout :=
  let merged := merge z (maxOrder - 1 - order) (L.takeBack ⟨p, order, false⟩) (p - z.first) order
  merged.1.insert ⟨z.first + merged.2.1, merged.2.2, true⟩

/-- The pages of a zone from `current` on are divided into free blocks. -/
def carve (z : Zone) : (rounds : Nat) → Layout → (current : Nat) → Layout
  | 0,          L, _       => L
  | rounds + 1, L, current =>
    if current < z.totalPages then
      let order := State.carveOrder z.totalPages current
      carve z rounds (L.insert ⟨z.first + current, order, true⟩) (current + 2 ^ order)
    else L

def addZone (L : Layout) (z : Zone) : Layout :=
  carve z z.totalPages { L with zones := z :: L.zones } 0

/-! ### Vacant pages -/

/-- Every page of a zone belongs to a block. -/
def Full (L : Layout) : Prop := ∀ p, ¬L.Vacant p

/-- The pages that belong to nobody are the `n` pages from `index` on. -/
def Hole (L : Layout) (z : Zone) (index n : Nat) : Prop :=
  ∀ p, L.Vacant p ↔ z.first + index ≤ p ∧ p < z.first + index + n

variable {L : Layout} {z : Zone} {b : Block} {p i n o : Nat}

lemma vacant_insert : (L.insert b).Vacant p ↔ L.Vacant p ∧ p ∉ b.span := by
  simp only [Vacant, insert, assign_eq_none_iff, and_assoc, and_comm (a := p ∉ b.span)]

lemma vacant_handOut : (L.handOut b).Vacant p ↔ L.Vacant p ∧ p ∉ b.span := by
  simp only [Vacant, handOut, assign_eq_none_iff, and_assoc, and_comm (a := p ∉ b.span)]

lemma vacant_remove (hz : z ∈ L.zones) (hb : b.FitsIn z) :
    (L.remove b).Vacant p ↔ L.Vacant p ∨ p ∈ b.span := by
  simp only [Vacant, remove, release_eq_none_iff]
  constructor
  · rintro ⟨hp, hmem | hnone⟩
    · exact .inr hmem
    · exact .inl ⟨hp, hnone⟩
  · rintro (⟨hp, hnone⟩ | hmem)
    · exact ⟨hp, .inr hnone⟩
    · exact ⟨⟨z, hz, hb.hasPage hmem⟩, .inl hmem⟩

lemma vacant_takeBack (hz : z ∈ L.zones) (hb : b.FitsIn z) :
    (L.takeBack b).Vacant p ↔ L.Vacant p ∨ p ∈ b.span :=
  vacant_remove hz hb

lemma Full.hole_remove (hfull : L.Full) (hz : z ∈ L.zones)
    (hb : (⟨z.first + i, o, true⟩ : Block).FitsIn z) :
    (L.remove ⟨z.first + i, o, true⟩).Hole z i (2 ^ o) := by
  intro p
  rw [vacant_remove hz hb, or_iff_right (hfull p), mem_span]

lemma Full.hole_takeBack (hfull : L.Full) (hz : z ∈ L.zones)
    (hb : (⟨z.first + i, o, false⟩ : Block).FitsIn z) :
    (L.takeBack ⟨z.first + i, o, false⟩).Hole z i (2 ^ o) := by
  intro p
  rw [vacant_takeBack hz hb, or_iff_right (hfull p), mem_span]

lemma Hole.full_handOut (h : L.Hole z i (2 ^ o)) : (L.handOut ⟨z.first + i, o, false⟩).Full := by
  intro p
  rw [vacant_handOut, h, mem_span]
  exact fun ⟨hin, hout⟩ => hout hin

lemma Hole.full_insert (h : L.Hole z i (2 ^ o)) : (L.insert ⟨z.first + i, o, true⟩).Full := by
  intro p
  rw [vacant_insert, h, mem_span]
  exact fun ⟨hin, hout⟩ => hout hin

lemma Hole.full (h : L.Hole z i 0) : L.Full := by
  intro p hp
  have := (h p).1 hp
  omega

lemma Hole.insert_lower (h : L.Hole z i n) (hle : 2 ^ o ≤ n) :
    (L.insert ⟨z.first + i, o, true⟩).Hole z (i + 2 ^ o) (n - 2 ^ o) := by
  intro p
  have hpos := Nat.two_pow_pos o
  rw [vacant_insert, h, mem_span]
  dsimp only
  omega

lemma Hole.insert_upper (h : L.Hole z i (2 ^ (o + 1))) :
    (L.insert ⟨z.first + i + 2 ^ o, o, true⟩).Hole z i (2 ^ o) := by
  intro p
  rw [vacant_insert, h, mem_span, pow_succ]
  dsimp only
  omega

lemma Hole.owner_eq_none (h : L.Hole z i n) (hp : z.first + i ≤ p) (hp' : p < z.first + i + n) :
    L.owner p = none :=
  ((h p).2 ⟨hp, hp'⟩).2

/-- The pages of a block inside of the hole have no owner. -/
lemma Hole.owner_of_span {q : Nat} {f : Bool} (h : L.Hole z i n) (hle : z.first + i ≤ q)
    (hle' : q + 2 ^ o ≤ z.first + i + n) :
    ∀ p ∈ (⟨q, o, f⟩ : Block).span, L.owner p = none := by
  intro p hp
  obtain ⟨hge, hlt⟩ := mem_span.1 hp
  exact h.owner_eq_none (hle.trans hge) (Nat.lt_of_lt_of_le hlt hle')

end Layout

end Mars.Pm
