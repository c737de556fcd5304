import Mars.Pm.Reach

/-!
# What can be freed

`free_pages` reads the order of the block off the meta byte of the page it is given. An address
outside of the zones, inside of a page or in a free block fails a check. All pages of a block in use
have the same meta byte, so the address of one of its later pages passes the checks.
-/

namespace Mars.Pm

open Lib Lib.Bits Vm State

namespace State

/-! ### The state in which a call ends -/

variable {s s' : State} {L : Layout} {z : Zone} {debug : Bool} {addr fuel i zone : Nat}

/-- With an order that the meta byte of a block can have, freeing does not fail. -/
lemma merge_order_le (zone : Nat) (n : Nat) :
    ∀ (s : State) (pageIndex order : Nat), (merge zone n s pageIndex order).2.2 ≤ order + n := by
  induction n with
  | zero =>
    intro s pageIndex order
    exact le_rfl
  | succ n ih =>
    intro s pageIndex order
    rw [merge]
    split_ifs
    · exact Nat.le_add_right _ _
    · have hle := ih
        (s.unlinkBlock order (zoneDataBase s.mem zone + (pageIndex ^^^ 1 <<< order) * pageSize))
        (pageIndex &&& complement (1 <<< order)) (order + 1)
      exact hle.trans (by omega)
    · exact Nat.le_add_right _ _

lemma freeBlockInZone_returns (s : State) (zone pageIndex : Nat) {order : Nat}
    (ho : order < maxOrder) : ∃ s', s.freeBlockInZone zone pageIndex order = .ok s' := by
  have hle := merge_order_le zone (maxOrder - 1 - order) s pageIndex order
  unfold freeBlockInZone
  generalize merge zone (maxOrder - 1 - order) s pageIndex order = merged at hle ⊢
  obtain ⟨t, i, o⟩ := merged
  rw [maxOrder] at ho hle
  dsimp only at hle ⊢
  rw [if_pos (show o < maxOrder by rw [maxOrder]; omega)]
  exact ⟨_, rfl⟩

lemma freeFrom_outside {zs : List Zone} (haddr : ∀ y ∈ zs, y.addr ≠ 0) (hend : EndsFit debug zs)
    (hout : ∀ y ∈ zs, ¬(y.dataBase ≤ addr ∧ addr < y.stop % 2 ^ 64)) :
    ∀ {ptr fuel : Nat}, ZoneChain s.mem ptr zs → zs.length < fuel →
      freeFrom debug addr s fuel ptr = .error .notOwned := by
  induction zs with
  | nil =>
    intro ptr fuel hchain hfuel
    obtain ⟨fuel, rfl⟩ := Nat.exists_eq_succ_of_ne_zero hfuel.ne'
    exact if_pos hchain
  | cons y zs ih =>
    intro ptr fuel hchain hfuel
    obtain ⟨rfl, -, hdata, htotal, hrest⟩ := hchain
    obtain ⟨fuel, rfl⟩ := Nat.exists_eq_succ_of_ne_zero (Nat.zero_lt_of_lt hfuel).ne'
    obtain ⟨hy, hend⟩ := hend.of_cons
    rw [freeFrom, if_neg (haddr y (.head _)), zoneEnd_eq hdata htotal hy, pure_bind, hdata,
      if_neg (hout y (.head _))]
    exact ih (fun x hx => haddr x (.tail y hx)) hend
      (fun x hx => hout x (.tail y hx)) hrest (by simpa using hfuel)

/-- The pages of a zone whose end wraps to 0. -/
lemma Inv.freeFrom_wrapped (hI : s.Inv L) (hz : z ∈ L.zones) (hstop : z.stop = 2 ^ 64) {p : Nat}
    (hp : z.HasPage p) (hfuel : L.zones.length < fuel) :
    freeFrom false (p * pageSize) s fuel s.zoneHead = .error .notOwned := by
  refine freeFrom_outside (fun y hy => hI.zone_addr_ne_zero hy) (.release _) ?_ hI.chain hfuel
  rintro y hy ⟨hle, hlt⟩
  have hp' := hasPage_of_addr ⟨hle, hlt.trans_le (Nat.mod_le _ _)⟩
  obtain rfl := hI.zone_eq hy hz hp' hp
  rw [hstop, Nat.mod_self] at hlt
  exact Nat.not_lt_zero _ hlt

lemma Inv.freeFrom_unaligned (hI : s.Inv L) (hz : z ∈ L.zones)
    (hstop : z.stop < 2 ^ 64) (hin : z.dataBase ≤ addr ∧ addr < z.stop)
    (hoff : addr % pageSize ≠ 0) (hend : EndsFit debug L.zones) (hfuel : L.zones.length < fuel) :
    freeFrom debug addr s fuel s.zoneHead = .error .notPageAligned := by
  have hpage : ∀ {y : Zone}, y.dataBase ≤ addr ∧ addr < y.stop → y.HasPage (addr / pageSize) := by
    rintro y ⟨hle, hlt⟩
    constructor
    · exact (Nat.le_div_iff_mul_le (by decide)).2 hle
    · exact (Nat.div_lt_iff_lt_mul (by decide)).2 hlt
  have hother : ∀ y ∈ L.zones, y ≠ z → ¬(y.dataBase ≤ addr ∧ addr < y.stop) :=
    fun y hy hne hin' => hne (hI.zone_eq hy hz (hpage hin') (hpage hin))
  obtain ⟨fuel', hfuel'⟩ := freeFrom_zone hz (fun y hy => hI.zone_addr_ne_zero hy) hend hother
    hI.chain hfuel
  obtain ⟨-, hdata, htotal⟩ := hI.zone_fields hz
  obtain ⟨hle, hlt⟩ := hin
  rw [Zone.dataBase] at hle
  have hrest : (addr - z.first * pageSize) % pageSize = addr % pageSize := by
    rw [← Nat.sub_add_cancel hle, Nat.add_mul_mod_self_right, Nat.add_sub_cancel]
  rw [hfuel', freeFrom, if_neg (hI.zone_addr_ne_zero hz), zoneEnd_eq hdata htotal fun _ => hstop,
    pure_bind, hdata, Nat.mod_eq_of_lt hstop, if_pos ⟨hle, hlt⟩]
  exact if_pos (hrest.trans_ne hoff)

end State

/-! ### Addresses that are refused -/

/-- Why the call fails: the layout has no block in use at the address. -/
inductive Layout.Refuses (L : Layout) (addr : Nat) : Panic → Prop
  | notOwned (hout : ∀ z ∈ L.zones, ¬(z.dataBase ≤ addr ∧ addr < z.stop)) :
      Layout.Refuses L addr .notOwned
  | notPageAligned {z : Zone} (hz : z ∈ L.zones) (hin : z.dataBase ≤ addr ∧ addr < z.stop)
      (hoff : addr % pageSize ≠ 0) : Layout.Refuses L addr .notPageAligned
  | doubleFree {z : Zone} {i : Nat} {b : Block} (hz : z ∈ L.zones) (hi : i < z.totalPages)
      (haddr : addr = (z.first + i) * pageSize) (hown : L.owner (z.first + i) = some b)
      (hfree : b.free = true) : Layout.Refuses L addr .doubleFree

section Refuses

variable {s : State} {L : Layout} {addr : Nat} {e : Panic}

lemma Layout.Refuses.ne (h : L.Refuses addr e) : e ≠ .diverges ∧ e ≠ .indexOutOfBounds := by
  cases h <;> simp

lemma Layout.Full.inUse_or_refuses (hfull : L.Full) (addr : Nat) :
    (∃ z ∈ L.zones, ∃ i < z.totalPages, addr = (z.first + i) * pageSize ∧
      ∃ start order, L.owner (z.first + i) = some ⟨start, order, false⟩) ∨
    ∃ e, L.Refuses addr e := by
  by_cases hin : ∃ z ∈ L.zones, z.dataBase ≤ addr ∧ addr < z.stop
  · obtain ⟨z, hz, hin⟩ := hin
    by_cases hoff : addr % pageSize = 0
    · -- a page of the zone, which has a block
      obtain ⟨p, rfl⟩ : ∃ p, addr = p * pageSize :=
        ⟨addr / pageSize, (Nat.div_mul_cancel (Nat.dvd_of_mod_eq_zero hoff)).symm⟩
      have hpage := State.Inv.hasPage_of_addr hin
      obtain ⟨i, hi, rfl⟩ := hpage.exists_index
      cases hown : L.owner (z.first + i) with
      | none => exact absurd ⟨⟨z, hz, hpage⟩, hown⟩ (hfull (z.first + i))
      | some b =>
        obtain ⟨start, order, free⟩ := b
        cases free with
        | true => exact .inr ⟨_, .doubleFree hz hi rfl hown rfl⟩
        | false => exact .inl ⟨z, hz, i, hi, rfl, start, order, hown⟩
    · exact .inr ⟨_, .notPageAligned hz hin hoff⟩
  · exact .inr ⟨_, .notOwned fun z hz hz' => hin ⟨z, hz, hz'⟩⟩

lemma State.Inv.freePages_refused (hI : s.Inv L) (hstop : ∀ z ∈ L.zones, z.stop < 2 ^ 64)
    (hne : addr ≠ 0) (h : L.Refuses addr e) (debug : Bool) {fuel : Nat}
    (hfuel : L.zones.length < fuel) : s.freePages debug fuel addr = .error e := by
  have hend : EndsFit debug L.zones := fun _ => hstop
  rw [State.freePages, if_neg hne]
  cases h with
  | notOwned hout =>
    refine freeFrom_outside (fun y hy => hI.zone_addr_ne_zero hy) hend ?_ hI.chain hfuel
    exact fun y hy hin => hout y hy ⟨hin.1, hin.2.trans_le (Nat.mod_le _ _)⟩
  | notPageAligned hz hin hoff => exact hI.freeFrom_unaligned hz (hstop _ hz) hin hoff hend hfuel
  | doubleFree hz hi haddr hown hfree =>
    rw [haddr, hI.freeFrom_page hz hown hi (hstop _ hz) hend hfuel, if_pos hfree]

end Refuses

/-! ### Runs -/

/-- The address is that of a later page of the block. -/
def Allocation.LaterPage (c : Allocation) (addr : Nat) : Prop :=
  ∃ j, 0 < j ∧ j < 2 ^ c.order ∧ addr = c.addr + j * pageSize

namespace Tracks

variable {R : List Region} {A : List Allocation} {s : State} {L : Layout} {addr fuel : Nat}
  (h : Tracks R A s L)

include h

lemma owner_page {c : Allocation} (hc : c ∈ A) {j : Nat} (hj : j < 2 ^ c.order)
    (haddr : addr = c.addr + j * pageSize) :
    ∃ p, c.addr = p * pageSize ∧ addr = (p + j) * pageSize ∧
      L.owner (p + j) = some ⟨p, c.order, false⟩ := by
  obtain ⟨p, hp, hlive⟩ := (h.live c).1 hc
  refine ⟨p, hp, ?_, h.inv.consistent.eq_of_mem hlive (Block.mem_span.2 ⟨?_, ?_⟩)⟩
  · rw [haddr, hp, add_mul]
  · exact Nat.le_add_right p j
  · exact Nat.add_lt_add_left hj p

lemma freePages_inUse (debug : Bool) (hne : addr ≠ 0) {z : Zone} (hz : z ∈ L.zones) {i : Nat}
    (hi : i < z.totalPages) (haddr : addr = (z.first + i) * pageSize) {start order : Nat}
    (hown : L.owner (z.first + i) = some ⟨start, order, false⟩) (hfuel : L.zones.length < fuel) :
    ∃ s', s.freePages debug fuel addr = .ok s' := by
  have hpage : z.HasPage (z.first + i) := ⟨Nat.le_add_right _ _, Nat.add_lt_add_left hi _⟩
  rw [State.freePages, if_neg hne, haddr,
    h.inv.freeFrom_page hz hown hi (h.lt z hz) (fun _ => h.lt) hfuel, if_neg Bool.false_ne_true]
  exact freeBlockInZone_returns _ _ _ (h.inv.fitsIn hz hpage hown).order_lt

end Tracks

end Mars.Pm
