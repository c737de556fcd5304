import Mars.Pm.Buddy
import Mars.Pm.Edits

/-!
# The operations refine the buddy system

Each operation of the allocator, run on a memory that holds a layout, leaves a memory that holds
the layout which the operation of the same name on layouts gives.
-/

namespace Mars.Pm

open Lib Lib.Bits Lib.DList Lib.Ownership Vm Mars.Pm.Block

variable {s : State} {L : Layout} {z : Zone} {i o p : Nat}

namespace State

/-- A free block is written: its meta bytes, its node, and the list it enters. -/
def putFree (s : State) (z : Zone) (i o : Nat) : State :=
  (s.fillMeta z.metaArray i o (UInt8.ofNat o ||| freeFlag)).pushBlock z.addr
    (⟨z.first + i, o, true⟩ : Block).addr i o

namespace Inv

section PutFree

variable (hI : s.Inv L) (hz : z ∈ L.zones) (hfits : (⟨z.first + i, o, true⟩ : Block).FitsIn z)
  (hvacant : ∀ p ∈ (⟨z.first + i, o, true⟩ : Block).span, L.owner p = none)

include hI hz hfits hvacant

lemma inv_fillMeta (v : UInt8) : (s.fillMeta z.metaArray i o v).Inv L := by
  refine hI.fillMeta hz (fitsIn_iff.1 hfits).2.1 v fun j hj => hvacant _ ?_
  rw [mem_span]
  dsimp only
  omega

lemma putFree : (s.putFree z i o).Inv (L.insert ⟨z.first + i, o, true⟩) := by
  have hfilled := hI.inv_fillMeta hz hfits hvacant (UInt8.ofNat o ||| freeFlag)
  refine hfilled.insert hz rfl hfits hvacant fun j hj => ?_
  refine (Mem.fill_apply _).trans ?_
  rw [if_pos (by omega)]
  rfl

lemma keeps_putFree : Keeps s L (s.putFree z i o) (L.insert ⟨z.first + i, o, true⟩) := by
  have hfilled := hI.inv_fillMeta hz hfits hvacant (UInt8.ofNat o ||| freeFlag)
  have hkeeps := hI.keeps_fillMeta hz (fitsIn_iff.1 hfits).2.1 (UInt8.ofNat o ||| freeFlag)
  exact hkeeps.trans (hfilled.keeps_insert rfl hfits hvacant)

/-- The meta bytes of the other pages of the zone stay. -/
lemma putFree_meta {j : Nat} (hj : j < z.totalPages) (hout : j < i ∨ i + 2 ^ o ≤ j) :
    (s.putFree z i o).mem (z.metaArray + j) = s.mem (z.metaArray + j) := by
  have hfilled := hI.inv_fillMeta hz hfits hvacant (UInt8.ofNat o ||| freeFlag)
  have hpage : ∃ z' ∈ L.zones, z'.HasPage (z.first + i) :=
    ⟨z, hz, hfits.hasPage (start_mem_span _)⟩
  have htouch := hfilled.touches_pushBlock rfl hfits
  refine (hfilled.touches_meta hpage htouch hz hj).trans ?_
  exact Mem.fill_of_outside (by omega)

end PutFree

lemma zone_fields (hI : s.Inv L) (hz : z ∈ L.zones) :
    zoneMetaArray s.mem z.addr = z.metaArray ∧ zoneDataBase s.mem z.addr = z.first * pageSize ∧
      zoneTotalPages s.mem z.addr = z.totalPages :=
  hI.chain.fields hz

/-- The address of a block is computed from the header. -/
lemma dataBase_add (hI : s.Inv L) (hz : z ∈ L.zones) (free : Bool) :
    zoneDataBase s.mem z.addr + i * pageSize = (⟨z.first + i, o, free⟩ : Block).addr := by
  rw [(hI.zone_fields hz).2.1, Block.addr, add_mul]

lemma putFree_eq (hI : s.Inv L) (hz : z ∈ L.zones)
    (hfits : (⟨z.first + i, o, true⟩ : Block).FitsIn z)
    (hvacant : ∀ p ∈ (⟨z.first + i, o, true⟩ : Block).span, L.owner p = none) :
    (s.fillMeta z.metaArray i o (UInt8.ofNat o ||| freeFlag)).pushBlock z.addr
      (zoneDataBase (s.fillMeta z.metaArray i o (UInt8.ofNat o ||| freeFlag)).mem z.addr +
        i * pageSize) i o = s.putFree z i o := by
  rw [(hI.inv_fillMeta hz hfits hvacant _).dataBase_add hz true]
  rfl

end Inv

/-! ### Splitting -/

/-- The pages of the hole are cut down to a block of order `target`, whose meta bytes are
already written. -/
lemma Inv.split (n : Nat) : ∀ {s : State} {L : Layout} {target : Nat}, s.Inv L → z ∈ L.zones →
    (⟨z.first + i, target + n, true⟩ : Block).FitsIn z → L.Hole z i (2 ^ (target + n)) →
    (split z.addr z.metaArray i target n s).Inv (L.split (z.first + i) target n) ∧
    Keeps s L (split z.addr z.metaArray i target n s) (L.split (z.first + i) target n) ∧
    (L.split (z.first + i) target n).Hole z i (2 ^ target) ∧
    ∀ j < 2 ^ target, (split z.addr z.metaArray i target n s).mem (z.metaArray + (i + j)) =
      s.mem (z.metaArray + (i + j)) := by
  induction n with
  | zero =>
    intro s L target hI hz hfits hhole
    exact ⟨hI, .refl s L, hhole, fun _ _ => rfl⟩
  | succ n ih =>
    intro s L target hI hz hfits hhole
    obtain ⟨horder, hle, hal⟩ := fitsIn_iff.1 hfits
    have hpow : 2 ^ (target + (n + 1)) = 2 ^ (target + n) + 2 ^ (target + n) := by
      rw [← add_assoc, pow_succ]
      omega
    have hhalf : 2 ^ (target + n) ∣ i := Nat.dvd_trans ⟨2, by omega⟩ hal
    have hupper : (⟨z.first + (i + 2 ^ (target + n)), target + n, true⟩ : Block).FitsIn z :=
      fitsIn_iff.2 ⟨by omega, by omega, Nat.dvd_add hhalf (Nat.dvd_refl _)⟩
    have hvacant : ∀ p ∈ (⟨z.first + (i + 2 ^ (target + n)), target + n, true⟩ : Block).span,
        L.owner p = none := hhole.owner_of_span (by omega) (by omega)
    have hlower : (⟨z.first + i, target + n, true⟩ : Block).FitsIn z :=
      fitsIn_iff.2 ⟨by omega, by omega, hhalf⟩
    have hhole' : (L.insert ⟨z.first + (i + 2 ^ (target + n)), target + n, true⟩).Hole z i
        (2 ^ (target + n)) := by
      rw [← add_assoc]
      exact hhole.insert_upper
    obtain ⟨hinv, hkeeps, hrest, hmeta⟩ := ih (hI.putFree hz hupper hvacant) hz hlower hhole'
    have hstate : State.split z.addr z.metaArray i target (n + 1) s =
        State.split z.addr z.metaArray i target n
          (s.putFree z (i + 2 ^ (target + n)) (target + n)) := by
      rw [State.split, hI.putFree_eq hz hupper hvacant]
    have hlayout : L.split (z.first + i) target (n + 1) =
        (L.insert ⟨z.first + (i + 2 ^ (target + n)), target + n, true⟩).split (z.first + i)
          target n := by
      rw [Layout.split, add_assoc]
    rw [hstate, hlayout]
    refine ⟨hinv, (hI.keeps_putFree hz hupper hvacant).trans hkeeps, hrest, fun j hj => ?_⟩
    have htarget : 2 ^ target ≤ 2 ^ (target + n) := Nat.pow_le_pow_right (by decide) (by omega)
    rw [hmeta j hj]
    exact hI.putFree_meta hz hupper hvacant (by omega) (by omega)

/-! ### Allocation -/

variable {x : Nat} {l : List Nat}

/-- What a successful allocation of the block at page `p` does. -/
structure Allocated (s : State) (L : Layout) (s' : State) (L' : Layout) (p target : Nat) :
    Prop where
  inv : s'.Inv L'
  full : L'.Full
  zones : L'.zones = L.zones
  zoneHead : s'.zoneHead = s.zoneHead
  allocated : s'.allocatedPages = (s.allocatedPages + 2 ^ target) % 2 ^ 64
  fits : ∃ z ∈ L.zones, (⟨p, target, false⟩ : Block).FitsIn z
  fresh : ∀ q ∈ (⟨p, target, false⟩ : Block).span, ∀ b, L.owner q = some b → b.free = true
  live : ∀ q b, b.free = false →
    (L'.owner q = some b ↔
      (q ∈ (⟨p, target, false⟩ : Block).span ∧ b = ⟨p, target, false⟩) ∨ L.owner q = some b)
  bytes : ∀ q b, b.free = false → L.owner q = some b → Set.EqOn s.mem s'.mem (pageBytes q)

/-- Taking the first node out of a list is unlinking it. -/
lemma pop_eq_unlinkBlock (h : IsList s.mem (s.freeArea o) (x :: l)) :
    ({ s with
      mem := pop s.mem (s.freeArea o)
      freeArea := Function.update s.freeArea o (next s.mem (s.freeArea o)) } : State) =
    s.unlinkBlock o (s.freeArea o) := by
  have hprev : prev s.mem (s.freeArea o) = 0 := by
    obtain ⟨last, hhead, -, hprev, -⟩ := h.seg
    rw [hhead, hprev]
  have hunlink : unlink s.mem (s.freeArea o) (s.freeArea o) =
      (pop s.mem (s.freeArea o), next s.mem (s.freeArea o)) := by
    rw [unlink, hprev, if_neg (not_not.2 rfl), pop]
  rw [unlinkBlock, hunlink]

/-- The free block at index `i` of the zone leaves its list and is cut down to `target`. -/
def cutBlock (s : State) (z : Zone) (i target order : Nat) : State :=
  split z.addr z.metaArray i target (order - target)
    ((s.unlinkBlock order (⟨z.first + i, order, true⟩ : Block).addr).fillMeta z.metaArray i target
      (UInt8.ofNat target))

def countAllocated (s : State) (n : Nat) : State :=
  { s with allocatedPages := (s.allocatedPages + n) % 2 ^ 64 }

namespace Inv

variable {target order : Nat}

lemma of_counters {s' : State} (hI : s.Inv L) (hmem : s'.mem = s.mem)
    (hhead : s'.zoneHead = s.zoneHead) (harea : s'.freeArea = s.freeArea) : s'.Inv L := by
  obtain ⟨hchain, hwf, hapart, hcons, hfits, hmetas, hlists, hlisted, hnodes⟩ := hI
  refine ⟨?_, hwf, hapart, hcons, hfits, ?_, ?_, hlisted, ?_⟩
  · rw [hmem, hhead]
    exact hchain
  · rw [hmem]
    exact hmetas
  · rw [hmem, harea]
    exact hlists
  · rw [hmem]
    exact hnodes

lemma takeBlock_eq (hI : s.Inv L) (hlist : L.lists order = x :: l) (horder : order < maxOrder)
    (hz : z ∈ L.zones) (hx : x = (z.first + i) * pageSize)
    (hown : L.owner (z.first + i) = some ⟨z.first + i, order, true⟩)
    (hzone : blockZone s.mem x = z.addr) (hindex : blockPageIndex s.mem x = i) :
    s.takeBlock target order =
      (zoneDataBase (s.cutBlock z i target order).mem z.addr + i * pageSize,
        (s.cutBlock z i target order).countAllocated (2 ^ target)) := by
  have hin := hI.lists order horder
  rw [hlist] at hin
  have hblock : L.owner (⟨z.first + i, order, true⟩ : Block).start =
    some ⟨z.first + i, order, true⟩ := hown
  have htail := hI.tail_unlinkBlock hblock rfl
  have hmeta := ((hI.remove hblock rfl).zone_fields hz).1
  obtain rfl : x = (⟨z.first + i, order, true⟩ : Block).addr := hx
  have hmem : (s.unlinkBlock order (⟨z.first + i, order, true⟩ : Block).addr).mem =
      pop s.mem (⟨z.first + i, order, true⟩ : Block).addr := by
    rw [← hin.head_eq, ← pop_eq_unlinkBlock hin]
  rw [hmem] at htail hmeta
  have hz₁ : blockZone (pop s.mem (⟨z.first + i, order, true⟩ : Block).addr)
      (⟨z.first + i, order, true⟩ : Block).addr = z.addr :=
    (blockZone_congr htail).symm.trans hzone
  have hi₁ : blockPageIndex (pop s.mem (⟨z.first + i, order, true⟩ : Block).addr)
      (⟨z.first + i, order, true⟩ : Block).addr = i :=
    (blockPageIndex_congr htail).symm.trans hindex
  unfold State.takeBlock cutBlock
  simp only [pop_eq_unlinkBlock hin]
  rw [hin.head_eq, hz₁, hi₁, hmeta]
  rfl

/-- The hole that is left when a block is cut down, with its meta bytes written. -/
lemma cutBlock (hI : s.Inv L) (hfull : L.Full) (hz : z ∈ L.zones)
    (hown : L.owner (z.first + i) = some ⟨z.first + i, order, true⟩)
    (hfits : (⟨z.first + i, order, true⟩ : Block).FitsIn z) (htarget : target ≤ order) :
    (s.cutBlock z i target order).Inv
      ((L.remove ⟨z.first + i, order, true⟩).split (z.first + i) target (order - target)) ∧
    Keeps s L (s.cutBlock z i target order)
      ((L.remove ⟨z.first + i, order, true⟩).split (z.first + i) target (order - target)) ∧
    ((L.remove ⟨z.first + i, order, true⟩).split (z.first + i) target (order - target)).Hole z i
      (2 ^ target) ∧
    ∀ j < 2 ^ target, (s.cutBlock z i target order).mem (z.metaArray + (i + j)) =
      UInt8.ofNat target := by
  obtain ⟨horder, hle, hal⟩ := fitsIn_iff.1 hfits
  have hpow : 2 ^ target ≤ 2 ^ order := Nat.pow_le_pow_right (by decide) htarget
  have hfits' : (⟨z.first + i, target, true⟩ : Block).FitsIn z :=
    fitsIn_iff.2 ⟨by omega, by omega, (Nat.pow_dvd_pow 2 htarget).trans hal⟩
  have hblock : L.owner (⟨z.first + i, order, true⟩ : Block).start =
    some ⟨z.first + i, order, true⟩ := hown
  have hhole := hfull.hole_remove hz hfits
  have hI₁ := hI.remove hblock rfl
  have hI₂ := hI₁.inv_fillMeta hz hfits' (hhole.owner_of_span le_rfl (by omega))
    (UInt8.ofNat target)
  have hkeeps₁ := hI.keeps_remove hblock rfl
  have hkeeps₂ := hI₁.keeps_fillMeta hz (show i + 2 ^ target ≤ z.totalPages by omega)
    (UInt8.ofNat target)
  have horder' : target + (order - target) = order := by omega
  obtain ⟨hI₃, hkeeps₃, hhole', hmeta⟩ := Inv.split (order - target) hI₂ hz
    (by rwa [horder']) (by rwa [horder'])
  refine ⟨hI₃, (hkeeps₁.trans hkeeps₂).trans hkeeps₃, hhole', fun j hj => ?_⟩
  refine (hmeta j hj).trans ((Mem.fill_apply _).trans ?_)
  rw [if_pos (by omega)]

lemma takeBlock (hI : s.Inv L) (hfull : L.Full) (hlist : L.lists order = x :: l)
    (horder : order < maxOrder) (htarget : target ≤ order) :
    ∃ s', s.takeBlock target order = (x / pageSize * pageSize, s') ∧
      Allocated s L s' (L.take (x / pageSize) order target) (x / pageSize) target := by
  have hmem : x ∈ L.lists order := hlist ▸ List.mem_cons_self
  obtain ⟨z, hz, i, -, hx, hown, hfits, hzone, hindex⟩ := hI.exists_node hmem
  have hpage : x / pageSize = z.first + i := by
    rw [hx]
    exact Nat.mul_div_cancel _ (by decide)
  obtain ⟨hcut, hkeeps, hhole, hmeta⟩ := hI.cutBlock hfull hz hown hfits htarget
  obtain ⟨-, hle, hal⟩ := fitsIn_iff.1 hfits
  have hpow : 2 ^ target ≤ 2 ^ order := Nat.pow_le_pow_right (by decide) htarget
  have hfits' : (⟨z.first + i, target, false⟩ : Block).FitsIn z :=
    fitsIn_iff.2 ⟨by omega, by omega, (Nat.pow_dvd_pow 2 htarget).trans hal⟩
  have hz' : z ∈ ((L.remove ⟨z.first + i, order, true⟩).split (z.first + i) target
      (order - target)).zones := hkeeps.zones ▸ hz
  have hlive := hcut.assignLive hz' hfits' rfl (hhole.owner_of_span le_rfl le_rfl)
    (by rwa [Nat.add_sub_cancel_left])
  refine ⟨(s.cutBlock z i target order).countAllocated (2 ^ target), ?_, ?_⟩
  · rw [hI.takeBlock_eq hlist horder hz hx hown hzone hindex, (hcut.zone_fields hz').2.1, hpage,
      add_mul]
  · rw [hpage]
    refine ⟨hlive.of_counters rfl rfl rfl, hhole.full_handOut, hkeeps.zones, hkeeps.zoneHead, ?_,
      ⟨z, hz, hfits'⟩, ?_, ?_, hkeeps.bytes⟩
    · rw [countAllocated, hkeeps.allocated]
    · intro q hq b hb
      obtain ⟨hge, hlt⟩ := mem_span.1 hq
      dsimp only at hge hlt
      have hmem : q ∈ (⟨z.first + i, order, true⟩ : Block).span :=
        mem_span.2 ⟨hge, by dsimp only; omega⟩
      rw [hI.consistent.eq_of_mem hown hmem] at hb
      rw [← Option.some.inj hb]
    · intro q b hb
      rw [← hkeeps.live q b hb]
      exact assign_eq_some_iff (hhole.owner_of_span le_rfl le_rfl)

/-- `alloc_pages` refines the allocation on layouts. -/
lemma allocFrom (hI : s.Inv L) (hfull : L.Full) (n : Nat) (hn : n ≤ maxOrder - target) :
    (L.allocFrom target n = none ∧ s.allocFrom target n = (0, s)) ∨
    ∃ p L' s', L.allocFrom target n = some (p, L') ∧ s.allocFrom target n = (p * pageSize, s') ∧
      Allocated s L s' L' p target := by
  induction n with
  | zero => exact .inl ⟨rfl, rfl⟩
  | succ n ih =>
    have horder : maxOrder - (n + 1) < maxOrder := by
      omega
    have hin := hI.lists _ horder
    rcases hl : L.lists (maxOrder - (n + 1)) with _ | ⟨x, l⟩
    · rw [hl] at hin
      rw [Layout.allocFrom, hl, State.allocFrom, if_neg (not_not.2 (hin.eq_zero_iff.2 rfl))]
      exact ih (by omega)
    · right
      rw [hl] at hin
      have hne : s.freeArea (maxOrder - (n + 1)) ≠ 0 := by
        rw [Ne, hin.eq_zero_iff]
        exact List.cons_ne_nil x l
      obtain ⟨s', hs', halloc⟩ := hI.takeBlock hfull hl horder (show target ≤ _ by omega)
      refine ⟨x / pageSize, _, s', ?_, ?_, halloc⟩
      · rw [Layout.allocFrom, hl]
      · rw [State.allocFrom, if_pos hne, hs']

lemma allocPages (hI : s.Inv L) (hfull : L.Full) (target : Nat) :
    (L.alloc target = none ∧ s.allocPages target = (0, s)) ∨
    ∃ p L' s', L.alloc target = some (p, L') ∧ s.allocPages target = (p * pageSize, s') ∧
      Allocated s L s' L' p target := by
  by_cases htarget : maxOrder ≤ target
  · exact .inl ⟨if_pos htarget, if_pos htarget⟩
  · rw [Layout.alloc, if_neg htarget, State.allocPages, if_neg htarget]
    exact hI.allocFrom hfull _ le_rfl

end Inv

/-! ### Merging -/

namespace Inv

/-- The meta byte of a page tells whether a free block of the order starts there. -/
lemma isFreeBuddy_iff (hI : s.Inv L) (hz : z ∈ L.zones) {j : Nat} (ho : o < maxOrder)
    (hj : j < z.totalPages) (hal : 2 ^ o ∣ j) (hnot : ¬L.Vacant (z.first + j)) :
    s.isFreeBuddy z.addr j o = true ↔ L.owner (z.first + j) = some ⟨z.first + j, o, true⟩ := by
  have hpage : z.HasPage (z.first + j) := ⟨by omega, by omega⟩
  have hbyte : (metaVal : UInt8) → (!(metaVal &&& freeFlag == 0 ||
      metaVal &&& ~~~freeFlag != UInt8.ofNat o)) = true ↔
      metaVal &&& freeFlag ≠ 0 ∧ metaVal &&& ~~~freeFlag = UInt8.ofNat o := by
    intro metaVal
    simp
  rw [isFreeBuddy, (hI.zone_fields hz).1, hbyte]
  cases hb : L.owner (z.first + j) with
  | none => exact absurd ⟨⟨z, hz, hpage⟩, hb⟩ hnot
  | some b =>
    have hfits := hI.fitsIn hz hpage hb
    have horder := hfits.order_lt
    rw [hI.metas z hz j hj b hb, Ne, flag_eq_zero_iff horder, order_of_byte horder]
    constructor
    · rintro ⟨hfree, heq⟩
      have ho' : b.order = o := by
        have := congrArg UInt8.toNat heq
        rw [maxOrder] at *
        simp only [UInt8.toNat_ofNat'] at this
        omega
      subst ho'
      have hstart := hfits.start_eq (hI.consistent.mem hb) (Nat.le_add_right _ _)
        (by rwa [Nat.add_sub_cancel_left])
      obtain ⟨start, order, free⟩ := b
      cases free
      · exact absurd rfl hfree
      · dsimp only at hstart ⊢
        rw [hstart]
    · intro heq
      obtain rfl := Option.some.inj heq
      exact ⟨Bool.noConfusion, rfl⟩

/-- What the merge loop leaves: a larger hole that is the place of a block. -/
structure Merged (s : State) (L : Layout) (z : Zone) (s' : State) (L' : Layout) (i o : Nat) :
    Prop where
  inv : s'.Inv L'
  keeps : Keeps s L s' L'
  fits : (⟨z.first + i, o, true⟩ : Block).FitsIn z
  hole : L'.Hole z i (2 ^ o)

/-- Every round of the loop on the memory is a round on the layout. -/
lemma merge (n : Nat) : ∀ {s : State} {L : Layout} {i o : Nat}, s.Inv L → z ∈ L.zones →
    (⟨z.first + i, o, true⟩ : Block).FitsIn z → n + o < maxOrder → L.Hole z i (2 ^ o) →
    ∃ s' L' i' o', State.merge z.addr n s i o = (s', i', o') ∧
      Layout.merge z n L i o = (L', i', o') ∧ Merged s L z s' L' i' o' := by
  induction n with
  | zero =>
    intro s L i o hI hz hfits hn hhole
    exact ⟨s, L, i, o, rfl, rfl, hI, .refl s L, hfits, hhole⟩
  | succ n ih =>
    intro s L i o hI hz hfits hn hhole
    obtain ⟨ho, hle, hal⟩ := fitsIn_iff.1 hfits
    have hlt : i < 2 ^ 64 := by
      have hstop := (hI.wf z hz).le
      rw [Zone.stop, pageSize_eq] at hstop
      omega
    have htotal := (hI.zone_fields hz).2.2
    have hcases := xor_cases hal hlt
    rw [State.merge, Layout.merge, htotal]
    generalize hj : i ^^^ (1 <<< o) = j at hcases ⊢
    generalize hi' : i &&& complement (1 <<< o) = i' at hcases ⊢
    by_cases hout : z.totalPages ≤ j ∨ z.totalPages < j + 2 ^ o
    · -- the buddy is not in the zone
      have hfree : L.isFree z j o = false := by
        rw [Layout.isFree, decide_eq_false (by omega), Bool.false_and]
      simp only [if_pos hout, hfree, Bool.false_eq_true, if_false]
      exact ⟨s, L, i, o, rfl, rfl, hI, .refl s L, hfits, hhole⟩
    · have hbuddy : 2 ^ o ∣ j := by
        rcases hcases with ⟨hj, -, -⟩ | ⟨hj, -, -⟩
        · rw [hj]
          exact Nat.dvd_add hal (Nat.dvd_refl _)
        · exact (Nat.dvd_add_iff_left (Nat.dvd_refl _)).2 (hj ▸ hal)
      have hnot : ¬L.Vacant (z.first + j) := by
        rw [hhole]
        omega
      have hiff := hI.isFreeBuddy_iff hz ho (show j < z.totalPages by omega) hbuddy hnot
      have hsame : s.isFreeBuddy z.addr j o = L.isFree z j o := by
        rw [Bool.eq_iff_iff, hiff, Layout.isFree, decide_eq_true (show j + 2 ^ o ≤ z.totalPages by
          omega), Bool.true_and, beq_iff_eq]
      simp only [if_neg hout, hsame]
      by_cases hfree : L.isFree z j o = true
      · -- the buddy leaves its list, and the hole doubles
        have hown := hiff.1 (hsame.trans hfree)
        have hblock := hown
        have hfitsj : (⟨z.first + j, o, true⟩ : Block).FitsIn z :=
          fitsIn_iff.2 ⟨ho, by omega, hbuddy⟩
        have hfits' : (⟨z.first + i', o + 1, true⟩ : Block).FitsIn z := by
          refine fitsIn_iff.2 ⟨by omega, ?_, ?_⟩
          · rcases hcases with ⟨hj, hi', -⟩ | ⟨hj, hi', -⟩ <;> omega
          · rcases hcases with ⟨-, hi', hdvd⟩ | ⟨-, hi', hdvd⟩ <;> rwa [hi']
        have hhole' : (L.remove ⟨z.first + j, o, true⟩).Hole z i' (2 ^ (o + 1)) := by
          intro p
          rw [Layout.vacant_remove hz hfitsj, hhole, mem_span]
          dsimp only
          rcases hcases with ⟨hj, hi', -⟩ | ⟨hj, hi', -⟩ <;> omega
        obtain ⟨s', L', i'', o', hs', hL', hmerged⟩ := ih (hI.remove hblock rfl) hz hfits'
          (by omega) hhole'
        rw [if_pos hfree, if_pos hfree, hI.dataBase_add hz true]
        refine ⟨s', L', i'', o', hs', hL', hmerged.inv, ?_, hmerged.fits, hmerged.hole⟩
        exact (hI.keeps_remove hblock rfl).trans hmerged.keeps
      · rw [if_neg hfree, if_neg hfree]
        exact ⟨s, L, i, o, rfl, rfl, hI, .refl s L, hfits, hhole⟩

/-- The hole is merged with its buddies and becomes a free block. -/
lemma freeBlockInZone (hI : s.Inv L) (hz : z ∈ L.zones)
    (hfits : (⟨z.first + i, o, true⟩ : Block).FitsIn z) (hhole : L.Hole z i (2 ^ o)) :
    ∃ s' L' i' o', s.freeBlockInZone z.addr i o = .ok s' ∧
      Layout.merge z (maxOrder - 1 - o) L i o = (L', i', o') ∧
      s'.Inv (L'.insert ⟨z.first + i', o', true⟩) ∧
      Keeps s L s' (L'.insert ⟨z.first + i', o', true⟩) ∧
      (L'.insert ⟨z.first + i', o', true⟩).Full := by
  have ho := (fitsIn_iff.1 hfits).1
  obtain ⟨s', L', i', o', hs', hL', hI', hkeeps, hfits', hhole'⟩ :=
    Inv.merge (maxOrder - 1 - o) hI hz hfits (by omega) hhole
  have hz' : z ∈ L'.zones := hkeeps.zones ▸ hz
  have hvacant : ∀ p ∈ (⟨z.first + i', o', true⟩ : Block).span, L'.owner p = none :=
    hhole'.owner_of_span le_rfl le_rfl
  refine ⟨s'.putFree z i' o', L', i', o', ?_, hL', hI'.putFree hz' hfits' hvacant,
    hkeeps.trans (hI'.keeps_putFree hz' hfits' hvacant), hhole'.full_insert⟩
  rw [State.freeBlockInZone, hs']
  dsimp only
  rw [if_pos (fitsIn_iff.1 hfits').1, (hI'.zone_fields hz').1, hI'.putFree_eq hz' hfits' hvacant]

end Inv

/-! ### Freeing -/

/-- What freeing the allocated block at page `p` does. -/
structure Freed (s : State) (L : Layout) (s' : State) (L' : Layout) (p o : Nat) : Prop where
  inv : s'.Inv L'
  full : L'.Full
  zones : L'.zones = L.zones
  zoneHead : s'.zoneHead = s.zoneHead
  allocated : s'.allocatedPages = (s.allocatedPages + (2 ^ 64 - 2 ^ o % 2 ^ 64)) % 2 ^ 64
  live : ∀ q b, b.free = false →
    (L'.owner q = some b ↔ L.owner q = some b ∧ b ≠ ⟨p, o, false⟩)
  bytes : ∀ q b, b.free = false → L.owner q = some b → b ≠ ⟨p, o, false⟩ →
    Set.EqOn s.mem s'.mem (pageBytes q)

/-- No end of a zone overflows in a debug build. -/
def EndsFit (debug : Bool) (zs : List Zone) : Prop := debug = true → ∀ z ∈ zs, z.stop < 2 ^ 64

lemma EndsFit.release (zs : List Zone) : EndsFit false zs := by simp [EndsFit]

lemma EndsFit.of_cons {debug : Bool} {y : Zone} {zs : List Zone} (h : EndsFit debug (y :: zs)) :
    (debug = true → y.stop < 2 ^ 64) ∧ EndsFit debug zs :=
  ⟨fun hd => h hd y (.head _), fun hd x hx => h hd x (.tail y hx)⟩

lemma zoneEnd_eq {debug : Bool} {m : Mem} {zone : Nat} (hdata : zoneDataBase m zone = z.dataBase)
    (htotal : zoneTotalPages m zone = z.totalPages) (hend : debug = true → z.stop < 2 ^ 64) :
    zoneEnd debug m zone = pure (z.stop % 2 ^ 64) := by
  rw [zoneEnd, hdata, htotal, Zone.dataBase, ← add_mul]
  exact if_neg fun hover => not_le.2 (hend hover.1) hover.2

/-- The loop over the zones comes to the zone of the address. -/
lemma freeFrom_zone {debug : Bool} {addr : Nat} {zs : List Zone} (hz : z ∈ zs)
    (haddr : ∀ y ∈ zs, y.addr ≠ 0) (hend : EndsFit debug zs)
    (hother : ∀ y ∈ zs, y ≠ z → ¬(y.dataBase ≤ addr ∧ addr < y.stop)) :
    ∀ {ptr fuel : Nat}, ZoneChain s.mem ptr zs → zs.length < fuel →
      ∃ fuel', freeFrom debug addr s fuel ptr = freeFrom debug addr s (fuel' + 1) z.addr := by
  induction zs with
  | nil => cases hz
  | cons y zs ih =>
    intro ptr fuel hchain hfuel
    obtain ⟨rfl, -, hdata, htotal, hrest⟩ := hchain
    obtain _ | fuel := fuel
    · exact absurd hfuel (Nat.not_lt_zero _)
    by_cases hyz : y = z
    · subst hyz
      exact ⟨fuel, rfl⟩
    · have hz' : z ∈ zs := (List.mem_cons.1 hz).resolve_left (Ne.symm hyz)
      have hout : ¬(zoneDataBase s.mem y.addr ≤ addr ∧ addr < y.stop % 2 ^ 64) := by
        rw [hdata]
        rintro ⟨hle, hlt⟩
        exact hother y (.head _) hyz ⟨hle, hlt.trans_le (Nat.mod_le _ _)⟩
      obtain ⟨hy, hend⟩ := hend.of_cons
      rw [freeFrom, if_neg (haddr y (.head _)), zoneEnd_eq hdata htotal hy, pure_bind, if_neg hout]
      exact ih hz' (fun x hx => haddr x (.tail y hx)) hend
        (fun x hx => hother x (.tail y hx)) hrest (by simpa using hfuel)

def countFreed (s : State) (n : Nat) : State :=
  { s with allocatedPages := (s.allocatedPages + (2 ^ 64 - n % 2 ^ 64)) % 2 ^ 64 }

namespace Inv

lemma zone_addr_ne_zero (hI : s.Inv L) (hz : z ∈ L.zones) : z.addr ≠ 0 := by
  have hroom := (hI.wf z hz).room
  have hpos := (hI.wf z hz).pos
  omega

/-- The address of a page is in the data of one zone only. -/
lemma hasPage_of_addr (hp : z.dataBase ≤ p * pageSize ∧ p * pageSize < z.stop) : z.HasPage p := by
  obtain ⟨hle, hlt⟩ := hp
  exact ⟨Nat.le_of_mul_le_mul_right hle (by decide), Nat.lt_of_mul_lt_mul_right hlt⟩

/-- The zone of a page is found, and its meta byte tells what block it belongs to. -/
lemma freeFrom_page (hI : s.Inv L) (hz : z ∈ L.zones) {b : Block}
    (hown : L.owner (z.first + i) = some b) (hi : i < z.totalPages) (hlt : z.stop < 2 ^ 64)
    {debug : Bool} (hend : EndsFit debug L.zones) {fuel : Nat} (hfuel : L.zones.length < fuel) :
    freeFrom debug ((z.first + i) * pageSize) s fuel s.zoneHead =
      if b.free then .error .doubleFree
      else (s.countFreed (2 ^ b.order)).freeBlockInZone z.addr i b.order := by
  have hpage : z.HasPage (z.first + i) := ⟨by omega, by omega⟩
  have ho := (hI.fitsIn hz hpage hown).order_lt
  have hother : ∀ y ∈ L.zones, y ≠ z →
      ¬(y.dataBase ≤ (z.first + i) * pageSize ∧ (z.first + i) * pageSize < y.stop) :=
    fun y hy hne hin => hne (hI.zone_eq hy hz (hasPage_of_addr hin) hpage)
  obtain ⟨fuel', hfuel'⟩ := freeFrom_zone hz (fun y hy => hI.zone_addr_ne_zero hy) hend hother
    hI.chain hfuel
  obtain ⟨hmeta, hdata, htotal⟩ := hI.zone_fields hz
  have hin : z.first * pageSize ≤ (z.first + i) * pageSize ∧
      (z.first + i) * pageSize < z.stop % 2 ^ 64 := by
    rw [Nat.mod_eq_of_lt hlt]
    exact ⟨Nat.mul_le_mul_right _ (by omega), Nat.mul_lt_mul_of_pos_right (by omega) (by decide)⟩
  have hoff : (z.first + i) * pageSize - z.first * pageSize = i * pageSize := by
    rw [add_mul, Nat.add_sub_cancel_left]
  have hbyte := hI.metas z hz i hi _ hown
  have hflag := flag_eq_zero_iff ho
  have horder : (UInt8.ofNat b.order).toNat = b.order := by
    rw [maxOrder] at ho
    rw [UInt8.toNat_ofNat']
    omega
  rw [hfuel', freeFrom, if_neg (hI.zone_addr_ne_zero hz), zoneEnd_eq hdata htotal fun _ => hlt,
    pure_bind]
  simp only [hdata, hmeta, if_pos hin, hoff, Nat.mul_mod_left, ne_eq, not_true, if_false,
    Nat.mul_div_cancel i (show 0 < pageSize by decide), hbyte, hflag]
  rw [order_of_byte ho, horder, countFreed]
  cases b.free with
  | true => rfl
  | false => rfl

/-- `free_pages` of an allocated block returns, and refines the operation on layouts. -/
lemma freePages (hI : s.Inv L) (hfull : L.Full) (hz : z ∈ L.zones) (hi : i < z.totalPages)
    (hlt : z.stop < 2 ^ 64) (hlive : L.Live (z.first + i) o) {debug : Bool}
    (hend : EndsFit debug L.zones) {fuel : Nat} (hfuel : L.zones.length < fuel) :
    ∃ s', s.freePages debug fuel ((z.first + i) * pageSize) = .ok s' ∧
      Freed s L s' (L.free z (z.first + i) o) (z.first + i) o := by
  have hpage : z.HasPage (z.first + i) := ⟨by omega, by omega⟩
  have hfits := hI.fitsIn hz hpage hlive
  have hfits' : (⟨z.first + i, o, true⟩ : Block).FitsIn z :=
    fitsIn_iff.2 (fitsIn_iff.1 hfits)
  have hblock : L.owner (⟨z.first + i, o, false⟩ : Block).start =
    some ⟨z.first + i, o, false⟩ := hlive
  have hback : (s.countFreed (2 ^ o)).Inv (L.takeBack ⟨z.first + i, o, false⟩) :=
    (hI.releaseLive hblock rfl).of_counters rfl rfl rfl
  obtain ⟨s', L', i', o', hs', hL', hI', hkeeps, hfull'⟩ :=
    hback.freeBlockInZone hz hfits' (hfull.hole_takeBack hz hfits)
  have hlayout : L.free z (z.first + i) o = L'.insert ⟨z.first + i', o', true⟩ := by
    rw [Layout.free, Nat.add_sub_cancel_left, hL']
  have hiff : ∀ q b, b.free = false → ((L'.insert ⟨z.first + i', o', true⟩).owner q = some b ↔
      L.owner q = some b ∧ b ≠ ⟨z.first + i, o, false⟩) := fun q b hb =>
    (hkeeps.live q b hb).trans (hI.consistent.release_eq_some_iff hblock)
  refine ⟨s', ?_, ?_⟩
  · have hne := Nat.ne_of_gt (hI.page_bounds hz hpage).1
    rw [State.freePages, if_neg hne, hI.freeFrom_page hz hlive hi hlt hend hfuel,
      if_neg Bool.false_ne_true, hs']
  · rw [hlayout]
    refine ⟨hI', hfull', hkeeps.zones, hkeeps.zoneHead, hkeeps.allocated, hiff, ?_⟩
    intro q b hb hown hne
    exact hkeeps.bytes q b hb ((hI.consistent.release_eq_some_iff hblock).2 ⟨hown, hne⟩)

end Inv

end State

end Mars.Pm
