import Mars.Pm.Operations
import Mars.Pm.Reserve

/-!
# Adding a range

`add_range` writes the header and the meta array of a new zone into memory that no zone has, and
divides the data pages into free blocks. When it returns, the zone is exactly the range.
-/

namespace Mars.Pm

open Lib Lib.Bits Lib.DList Lib.Ownership Vm Zone

variable {s : State} {L : Layout} {z z' : Zone} {a i o p : Nat} {m m' : Mem}

/-! ### Headers -/

lemma writeZone_apply {zone metaArray dataBase totalPages nextZone : Nat}
    (ha : a < zone ∨ zone + zoneSize ≤ a) :
    writeZone m zone metaArray dataBase totalPages nextZone a = m a := by
  rw [zoneSize] at ha
  rw [writeZone, Mem.setWord_of_outside (by omega), Mem.setWord_of_outside (by omega),
    Mem.setWord_of_outside (by omega), Mem.setWord_of_outside (by omega)]

lemma writeZone_fields {zone metaArray dataBase totalPages nextZone : Nat}
    (hmeta : metaArray < 2 ^ 64) (hdata : dataBase < 2 ^ 64) (htotal : totalPages < 2 ^ 64)
    (hnext : nextZone < 2 ^ 64) :
    zoneMetaArray (writeZone m zone metaArray dataBase totalPages nextZone) zone = metaArray ∧
    zoneDataBase (writeZone m zone metaArray dataBase totalPages nextZone) zone = dataBase ∧
    zoneTotalPages (writeZone m zone metaArray dataBase totalPages nextZone) zone = totalPages ∧
    zoneNext (writeZone m zone metaArray dataBase totalPages nextZone) zone = nextZone := by
  refine ⟨?_, ?_, ?_, ?_⟩
  · rw [zoneMetaArray, writeZone, Mem.word_setWord_of_disjoint (by omega),
      Mem.word_setWord_of_disjoint (by omega), Mem.word_setWord_of_disjoint (by omega),
      Mem.word_setWord hmeta]
  · rw [zoneDataBase, writeZone, Mem.word_setWord_of_disjoint (by omega),
      Mem.word_setWord_of_disjoint (by omega), Mem.word_setWord hdata]
  · rw [zoneTotalPages, writeZone, Mem.word_setWord_of_disjoint (by omega),
      Mem.word_setWord htotal]
  · rw [zoneNext, writeZone, Mem.word_setWord hnext]

/-! ### A new zone -/

namespace State.Inv

lemma zoneHead_lt (hI : s.Inv L) : s.zoneHead < 2 ^ 64 := by
  have hchain := hI.chain
  cases hzones : L.zones with
  | nil =>
    rw [hzones] at hchain
    rw [show s.zoneHead = 0 from hchain]
    decide
  | cons y zs =>
    rw [hzones] at hchain
    have hwf := hI.wf y (by rw [hzones]; exact List.mem_cons_self)
    have hheader := hwf.header
    have hlt := hwf.le
    have hle := y.dataBase_le_stop
    rw [hchain.1]
    rw [zoneSize] at hheader
    omega

section Fresh

variable (hI : s.Inv L) (hd : ∀ z' ∈ L.zones, z.Disjoint z')
  (hm : ∀ a, a ∉ z.reserved → s.mem a = m' a)

include hI hd hm

omit hI in
lemma fresh_reserved (hz' : z' ∈ L.zones) : Set.EqOn s.mem m' z'.reserved := by
  intro a ha
  refine hm a fun hmem => ?_
  exact hd z' hz' a (.inl hmem) (.inl ha)

lemma fresh_page (hz' : z' ∈ L.zones) (hp : z'.HasPage p) : Set.EqOn s.mem m' (pageBytes p) := by
  intro a ha
  refine hm a ?_
  exact page_reserved (hI.wf z' hz') (fun _ a ha ha' => hd z' hz' a ha' ha) hp ha

lemma fresh_owner (hown : ∃ b, L.owner p = some b) : Set.EqOn s.mem m' (pageBytes p) := by
  obtain ⟨b, hb⟩ := hown
  obtain ⟨z', hz', hfits⟩ := hI.fits p b hb
  exact hI.fresh_page hd hm hz' (hfits.hasPage (hI.consistent.mem hb))

omit hm in
lemma owner_fresh (hp : z.HasPage p) : L.owner p = none := by
  cases hb : L.owner p with
  | none => rfl
  | some b =>
    obtain ⟨z', hz', hfits⟩ := hI.fits p b hb
    have hp' := hfits.hasPage (hI.consistent.mem hb)
    have ha : p * pageSize ∈ pageBytes p := ⟨Nat.le_refl _, by rw [pageSize_eq]; omega⟩
    exact absurd (bytes_of_page hp' ha) (hd z' hz' _ (bytes_of_page hp ha))

/-- The zone is in front of the chain, and its pages belong to nobody. -/
lemma addZone (hz : z.Wf) {s' : State} (hmem : s'.mem = m') (harea : s'.freeArea = s.freeArea)
    (hhead : s'.zoneHead = z.addr)
    (hfields : zoneMetaArray m' z.addr = z.metaArray ∧ zoneDataBase m' z.addr = z.dataBase ∧
      zoneTotalPages m' z.addr = z.totalPages ∧ zoneNext m' z.addr = s.zoneHead) :
    s'.Inv { L with zones := z :: L.zones } := by
  obtain ⟨hmeta, hdata, htotal, hnext⟩ := hfields
  refine ⟨?_, ?_, ?_, hI.consistent, ?_, ?_, ?_, hI.listed, ?_⟩
  · rw [hmem, hhead]
    refine ⟨rfl, hmeta, hdata, htotal, ?_⟩
    rw [hnext]
    refine hI.chain.congr fun z' hz' a ha => fresh_reserved hd hm hz' ?_
    exact mem_reserved_header (hI.wf z' hz') ha
  · intro y hy
    rcases List.mem_cons.1 hy with rfl | hy
    · exact hz
    · exact hI.wf y hy
  · exact List.pairwise_cons.2 ⟨hd, hI.apart⟩
  · intro p b hb
    obtain ⟨z', hz', hfits⟩ := hI.fits p b hb
    exact ⟨z', List.mem_cons_of_mem z hz', hfits⟩
  · intro y hy i hi b hb
    rw [hmem]
    rcases List.mem_cons.1 hy with rfl | hy
    · have hnone := hI.owner_fresh hd (show y.HasPage (y.first + i) from ⟨by omega, by omega⟩)
      rw [hnone] at hb
      cases hb
    · rw [← hI.metas y hy i hi b hb]
      exact (fresh_reserved hd hm hy (mem_reserved_meta hi)).symm
  · intro o ho
    rw [hmem, harea]
    refine (hI.lists o ho).congr fun x hx => ?_
    obtain ⟨q, rfl, hown⟩ := (hI.listed o x).1 hx
    exact (hI.fresh_owner hd hm ⟨_, hown⟩).mono (links_subset q)
  · intro y hy i hi o hown
    rw [hmem]
    rcases List.mem_cons.1 hy with rfl | hy
    · have hnone := hI.owner_fresh hd (show y.HasPage (y.first + i) from ⟨by omega, by omega⟩)
      rw [hnone] at hown
      cases hown
    · have htail := (hI.fresh_owner hd hm ⟨_, hown⟩).mono (tailBytes_subset _)
      rw [← blockZone_congr htail, ← blockPageIndex_congr htail]
      exact hI.nodes y hy i hi o hown

end Fresh

end State.Inv

/-- The zone of a range with `reserved` pages before the data. -/
def zoneOf (start reserved usable : Nat) : Zone where
  addr := start + reserved * pageSize - zoneSize
  metaArray := start
  first := start / pageSize + reserved
  totalPages := usable

section ZoneOf

variable {start reserved usable : Nat} (hal : pageSize ∣ start)

include hal

lemma zoneOf_dataBase : (zoneOf start reserved usable).dataBase = start + reserved * pageSize := by
  rw [Zone.dataBase, zoneOf, add_mul, Nat.div_mul_cancel hal]

lemma zoneOf_stop :
    (zoneOf start reserved usable).stop = start + (reserved + usable) * pageSize := by
  rw [Zone.stop, zoneOf, add_mul, add_mul, Nat.div_mul_cancel hal, add_mul, add_assoc]

lemma zoneOf_wf (hpos : 0 < usable) (hroom : usable + zoneSize ≤ reserved * pageSize)
    (hlt : start + (reserved + usable) * pageSize < 2 ^ 64) :
    (zoneOf start reserved usable).Wf := by
  refine ⟨hpos, ?_, ?_, ?_⟩
  · show start + usable ≤ start + reserved * pageSize - zoneSize
    omega
  · rw [zoneOf_dataBase hal]
    show start + reserved * pageSize - zoneSize + zoneSize = _
    omega
  · rw [zoneOf_stop hal]
    exact hlt.le

end ZoneOf

/-- The zone of a page-aligned range, with the reserved pages that the loop finds. -/
def Zone.Sized (z : Zone) : Prop :=
  ∃ reserved, pageSize ∣ z.metaArray ∧ State.IsReserve (reserved + z.totalPages) reserved ∧
    z = zoneOf z.metaArray reserved z.totalPages

lemma Zone.Sized.eq (h : z.Sized) (h' : z'.Sized) (hstart : z.metaArray = z'.metaArray)
    (hstop : z.stop = z'.stop) : z = z' := by
  obtain ⟨reserved, hal, hreserve, hz⟩ := h
  obtain ⟨reserved', hal', hreserve', hz'⟩ := h'
  rw [hz, hz', zoneOf_stop hal, zoneOf_stop hal', hstart] at hstop
  have htotal := eq_of_mul_pageSize (Nat.add_left_cancel hstop)
  rw [htotal] at hreserve
  obtain rfl := hreserve.unique hreserve'
  have hpages := Nat.add_left_cancel htotal
  rw [hz, hz', hstart, hpages]

namespace State

/-- The header and the meta array are written into the reserved pages. -/
lemma addZone_apply {start reserved usable : Nat} (hal : pageSize ∣ start)
    (hroom : usable + zoneSize ≤ reserved * pageSize)
    (ha : a ∉ (zoneOf start reserved usable).reserved) :
    s.mem a = (s.addZone start reserved usable).mem a := by
  have hmeta : a < start ∨ start + usable ≤ a := by
    by_contra hin
    refine ha (.inl ⟨?_, ?_⟩)
    · exact Nat.le_of_not_lt fun hlt => hin (.inl hlt)
    · exact Nat.lt_of_not_le fun hle => hin (.inr hle)
  have hheader : a < start + reserved * pageSize - zoneSize ∨ start + reserved * pageSize ≤ a := by
    by_contra hin
    refine ha (.inr ⟨?_, ?_⟩)
    · exact Nat.le_of_not_lt fun hlt => hin (.inl hlt)
    · rw [zoneOf_dataBase hal]
      omega
  simp only [State.addZone]
  rw [writeZone_apply (by omega), Mem.fill_of_outside (by omega)]

lemma Inv.addZone_zoneOf {start reserved usable : Nat} (hI : s.Inv L) (hal : pageSize ∣ start)
    (hpos : 0 < usable) (hroom : usable + zoneSize ≤ reserved * pageSize)
    (hlt : start + (reserved + usable) * pageSize < 2 ^ 64)
    (hd : ∀ z' ∈ L.zones, (zoneOf start reserved usable).Disjoint z') :
    (s.addZone start reserved usable).Inv
      { L with zones := zoneOf start reserved usable :: L.zones } := by
  have hwf := zoneOf_wf hal hpos hroom hlt
  rw [add_mul] at hlt
  refine hI.addZone hd (fun a ha => s.addZone_apply hal hroom ha) hwf rfl rfl rfl ?_
  rw [zoneOf_dataBase hal]
  refine writeZone_fields ?_ ?_ ?_ hI.zoneHead_lt
  · omega
  · omega
  · rw [pageSize_eq] at hlt
    omega

/-! ### Dividing a zone -/

section Carve

lemma carveOrder_lt (usable current : Nat) : carveOrder usable current < maxOrder :=
  (Nat.min_le_right _ _).trans_lt (by decide)

lemma two_pow_carveOrder_dvd (usable current : Nat) : 2 ^ carveOrder usable current ∣ current := by
  unfold carveOrder
  by_cases hcurrent : current = 0
  · rw [hcurrent]
    exact Nat.dvd_zero _
  · rw [if_neg hcurrent]
    refine (Nat.pow_dvd_pow 2 ?_).trans (two_pow_trailingZeros_dvd current)
    exact (Nat.min_le_left _ _).trans (Nat.min_le_left _ _)

lemma two_pow_carveOrder_le {usable current : Nat} (h : current < usable) :
    2 ^ carveOrder usable current ≤ usable - current := by
  have hle : carveOrder usable current ≤ Nat.log2 (usable - current) :=
    (Nat.min_le_left _ _).trans (Nat.min_le_right _ _)
  exact (Nat.pow_le_pow_right (by decide) hle).trans (Nat.log2_self_le (by omega))

/-- The rest of the zone becomes free blocks. -/
lemma Inv.carve (rounds : Nat) : ∀ {s : State} {L : Layout} {current : Nat}, s.Inv L →
    z ∈ L.zones → current ≤ z.totalPages → z.totalPages - current ≤ rounds →
    L.Hole z current (z.totalPages - current) →
    (carve z.addr z.metaArray z.dataBase z.totalPages rounds s current).Inv
      (L.carve z rounds current) ∧
    Keeps s L (carve z.addr z.metaArray z.dataBase z.totalPages rounds s current)
      (L.carve z rounds current) ∧ (L.carve z rounds current).Full := by
  induction rounds with
  | zero =>
    intro s L current hI hz hle hrounds hhole
    rw [show z.totalPages - current = 0 by omega] at hhole
    exact ⟨hI, .refl s L, hhole.full⟩
  | succ rounds ih =>
    intro s L current hI hz hle hrounds hhole
    rw [State.carve, Layout.carve]
    by_cases hlt : current < z.totalPages
    · have hpow := two_pow_carveOrder_le hlt
      have hpos := Nat.two_pow_pos (carveOrder z.totalPages current)
      have hfits : (⟨z.first + current, carveOrder z.totalPages current, true⟩ : Block).FitsIn z :=
        Block.fitsIn_iff.2 ⟨carveOrder_lt _ _, by omega, two_pow_carveOrder_dvd _ _⟩
      have hhole' := hhole.insert_lower hpow
      rw [Nat.sub_sub] at hhole'
      have hvacant := hhole.owner_of_span (o := carveOrder z.totalPages current) (f := true)
        le_rfl (by omega)
      have hput := hI.putFree hz hfits hvacant
      obtain ⟨hinv, hkeeps, hfull⟩ := ih hput hz (by omega) (by omega) hhole'
      have hstate : ((s.fillMeta z.metaArray current (carveOrder z.totalPages current)
          (UInt8.ofNat (carveOrder z.totalPages current) ||| freeFlag)).pushBlock z.addr
            (z.dataBase + current * pageSize) current (carveOrder z.totalPages current)) =
          s.putFree z current (carveOrder z.totalPages current) := by
        rw [State.putFree, Block.addr, Zone.dataBase, add_mul]
      simp only [if_pos hlt, hstate]
      exact ⟨hinv, (hI.keeps_putFree hz hfits hvacant).trans hkeeps, hfull⟩
    · rw [show z.totalPages - current = 0 by omega] at hhole
      simp only [if_neg hlt]
      exact ⟨hI, .refl s L, hhole.full⟩

end Carve

/-! ### The whole call -/

lemma dvd_of_and_pageMask (h : a &&& (pageSize - 1) = 0) : pageSize ∣ a := by
  rw [show pageSize - 1 = 2 ^ 14 - 1 from rfl, Nat.and_two_pow_sub_one_eq_mod] at h
  exact Nat.dvd_of_mod_eq_zero h

lemma addRange_ok {debug : Bool} {fuel start stop : Nat} {s' : State}
    (h : s.addRange debug fuel start stop = .ok s') :
    pageSize ∣ start ∧ ∃ reserved usable, stop = start + (reserved + usable) * pageSize ∧
      0 < usable ∧ IsReserve (reserved + usable) reserved ∧
      s' = carve (zoneOf start reserved usable).addr start (start + reserved * pageSize) usable
        usable (s.addZone start reserved usable) 0 := by
  unfold addRange at h
  split at h
  · cases h
  split at h
  · cases h
  rename_i hlt
  split at h
  · cases h
  rename_i hstart
  split at h
  · cases h
  rename_i hstop
  obtain ⟨i, rfl⟩ := dvd_of_and_pageMask (not_not.1 hstart)
  obtain ⟨j, rfl⟩ := dvd_of_and_pageMask (not_not.1 hstop)
  have hij : i < j := Nat.lt_of_mul_lt_mul_left (Nat.lt_of_not_le hlt)
  have hpages : (pageSize * j - pageSize * i) / pageSize = j - i := by
    rw [← Nat.mul_sub, Nat.mul_div_cancel_left _ (by decide)]
  simp only [hpages] at h
  rw [if_neg (by omega)] at h
  cases hloop : reservedPages (j - i) fuel 0 with
  | error e =>
    rw [hloop] at h
    cases h
  | ok reserved =>
    rw [hloop] at h
    simp only [bind, Except.bind] at h
    have hreserve := isReserve_of_ok hloop
    have hle := hreserve.1
    split at h
    · cases h
    · rename_i husable
      cases h
      refine ⟨Nat.dvd_mul_right _ _, reserved, j - i - reserved, ?_, by omega, ?_, rfl⟩
      · rw [mul_comm _ pageSize, ← mul_add]
        congr 1
        omega
      · rwa [Nat.add_sub_cancel' hle]

/-- A new zone: the range, with all of its data pages free. -/
structure Added (s : State) (L : Layout) (s' : State) (z : Zone) : Prop where
  inv : s'.Inv (L.addZone z)
  full : (L.addZone z).Full
  zones : (L.addZone z).zones = z :: L.zones
  sized : z.Sized
  allocated : s'.allocatedPages = s.allocatedPages
  live : ∀ p b, b.free = false → ((L.addZone z).owner p = some b ↔ L.owner p = some b)
  bytes : ∀ p b, b.free = false → L.owner p = some b → Set.EqOn s.mem s'.mem (pageBytes p)

/-- The pages of the new zone belong to nobody, all others to a block. -/
lemma Inv.hole_zone (hI : s.Inv L) (hfull : L.Full)
    (hd : ∀ z' ∈ L.zones, z.Disjoint z') :
    ({ L with zones := z :: L.zones } : Layout).Hole z 0 z.totalPages := by
  intro p
  rw [add_zero]
  constructor
  · rintro ⟨⟨y, hy, hp⟩, hnone⟩
    rcases List.mem_cons.1 hy with rfl | hy
    · exact hp
    · exact absurd ⟨⟨y, hy, hp⟩, hnone⟩ (hfull p)
  · intro hp
    exact ⟨⟨z, (.head _), hp⟩, hI.owner_fresh hd hp⟩

/-- A range that shares no byte with the zones becomes a zone. -/
lemma Inv.addRange (hI : s.Inv L) (hfull : L.Full) {debug : Bool} {fuel start stop : Nat}
    {s' : State} (h : s.addRange debug fuel start stop = .ok s') (hlt : stop < 2 ^ 64)
    (hd : ∀ z ∈ L.zones, ∀ a ∈ z.bytes, a < start ∨ stop ≤ a) :
    ∃ z : Zone, z.metaArray = start ∧ z.stop = stop ∧ Added s L s' z := by
  obtain ⟨hal, reserved, usable, rfl, hpos, hreserve, rfl⟩ := addRange_ok h
  have hroom : usable + zoneSize ≤ reserved * pageSize := by
    have hroom := hreserve.room
    rwa [Nat.add_sub_cancel_left] at hroom
  have hstop : (zoneOf start reserved usable).stop = start + (reserved + usable) * pageSize :=
    zoneOf_stop hal
  have hwf := zoneOf_wf hal hpos hroom hlt
  have hdisj : ∀ z' ∈ L.zones, (zoneOf start reserved usable).Disjoint z' := by
    intro z' hz' a ha ha'
    obtain ⟨hle, hlt'⟩ := bytes_subset hwf ha
    have hle' : start ≤ a := hle
    have := hd z' hz' a ha'
    omega
  have hzone := hI.addZone_zoneOf hal hpos hroom hlt hdisj
  have hhole := hI.hole_zone hfull hdisj
  have hmem := fun a ha => s.addZone_apply (a := a) hal hroom ha
  obtain ⟨hinv, hkeeps, hfull'⟩ := Inv.carve (z := zoneOf start reserved usable) usable hzone
    (.head _) (Nat.zero_le _) le_rfl hhole
  rw [zoneOf_dataBase hal] at hinv hkeeps
  refine ⟨zoneOf start reserved usable, rfl, hstop, hinv, hfull', hkeeps.zones,
    ⟨reserved, hal, hreserve, rfl⟩, hkeeps.allocated, hkeeps.live, fun p b hb hown => ?_⟩
  exact (hI.fresh_owner hdisj hmem ⟨b, hown⟩).trans (hkeeps.bytes p b hb hown)

end State

end Mars.Pm
