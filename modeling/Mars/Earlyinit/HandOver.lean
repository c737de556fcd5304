import Mars.Earlyinit.Mem
import Mars.Pm.Simulation

/-!
# What is added for a range

`flush` adds what is left of a range of normal memory without the zone of the first stage, rounded
inwards, where at least four pages are left. At the very end of the physical address space, a piece
that ends at `2 ^ 48` is dropped, and one that starts in the last page becomes a range from `2 ^ 48`
on.
-/

namespace Mars.Earlyinit

open Lib.Bits Lib.Intervals Pm Vm

/-! ### Rounding -/

section Rounding

variable {a b : Nat}

lemma alignDown_eq (ha : a < 2 ^ 64) : alignDown a = a / 16384 * 16384 :=
  and_complement_mask 14 ha

lemma alignUp_eq (ha : a < 2 ^ 63) : alignUp a = (a + 16383) / 16384 * 16384 := by
  have hsum : (a + 16383) % 2 ^ 64 = a + 16383 := Nat.mod_eq_of_lt (by omega)
  rw [alignUp, show a + pageSize - 1 = a + 16383 from rfl, hsum]
  exact and_complement_mask 14 (by omega)

end Rounding

def inward (I : Interval) : Interval := ⟨alignUp I.start, alignDown I.stop⟩

/-- Less than four pages are left when the range is rounded inwards. -/
def IsShort (I : Interval) : Prop := (inward I).stop - (inward I).start < 4 * pageSize

lemma isShort_iff {K : Interval} :
    IsShort K ↔ alignDown K.stop - alignUp K.start < 4 * pageSize := Iff.rfl

instance : DecidablePred IsShort := fun _ => inferInstanceAs (Decidable (_ < _))

def Overlaps (I Z : Interval) : Prop := I.start < Z.stop ∧ Z.start < I.stop

instance (I Z : Interval) : Decidable (Overlaps I Z) := inferInstanceAs (Decidable (_ ∧ _))

/-- The range without the zone of the first stage. -/
def pieces (zone : Option Interval) (I : Interval) : List Interval :=
  match zone.filter (Overlaps I ·) with
  | none   => [I]
  | some Z => [⟨I.start, Z.start⟩, ⟨Z.stop, I.stop⟩]

def kept (K : Interval) : List Interval := if IsShort K then [] else [inward K]

/-- What the second stage should add for a range. -/
def handed (zone : Option Interval) (I : Interval) : List Interval :=
  (pieces zone I).flatMap kept

/-! ### Calls of `add_range` -/

/-- `add_range` finds its reserved pages in so many rounds. -/
def Settles (fuel : Nat) (I : Interval) : Prop :=
  ∃ reserved, State.reservedPages ((I.stop - I.start) / pageSize) fuel 0 = .ok reserved

structure Paged (I : Interval) : Prop where
  start : pageSize ∣ I.start
  stop : pageSize ∣ I.stop
  two : 2 * pageSize ≤ I.stop - I.start

/-- The call returns, at the range or at its place in the direct map. -/
lemma Settles.addRange {fuel base : Nat} {I : Interval} {debug : Bool} {s : State}
    (h : Settles fuel I) (hI : Paged I) (hbase : pageSize ∣ base)
    (hdebug : debug = true → isKernelAddress (I.start + base) = s.isDmap) :
    ∃ s', s.addRange debug fuel (I.start + base) (I.stop + base) = .ok s' := by
  obtain ⟨reserved, hreserved⟩ := h
  have htwo := hI.two
  have hpages := Nat.div_mul_cancel (Nat.dvd_sub hI.stop hI.start)
  have hstop : I.stop + base = I.start + base + (I.stop - I.start) / pageSize * pageSize := by
    rw [hpages]
    rw [pageSize_eq] at htwo
    omega
  rw [hstop]
  refine State.addRange_of_reserve (Nat.dvd_add hI.start hbase) hdebug ?_ hreserved
  exact (Nat.le_div_iff_mul_le (by decide)).2 htwo

/-- For the ranges that the loop settles there is a number of rounds. -/
lemma exists_settles {l : List Interval} (hl : ∀ I ∈ l, Paged I)
    (hne : ∀ I ∈ l, ((I.stop - I.start) / pageSize + 31) % (pageSize + 1) ≠ 0) :
    ∃ n, ∀ fuel ≥ n, ∀ I ∈ l, Settles fuel I := by
  induction l with
  | nil => exact ⟨0, by simp⟩
  | cons I l ih =>
    obtain ⟨hI, hl⟩ := List.forall_mem_cons.1 hl
    obtain ⟨hneI, hne⟩ := List.forall_mem_cons.1 hne
    obtain ⟨n, hn⟩ := ih hl hne
    have htwo : 2 ≤ (I.stop - I.start) / pageSize := (Nat.le_div_iff_mul_le (by decide)).2 hI.two
    obtain ⟨reserved, hreserve⟩ := (State.exists_isReserve_iff htwo).2 hneI
    obtain ⟨k, hk⟩ := hreserve.reached htwo reserved (Nat.zero_le _) (by omega) (by omega)
    refine ⟨max n k, fun fuel hfuel => List.forall_mem_cons.2 ⟨⟨reserved, ?_⟩, ?_⟩⟩
    · exact State.reservedPages_mono (le_of_max_le_right hfuel) hk
    · exact hn fuel (le_of_max_le_left hfuel)

/-! ### Zones of the allocator -/

/-- The physical range of a zone, with its metadata. -/
def zoneRange (z : Zone) : Interval :=
  ⟨dmapAddrToPhys z.metaArray, dmapAddrToPhys z.dataBase + z.totalPages * pageSize⟩

/-- The zone is in the direct map and does not reach its end. -/
structure InDmap (z : Zone) : Prop where
  addr : dmapStart < z.addr
  stop : z.stop < 2 ^ 48 + dmapStart

section InDmap

variable {z : Zone}

lemma InDmap.header (hz : InDmap z) (hwf : z.Wf) : dmapAddrToPhys z.addr ≠ 0 := by
  have haddr := hz.addr
  have hstop := hz.stop
  have hheader := hwf.header
  have hle := z.dataBase_le_stop
  obtain ⟨a, ha⟩ := Nat.exists_eq_add_of_le' haddr.le
  rw [ha, dmapAddrToPhys_add (by omega)]
  omega

lemma InDmap.physRange (hz : InDmap z) (hwf : z.Wf) :
    z.physRange = ((zoneRange z).start, (zoneRange z).stop) := by
  have haddr := hz.addr
  have hstop := hz.stop
  have hheader := hwf.header
  have heq : z.stop = z.dataBase + z.totalPages * pageSize := add_mul ..
  obtain ⟨b, hb⟩ := Nat.exists_eq_add_of_le' (show dmapStart ≤ z.dataBase by omega)
  have hmod : z.stop % 2 ^ 64 = b + z.totalPages * pageSize + dmapStart := by
    rw [dmapStart_eq] at *
    omega
  rw [Zone.physRange, zoneRange, hmod, hb, dmapAddrToPhys_add (by omega),
    dmapAddrToPhys_add (by omega)]

end InDmap

/-- The zones of the allocator are at the ranges, which are disjoint. -/
structure Handed (R : List Interval) (s : State) (L : Layout) : Prop where
  managed : Managed (R.map fun I => ⟨I.start, I.stop⟩) [] s L
  inDmap : ∀ z ∈ L.zones, InDmap z
  ranges : L.zones.map zoneRange = R
  apart : R.Pairwise Interval.Apart

variable {debug : Bool} {fuel rounds : Nat} {s s' : State} {L : Layout} {R R' : List Interval}
  {I J K Z : Interval} {zone : Option Interval}

lemma Handed.addRange (h : Handed R s L) (hlt : K.stop < 2 ^ 48) (hapart : ∀ J ∈ R, K.Apart J)
    (hs : s.addRange debug fuel (K.start + dmapStart) (K.stop + dmapStart) = .ok s') :
    ∃ L', Handed (K :: R) s' L' := by
  have hd : ∀ r ∈ R.map fun I => (⟨I.start, I.stop⟩ : Region),
      K.stop ≤ r.start ∨ r.stop ≤ K.start := by
    intro r hr
    obtain ⟨J, hJ, rfl⟩ := List.mem_map.1 hr
    exact hapart J hJ
  obtain ⟨z, hmeta, hstop, -, hzones, hm⟩ := h.managed.addRange hlt hd hs
  have hwf : z.Wf := hm.inv.wf z (by rw [hzones]; exact List.mem_cons_self ..)
  have hpos := hwf.pos
  have hroom := hwf.room
  have hin : InDmap z := ⟨by omega, by omega⟩
  have hmod : (K.stop + dmapStart) % 2 ^ 64 = K.stop + dmapStart := by
    rw [dmapStart_eq]
    omega
  have hrange : zoneRange z = K := by
    have hphys := hin.physRange hwf
    have hdata := z.dataBase_le_stop
    have hheader := hwf.header
    rw [Zone.physRange, hmeta, hstop, hmod, dmapAddrToPhys_add (by omega),
      dmapAddrToPhys_add hlt, Prod.mk.injEq] at hphys
    rw [← Interval.mk.injEq] at hphys
    exact hphys.symm
  refine ⟨L.addZone z, hm, ?_, ?_, List.pairwise_cons.2 ⟨hapart, h.apart⟩⟩
  · rw [hzones]
    exact List.forall_mem_cons.2 ⟨hin, h.inDmap⟩
  · rw [hzones, List.map_cons, h.ranges, hrange]

lemma Handed.overlappingRange (h : Handed R s L) (hrounds : R.length < rounds)
    (hlt : I.start < I.stop) : s.overlappingRange debug rounds I.start I.stop =
      .ok ((R.map fun J => (J.start, J.stop)).find? fun r => I.start < r.2 ∧ r.1 < I.stop) := by
  have hranges : R.map (fun J => (J.start, J.stop)) = L.zones.map Zone.physRange := by
    rw [← h.ranges, List.map_map]
    exact List.map_congr_left fun z hz =>
      ((h.inDmap z hz).physRange (h.managed.inv.wf z hz)).symm
  rw [State.overlappingRange, if_neg (not_le.2 hlt), hranges]
  refine State.overlappingFrom_eq (fun z hz => ?_) (fun _ z hz => ?_) h.managed.inv.chain ?_
  · exact (h.inDmap z hz).header (h.managed.inv.wf z hz)
  · exact (h.inDmap z hz).stop.trans_le (by decide)
  rw [← h.ranges, List.length_map] at hrounds
  exact hrounds

/-! ### One range -/

lemma isShort_of_le (hle : K.stop ≤ K.start) (hlow : K.start < 2 ^ 63) : IsShort K := by
  rw [IsShort, inward, alignUp_eq hlow, alignDown_eq (by omega), pageSize_eq]
  dsimp only
  omega

lemma inward_bounds (hstart : K.start < 2 ^ 63) (hstop : K.stop < 2 ^ 64) :
    K.start ≤ (inward K).start ∧ (inward K).stop ≤ K.stop := by
  rw [inward, alignUp_eq hstart, alignDown_eq hstop]
  dsimp only
  omega

lemma inward_aligned (hstart : K.start < 2 ^ 63) (hstop : K.stop < 2 ^ 64) :
    pageSize ∣ (inward K).start ∧ pageSize ∣ (inward K).stop := by
  rw [inward, alignUp_eq hstart, alignDown_eq hstop, pageSize_eq]
  exact ⟨Nat.dvd_mul_left .., Nat.dvd_mul_left ..⟩

/-- Of four pages two are whole. -/
lemma inward_paged (hsize : 4 * pageSize ≤ K.stop - K.start) (hstop : K.stop ≤ 2 ^ 48) :
    Paged (inward K) := by
  rw [pageSize_eq] at hsize
  obtain ⟨hstart, hend⟩ := inward_aligned (K := K) (by omega) (by omega)
  refine ⟨hstart, hend, ?_⟩
  rw [inward, alignUp_eq (by omega), alignDown_eq (by omega), pageSize_eq]
  dsimp only
  omega

lemma addSubrange_of_end (hstart : K.start ≤ 2 ^ 48) (hstop : K.stop = 2 ^ 48) :
    addSubrange debug fuel s K.start K.stop = .ok s := by
  have hup : alignUp K.start ≤ 2 ^ 48 := by
    rw [alignUp_eq (by omega)]
    omega
  have hle : 2 ^ 48 ≤ physAddrToDmap (alignUp K.start) := by
    rcases Nat.eq_or_lt_of_le hup with heq | hlt
    · rw [heq]
      decide
    · rw [physAddrToDmap_of_lt hlt, dmapStart_eq]
      omega
  have hend : physAddrToDmap (alignDown K.stop) = 2 ^ 48 := by
    rw [hstop]
    decide
  rw [addSubrange, hend]
  exact if_neg (not_lt.2 hle)

/-- The range is one that `add_subrange` treats as it should. -/
structure Proper (K : Interval) : Prop where
  start_le : K.start ≤ 2 ^ 48
  stop_le : K.stop ≤ 2 ^ 48
  last_page : K.stop < 2 ^ 48 → K.start ≤ 2 ^ 48 - pageSize
  at_end : K.stop = 2 ^ 48 → IsShort K

lemma addSubrange_spec (debug : Bool) (h : Handed R s L) (hK : Proper K)
    (hapart : ∀ J ∈ R, K.Apart J) (hret : ∀ J ∈ kept K, Settles fuel J) :
    ∃ s' L', addSubrange debug fuel s K.start K.stop = .ok s' ∧ Handed (kept K ++ R) s' L' := by
  rcases Nat.eq_or_lt_of_le hK.stop_le with hend | hstop
  · rw [addSubrange_of_end hK.start_le hend, kept, if_pos (hK.at_end hend)]
    exact ⟨s, L, rfl, h⟩
  have hstart := hK.last_page hstop
  rw [pageSize_eq] at hstart
  obtain ⟨hle, hle'⟩ := inward_bounds (K := K) (by omega) (by omega)
  have hup : alignUp K.start < 2 ^ 48 := by
    rw [alignUp_eq (by omega)]
    omega
  have hdown : alignDown K.stop < 2 ^ 48 := hle'.trans_lt hstop
  rw [addSubrange, physAddrToDmap_of_lt hup, physAddrToDmap_of_lt hdown, Nat.add_sub_add_right]
  by_cases hshort : IsShort K
  · have hsize := hshort
    rw [isShort_iff, ← not_le] at hsize
    rw [if_neg hsize, ite_self, kept, if_pos hshort]
    exact ⟨s, L, rfl, h⟩
  · have hsize := hshort
    rw [isShort_iff, not_lt] at hsize
    have hlt : alignUp K.start + dmapStart < alignDown K.stop + dmapStart := by
      rw [pageSize_eq] at hsize
      omega
    rw [kept, if_neg hshort] at hret ⊢
    rw [if_pos hlt, if_pos hsize]
    obtain ⟨hal, hal'⟩ := inward_aligned (K := K) (by omega) (by omega)
    have hpaged : Paged (inward K) :=
      ⟨hal, hal', (Nat.mul_le_mul_right _ (by decide)).trans hsize⟩
    obtain ⟨s', hs⟩ := (hret _ (.head _)).addRange (s := s) hpaged (by decide)
      fun _ => (isKernelAddress_add hup).trans h.managed.isDmap.symm
    obtain ⟨L', h'⟩ : ∃ L', Handed (inward K :: R) s' L' := by
      refine h.addRange (K := inward K) hdown ?_ hs
      intro J hJ
      rcases hapart J hJ with hJ | hJ
      · exact .inl (hle'.trans hJ)
      · exact .inr (hJ.trans hle)
    exact ⟨s', L', hs, h'⟩

/-- One of the two calls of `add_subrange` in `flush`. -/
lemma addPiece_spec (debug : Bool) (h : Handed R s L) (hK : Proper K)
    (hapart : ∀ J ∈ R, K.Apart J) (hret : ∀ J ∈ kept K, Settles fuel J) :
    ∃ s' L', (if K.start < K.stop then addSubrange debug fuel s K.start K.stop else .ok s) =
      .ok s' ∧ Handed (kept K ++ R) s' L' := by
  split_ifs with hlt
  · exact addSubrange_spec debug h hK hapart hret
  · have hlow := hK.start_le
    rw [kept, if_pos (isShort_of_le (not_lt.1 hlt) (by omega))]
    exact ⟨s, L, rfl, h⟩

/-! ### The zone of the first stage -/

/-- The zone of the first stage is part of the range or does not meet it. -/
structure ZoneFits (zone : Option Interval) (I : Interval) : Prop where
  le : ∀ Z ∈ zone, Z.start ≤ Z.stop
  inside : ∀ Z ∈ zone, (I.start ≤ Z.start ∧ Z.stop ≤ I.stop) ∨ I.Apart Z

lemma ZoneFits.of_overlaps (hzone : ZoneFits zone I) (hZ : Z ∈ zone) (hov : Overlaps I Z) :
    I.start ≤ Z.start ∧ Z.stop ≤ I.stop := by
  rcases hzone.inside Z hZ with hin | hap | hap
  · exact hin
  · exact absurd hov.2 (not_lt.2 hap)
  · exact absurd hov.1 (not_lt.2 hap)

/-- The ranges in `R` are the zone of the first stage or before `I`. -/
structure Behind (zone : Option Interval) (R : List Interval) (I : Interval) : Prop where
  zone_mem : ∀ Z ∈ zone, Z ∈ R
  others : ∀ J ∈ R, zone = some J ∨ J.stop ≤ I.start

/-- Only the zone of the first stage can overlap with the range. -/
lemma Behind.find_eq (hR : Behind zone R I) :
    (R.map fun J => (J.start, J.stop)).find? (fun r => I.start < r.2 ∧ r.1 < I.stop) =
      (zone.filter (Overlaps I ·)).map fun Z => (Z.start, Z.stop) := by
  cases hfind : (R.map fun J => (J.start, J.stop)).find? fun r => I.start < r.2 ∧ r.1 < I.stop with
  | none =>
    rw [List.find?_eq_none] at hfind
    cases zone with
    | none => rfl
    | some Z =>
      have hZ := hfind _ (List.mem_map.2 ⟨Z, hR.zone_mem Z rfl, rfl⟩)
      rw [Option.filter_some, if_neg (show ¬ decide (Overlaps I Z) = true from hZ)]
      rfl
  | some r =>
    have hr := List.find?_some hfind
    obtain ⟨J, hJ, rfl⟩ := List.mem_map.1 (List.mem_of_find?_eq_some hfind)
    rcases hR.others J hJ with rfl | hle
    · rw [Option.filter_some, if_pos (show decide (Overlaps I J) = true from hr)]
      rfl
    · rw [decide_eq_true_iff] at hr
      exact absurd hr.1 (not_lt.2 hle)

lemma ZoneFits.filter_eq_none (hzone : ZoneFits zone I) (hle : I.stop ≤ I.start) :
    zone.filter (Overlaps I ·) = none := by
  cases zone with
  | none => rfl
  | some Z =>
    have hZ : ¬ Overlaps I Z := by
      rintro ⟨hlt, hlt'⟩
      rcases hzone.inside Z rfl with hin | hap | hap
      · omega
      · omega
      · omega
    simp [hZ]

lemma overlappingRange_eq (h : Handed R s L) (hR : Behind zone R I) (hzone : ZoneFits zone I)
    (hrounds : R.length < rounds) : s.overlappingRange debug rounds I.start I.stop =
      .ok ((zone.filter (Overlaps I ·)).map fun Z => (Z.start, Z.stop)) := by
  rcases Nat.lt_or_ge I.start I.stop with hlt | hle
  · rw [h.overlappingRange hrounds hlt, hR.find_eq]
  · rw [hzone.filter_eq_none hle, State.overlappingRange, if_pos hle]
    rfl

lemma Behind.apart (hR : Behind zone R I)
    (hZ : ∀ Z ∈ zone, ¬ Overlaps I Z) : ∀ J ∈ R, I.Apart J := by
  intro J hJ
  rcases hR.others J hJ with hzone | hstop
  · have hov := hZ J hzone
    unfold Overlaps at hov
    unfold Interval.Apart
    omega
  · exact .inr hstop

lemma kept_length (K : Interval) : (kept K).length ≤ 1 := by
  rw [kept]
  split_ifs
  · exact Nat.zero_le 1
  · exact le_rfl

lemma mem_kept : J ∈ kept K ↔ ¬ IsShort K ∧ J = inward K := by
  rw [kept]
  split_ifs with hshort
  · simp [hshort]
  · simp [hshort]

lemma kept_bounds (hstart : K.start ≤ 2 ^ 48) (hstop : K.stop ≤ 2 ^ 48) (hJ : J ∈ kept K) :
    K.start ≤ J.start ∧ J.stop ≤ K.stop := by
  obtain ⟨-, rfl⟩ := mem_kept.1 hJ
  exact inward_bounds (by omega) (by omega)

lemma pieces_bounds (hzone : ZoneFits zone I) (hK : K ∈ pieces zone I) :
    I.start ≤ K.start ∧ K.stop ≤ I.stop := by
  rw [pieces] at hK
  cases hov : zone.filter (Overlaps I ·) with
  | none =>
    rw [hov] at hK
    obtain rfl := List.mem_singleton.1 hK
    exact ⟨Nat.le_refl _, Nat.le_refl _⟩
  | some Z =>
    rw [hov] at hK
    obtain ⟨rfl, hZ⟩ := Option.filter_eq_some_iff.1 hov
    obtain ⟨hbefore, hafter⟩ := hzone.of_overlaps rfl (of_decide_eq_true hZ)
    have hle := hzone.le Z rfl
    rcases List.mem_pair.1 hK with rfl | rfl
    · exact ⟨Nat.le_refl _, hle.trans hafter⟩
    · exact ⟨hbefore.trans hle, Nat.le_refl _⟩

lemma mem_handed : J ∈ handed zone I ↔ ∃ K ∈ pieces zone I, ¬ IsShort K ∧ J = inward K := by
  simp [handed, mem_kept]

lemma handed_bounds (hzone : ZoneFits zone I) (hI : ∀ K ∈ pieces zone I, Proper K)
    (hJ : J ∈ handed zone I) : I.start ≤ J.start ∧ J.stop ≤ I.stop := by
  obtain ⟨K, hK, -, rfl⟩ := mem_handed.1 hJ
  have hstart := (hI K hK).start_le
  have hstop := (hI K hK).stop_le
  obtain ⟨hle, hle'⟩ := inward_bounds (K := K) (by omega) (by omega)
  obtain ⟨hK, hK'⟩ := pieces_bounds hzone hK
  exact ⟨hK.trans hle, hle'.trans hK'⟩

/-- A range of normal memory is added without the zone of the first stage. -/
lemma flush_spec (h : Handed R s L) (hR : Behind zone R I) (hzone : ZoneFits zone I)
    (hI : ∀ K ∈ pieces zone I, Proper K) (hret : ∀ J ∈ handed zone I, Settles fuel J)
    (hrounds : R.length < rounds) :
    ∃ s' R' L', flush debug fuel rounds s I.start I.stop = .ok s' ∧ Handed R' s' L' ∧
      (∀ J, J ∈ R' ↔ J ∈ R ∨ J ∈ handed zone I) ∧ R'.length ≤ R.length + 2 := by
  rw [flush, overlappingRange_eq h hR hzone hrounds]
  rw [pieces] at hI
  rw [handed, pieces] at *
  cases hov : zone.filter (Overlaps I ·) with
  | none =>
    rw [hov] at hI
    have hZ : ∀ Z ∈ zone, ¬ Overlaps I Z := by
      rintro Z rfl hZ
      simp [hZ] at hov
    obtain ⟨s', L', hs', h'⟩ := addSubrange_spec debug h
      (hI I (List.mem_singleton.2 rfl)) (hR.apart hZ) fun J hJ => hret J (by simpa [hov] using hJ)
    refine ⟨s', _, L', hs', h', fun J => ?_, ?_⟩
    · simp [or_comm]
    · have := kept_length I
      rw [List.length_append]
      omega
  | some Z =>
    rw [hov] at hI
    obtain ⟨rfl, hZ⟩ := Option.filter_eq_some_iff.1 hov
    rw [decide_eq_true_iff] at hZ
    have hle := hzone.le Z rfl
    obtain ⟨hbefore, hafter⟩ := hzone.of_overlaps rfl hZ
    have hproper := hI ⟨I.start, Z.start⟩ (.head _)
    -- before and after the zone
    have hfirst : ∀ J ∈ R, (⟨I.start, Z.start⟩ : Interval).Apart J := by
      intro J hJ
      rcases hR.others J hJ with hJ | hJ
      · obtain rfl := Option.some.inj hJ
        exact .inl le_rfl
      · exact .inr hJ
    have hsecond : ∀ J ∈ kept ⟨I.start, Z.start⟩ ++ R, (⟨Z.stop, I.stop⟩ : Interval).Apart J := by
      intro J hJ
      refine .inr ?_
      rcases List.mem_append.1 hJ with hJ | hJ
      · exact le_trans (kept_bounds hproper.start_le hproper.stop_le hJ).2 hle
      · rcases hR.others J hJ with hJ | hJ
        · rw [Option.some.inj hJ]
        · exact hJ.trans (hbefore.trans hle)
    rw [hov] at hret
    obtain ⟨s₁, L₁, hs₁, h₁⟩ := addPiece_spec debug h hproper hfirst
      fun J hJ => hret J (List.mem_flatMap.2 ⟨_, .head _, hJ⟩)
    have hproper' := hI ⟨Z.stop, I.stop⟩ (.tail _ (List.mem_singleton.2 rfl))
    obtain ⟨s', L', hs', h'⟩ := addPiece_spec debug h₁ hproper' hsecond
      fun J hJ => hret J (List.mem_flatMap.2 ⟨_, .tail _ (.head _), hJ⟩)
    refine ⟨s', _, L', ?_, h', fun J => ?_, ?_⟩
    · simp only [Option.map_some, bind, Except.bind, hs₁]
      exact hs'
    · simp only [List.mem_append, List.flatMap_cons, List.flatMap_nil, List.append_nil]
      tauto
    · have h1 := kept_length ⟨I.start, Z.start⟩
      have h2 := kept_length ⟨Z.stop, I.stop⟩
      rw [List.length_append, List.length_append]
      omega

end Mars.Earlyinit
