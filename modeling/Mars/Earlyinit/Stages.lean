import Mars.Earlyinit.HandOver

/-!
# Both stages

After both stages the zones of the allocator are the zone of the first stage and what is left of
every run of normal memory without it. So no page is given twice and none that is not normal
memory, and nothing is forgotten but what is too short or reaches the end of the address space.
-/

namespace Mars.Earlyinit

open Lib Lib.Intervals Pm Vm

/-! ### Memory maps -/

/-- The descriptors are sorted and disjoint, and conventional memory is not for runtime services. -/
structure ValidMap (map : List MemoryDescriptor) : Prop where
  sorted : (map.map (·.range)).Pairwise fun I J => I.stop ≤ J.start
  below : ∀ d ∈ map, d.range.stop ≤ 2 ^ 48
  conventional : ∀ d ∈ map, d.ty = .conventional → d.isRuntime = false

def normalRanges (map : List MemoryDescriptor) : List Interval :=
  (map.filter (·.isNormal)).map (·.range)

def stage0Zone (map : List MemoryDescriptor) : Option Interval :=
  (stage0Entry map).map fun entry => ⟨alignUp entry.start, alignDown entry.stop⟩

/-- The ranges are disjoint ranges of pages of normal memory. -/
structure Sound (map : List MemoryDescriptor) (R : List Interval) : Prop where
  apart : R.Pairwise Interval.Apart
  aligned : ∀ I ∈ R, pageSize ∣ I.start ∧ pageSize ∣ I.stop
  normal : ∀ I ∈ R, ∀ x, I.Contains x → Covers (normalRanges map) x

def HasPage (I : Interval) (p : Nat) : Prop := I.start ≤ p * pageSize ∧ (p + 1) * pageSize ≤ I.stop

/-- Every page of normal memory is in one of the ranges or in a short piece. -/
def Complete (map : List MemoryDescriptor) (R : List Interval) : Prop :=
  ∀ J, IsRun (normalRanges map) J → ∀ p, HasPage J p →
    (∃ I ∈ R, HasPage I p) ∨ ∃ K ∈ pieces (stage0Zone map) J, IsShort K ∧ HasPage K p

/-- The zones of the allocator are normal memory, all of it. -/
def GivesNormal (map : List MemoryDescriptor) (s : State) : Prop :=
  ∃ zones, ZoneChain s.mem s.zoneHead zones ∧ (∀ z ∈ zones, z.addr ≠ 0) ∧
    Sound map (zones.map zoneRange) ∧ Complete map (zones.map zoneRange)

/-- No address is translated wrongly at the end of the address space. -/
structure ClearOfEnd (map : List MemoryDescriptor) : Prop where
  zone : ∀ Z ∈ stage0Zone map, Z.stop ≠ 2 ^ 48
  start : ∀ J ∈ coalesce none (normalRanges map), J.stop < 2 ^ 48 → J.start ≤ 2 ^ 48 - pageSize
  stop : ∀ J ∈ coalesce none (normalRanges map), ∀ K ∈ pieces (stage0Zone map) J,
    K.stop = 2 ^ 48 → IsShort K

/-- The ranges that should be given: the zone of the first stage, and what is left of the runs. -/
def given (map : List MemoryDescriptor) : List Interval :=
  (stage0Zone map).toList ++ (coalesce none (normalRanges map)).flatMap (handed (stage0Zone map))

/-- The calls of `add_range` for them return: there is no range for which the loop that looks for
the reserved pages goes on for ever. -/
def AddsReturn (map : List MemoryDescriptor) : Prop :=
  ∀ I ∈ given map, ((I.stop - I.start) / pageSize + 31) % (pageSize + 1) ≠ 0

variable {debug : Bool} {fuel rounds : Nat} {s t : State} {L : Layout} {R : List Interval}
  {I J K Z : Interval} {Is : List Interval} {zone : Option Interval} {m : Mem}
  {map : List MemoryDescriptor} {d : MemoryDescriptor} {p x : Nat}

/-! ### The second stage as a loop over the runs -/

lemma populateFrom_cons (hd : d.isNormal = true) (start stop : Option Nat) :
    populateFrom debug fuel rounds s start stop (d :: map) =
      if stop = some d.start then populateFrom debug fuel rounds s start (some d.stop) map
      else flushCurrent debug fuel rounds s start stop >>= fun s =>
        populateFrom debug fuel rounds s (some d.start) (some d.stop) map := by
  rw [populateFrom]
  simp [hd]

lemma populateFrom_eq (hnormal : ∀ d ∈ map, d.isNormal = true)
    (hstop : ∀ d ∈ map, d.stop = d.range.stop) (current : Option Interval) (s : State) :
    populateFrom debug fuel rounds s (current.map (·.start)) (current.map (·.stop)) map =
      (coalesce current (map.map (·.range))).foldlM
        (fun s I => flush debug fuel rounds s I.start I.stop) s := by
  induction map generalizing current s with
  | nil =>
    cases current with
    | none => rfl
    | some J => exact (bind_pure _).symm
  | cons d map ih =>
    obtain ⟨hd, hnormal⟩ := List.forall_mem_cons.1 hnormal
    obtain ⟨hdstop, hstop⟩ := List.forall_mem_cons.1 hstop
    have hnext := ih hnormal hstop
    rw [populateFrom_cons hd, hdstop, List.map_cons]
    cases current with
    | none => exact hnext (some d.range) s
    | some J =>
      rw [coalesce, show d.start = d.range.start from rfl, Option.map_some, Option.map_some]
      by_cases hadj : J.stop = d.range.start
      · rw [if_pos hadj, if_pos (congrArg some hadj)]
        exact hnext (some ⟨J.start, d.range.stop⟩) s
      · rw [if_neg hadj, if_neg fun heq => hadj (Option.some.inj heq), List.foldlM_cons]
        exact bind_congr fun s => hnext (some d.range) s

/-- A part of a zone or of a run comes from a range before. -/
lemma Behind.flush (hR : Behind zone R I) (hlt : J.stop < I.start) (hzone : ZoneFits zone J)
    (hJ : ∀ K ∈ pieces zone J, Proper K) {R' : List Interval}
    (hR' : ∀ K, K ∈ R' ↔ K ∈ R ∨ K ∈ handed zone J) : Behind zone R' I where
  zone_mem Z hZ := (hR' Z).2 (.inl (hR.zone_mem Z hZ))
  others K hK := by
    rcases (hR' K).1 hK with hK | hK
    · exact hR.others K hK
    · exact .inr (le_trans (handed_bounds hzone hJ hK).2 hlt.le)

/-- The second stage adds what is left of every run. -/
lemma flushAll_spec (debug : Bool) (hgap : Gapped Is) (hzone : ∀ I ∈ Is, ZoneFits zone I)
    (hproper : ∀ I ∈ Is, ∀ K ∈ pieces zone I, Proper K) (hR : ∀ I ∈ Is, Behind zone R I)
    (hret : ∀ I ∈ Is, ∀ J ∈ handed zone I, Settles fuel J) (h : Handed R s L)
    (hrounds : R.length + 2 * Is.length < rounds) :
    ∃ s' R' L', Is.foldlM (fun s I => flush debug fuel rounds s I.start I.stop) s = .ok s' ∧
      Handed R' s' L' ∧ ∀ J, J ∈ R' ↔ J ∈ R ∨ ∃ I ∈ Is, J ∈ handed zone I := by
  induction Is generalizing R s L with
  | nil => exact ⟨s, R, L, rfl, h, by simp⟩
  | cons I Is ih =>
    obtain ⟨hI, hgap⟩ := List.pairwise_cons.1 hgap
    obtain ⟨hzoneI, hzone⟩ := List.forall_mem_cons.1 hzone
    obtain ⟨hproperI, hproper⟩ := List.forall_mem_cons.1 hproper
    obtain ⟨hRI, hR⟩ := List.forall_mem_cons.1 hR
    obtain ⟨hretI, hret⟩ := List.forall_mem_cons.1 hret
    rw [List.length_cons] at hrounds
    obtain ⟨s₁, R₁, L₁, hs₁, h₁, hmem, hlength⟩ : ∃ s₁ R₁ L₁,
        flush debug fuel rounds s I.start I.stop = .ok s₁ ∧ _ :=
      flush_spec h hRI hzoneI hproperI hretI (by omega)
    have hR₁ : ∀ J ∈ Is, Behind zone R₁ J := fun J hJ =>
      (hR J hJ).flush (hI J hJ) hzoneI hproperI hmem
    obtain ⟨s₂, R₂, L₂, hs₂, h₂, hmem₂⟩ := ih hgap hzone hproper hR₁ hret h₁ (by omega)
    refine ⟨s₂, R₂, L₂, ?_, h₂, fun J => ?_⟩
    · rw [List.foldlM_cons, hs₁]
      exact hs₂
    · rw [hmem₂, hmem]
      simp [or_assoc]

/-! ### The first stage -/

lemma mem_of_foldl {f : Option MemoryDescriptor → MemoryDescriptor → Option MemoryDescriptor}
    (hf : ∀ best x, f best x = best ∨ f best x = some x) (l : List MemoryDescriptor)
    (best : Option MemoryDescriptor) (h : l.foldl f best = some d) : best = some d ∨ d ∈ l := by
  induction l generalizing best with
  | nil => exact .inl h
  | cons x l ih =>
    rcases ih _ h with hbest | hmem
    · rcases hf best x with heq | heq
      · exact .inl (heq ▸ hbest)
      · cases heq.symm.trans hbest
        exact .inr (.head _)
    · exact .inr (.tail _ hmem)

lemma maxByKey_mem {key : MemoryDescriptor → UInt64} {l : List MemoryDescriptor}
    (h : maxByKey key l = some d) : d ∈ l := by
  refine (mem_of_foldl ?_ l none h).resolve_left (by simp)
  rintro (_ | best) x
  · exact .inr rfl
  · dsimp only
    split_ifs
    · exact .inr rfl
    · exact .inl rfl

lemma stage0Entry_spec (h : stage0Entry map = some d) :
    d ∈ map ∧ d.ty = .conventional ∧ 4 * pageSize ≤ d.size := by
  obtain ⟨hmem, hd⟩ := List.mem_filter.1 (maxByKey_mem h)
  rw [Bool.and_eq_true, beq_iff_eq, decide_eq_true_iff] at hd
  exact ⟨hmem, hd⟩

lemma isNormal_of_conventional (hty : d.ty = .conventional) (hruntime : d.isRuntime = false) :
    d.isNormal = true := by
  rw [MemoryDescriptor.isNormal, hty, hruntime]
  rfl

/-! ### The transition -/

lemma Handed.of_moved (h : Tracks (R.map fun I => ⟨I.start, I.stop⟩) [] s L)
    (hmoved : State.Moved s L t) (hlow : ∀ I ∈ R, I.stop < 2 ^ 48)
    (hapart : R.Pairwise Interval.Apart) : Handed R t L.toDmap := by
  have hzones : ∀ z ∈ L.zones, z.stop < 2 ^ 48 := by
    intro z hz
    obtain ⟨I, hI, heq⟩ := List.mem_map.1 (h.region_mem hz)
    have hstop : z.stop = I.stop := (congrArg Region.stop heq).symm
    rw [hstop]
    exact hlow I hI
  have hlow' : ∀ z ∈ L.zones, z.stop ≤ 2 ^ 48 := fun z hz => (hzones z hz).le
  have hin : ∀ z ∈ L.zones, InDmap z.toDmap := by
    intro z hz
    obtain ⟨-, hne, -, -⟩ := (h.inv.wf z hz).low (hlow' z hz)
    refine ⟨?_, ?_⟩
    · rw [show z.toDmap.addr = z.addr + dmapStart from rfl]
      omega
    · rw [Zone.toDmap_stop]
      exact Nat.add_lt_add_right (hzones z hz) _
  have hrange : ∀ z ∈ L.zones, zoneRange z.toDmap = ⟨z.region.start, z.region.stop⟩ := by
    intro z hz
    have hlt := hzones z hz
    have hwf := h.inv.wf z hz
    have hmeta := (hwf.low (hlow' z hz)).1
    have hphys := (hin z hz).physRange (hwf.toDmap (hlow' z hz))
    rw [Zone.physRange_toDmap hwf hlt, Zone.physRange, Nat.mod_eq_of_lt (by omega),
      dmapAddrToPhys_of_lt hlt, dmapAddrToPhys_of_lt (show z.metaArray < 2 ^ 48 by omega),
      Prod.mk.injEq, ← Interval.mk.injEq] at hphys
    exact hphys.symm
  refine ⟨.of_moved h hmoved hlow', ?_, ?_, hapart⟩
  · intro y hy
    obtain ⟨z, hz, rfl⟩ := List.mem_map.1 hy
    exact hin z hz
  · calc L.toDmap.zones.map zoneRange
        = L.zones.map fun z => (⟨z.region.start, z.region.stop⟩ : Interval) := by
          rw [show L.toDmap.zones = L.zones.map Zone.toDmap from rfl, List.map_map]
          exact List.map_congr_left hrange
      _ = (L.zones.map Zone.region).map fun r => (⟨r.start, r.stop⟩ : Interval) := by
          rw [List.map_map]
          rfl
      _ = R := by
          rw [h.regions, List.map_map]
          exact List.map_id R

/-! ### Runs of a valid map -/

section Valid

variable (hmap : ValidMap map)

include hmap

lemma ValidMap.size_eq (hd : d ∈ map) : d.size = d.range.stop - d.range.start := by
  have hbelow := hmap.below d hd
  rw [MemoryDescriptor.range] at hbelow ⊢
  dsimp only at hbelow ⊢
  rw [MemoryDescriptor.size, Nat.mod_eq_of_lt (by omega), Nat.add_sub_cancel_left]

lemma ValidMap.stop_eq (hd : d ∈ map) : d.stop = d.range.stop := by
  have hbelow := hmap.below d hd
  have hle : d.range.start ≤ d.range.stop := Nat.le_add_right ..
  rw [MemoryDescriptor.stop, hmap.size_eq hd, show d.start = d.range.start from rfl,
    Nat.add_sub_cancel' hle, Nat.mod_eq_of_lt (by omega)]

lemma ValidMap.sorted_normalRanges : Sorted (normalRanges map) where
  le I hI := by
    obtain ⟨d, -, rfl⟩ := List.mem_map.1 hI
    exact Nat.le_add_right ..
  pairwise := hmap.sorted.sublist (List.filter_sublist.map _)

lemma ValidMap.stop_le (hJ : J ∈ coalesce none (normalRanges map)) : J.stop ≤ 2 ^ 48 := by
  rcases stop_of_mem_coalesce hJ with ⟨I, hI, -⟩ | ⟨I, hI, hstop⟩
  · cases hI
  · obtain ⟨d, hd, rfl⟩ := List.mem_map.1 hI
    rw [hstop]
    exact hmap.below d (List.mem_filter.1 hd).1

/-- The zone of the first stage is in a descriptor of normal memory. -/
lemma ValidMap.stage0Zone_eq (hZ : Z ∈ stage0Zone map) :
    ∃ I ∈ normalRanges map, Z = inward I ∧ I.stop ≤ 2 ^ 48 ∧ 4 * pageSize ≤ I.stop - I.start := by
  obtain ⟨d, hd, rfl⟩ := Option.map_eq_some_iff.1 hZ
  obtain ⟨hmem, hty, hsize⟩ := stage0Entry_spec hd
  have hnormal := isNormal_of_conventional hty (hmap.conventional d hmem hty)
  rw [hmap.size_eq hmem] at hsize
  refine ⟨d.range, List.mem_map_of_mem (List.mem_filter.2 ⟨hmem, hnormal⟩), ?_,
    hmap.below d hmem, hsize⟩
  rw [hmap.stop_eq hmem]
  rfl

lemma ValidMap.zone_paged (hZ : Z ∈ stage0Zone map) : Paged Z := by
  obtain ⟨I, -, rfl, hstop, hsize⟩ := hmap.stage0Zone_eq hZ
  exact inward_paged hsize hstop

lemma ValidMap.populateAllocStage0_spec (hret : ∀ Z ∈ stage0Zone map, Settles fuel Z)
    (debug : Bool) (m : Mem) : ∃ s, populateAllocStage0 debug fuel ⟨.new, m⟩ map = .ok s ∧
      Reach ((stage0Zone map).toList.map fun I => ⟨I.start, I.stop⟩) [] s := by
  rw [populateAllocStage0]
  cases hentry : stage0Entry map with
  | none =>
    rw [stage0Zone, hentry]
    exact ⟨_, rfl, .new m⟩
  | some d =>
    have hZ : (⟨alignUp d.start, alignDown d.stop⟩ : Interval) ∈ stage0Zone map :=
      Option.map_eq_some_iff.2 ⟨d, hentry, rfl⟩
    have hpaged := hmap.zone_paged hZ
    obtain ⟨I, -, heq, hstop, hsize⟩ := hmap.stage0Zone_eq hZ
    rw [pageSize_eq] at hsize
    have htwo := hpaged.two
    have hle := (inward_bounds (K := I) (by omega) (by omega)).2
    rw [← heq, pageSize_eq] at *
    dsimp only at hle htwo
    obtain ⟨s, hs⟩ := (hret _ hZ).addRange (s := ⟨.new, m⟩) hpaged (Nat.dvd_zero _)
      fun _ => isKernelAddress_of_lt (by dsimp only; omega)
    refine ⟨s, hs, ?_⟩
    rw [show stage0Zone map = some _ from hZ]
    exact .addRange (.new m) (by dsimp only; omega) (by simp) hs

/-- The zone of the first stage is in one of the runs. -/
lemma ValidMap.exists_run (hZ : Z ∈ stage0Zone map) :
    ∃ K ∈ coalesce none (normalRanges map), K.start ≤ Z.start ∧ Z.stop ≤ K.stop := by
  obtain ⟨I, hI, rfl, hstop, hsize⟩ := hmap.stage0Zone_eq hZ
  rw [pageSize_eq] at hsize
  obtain ⟨K, hK, hle, hle'⟩ := Intervals.exists_run hmap.sorted_normalRanges
    (show I.start < I.stop by omega) fun x hx => ⟨I, hI, hx⟩
  obtain ⟨hin, hin'⟩ := inward_bounds (K := I) (by omega) (by omega)
  exact ⟨K, hK, hle.trans hin, hin'.trans hle'⟩

lemma ValidMap.zoneFits (hJ : J ∈ coalesce none (normalRanges map)) :
    ZoneFits (stage0Zone map) J where
  le Z hZ := by
    have htwo := (hmap.zone_paged hZ).two
    rw [pageSize_eq] at htwo
    omega
  inside Z hZ := by
    obtain ⟨K, hK, hle, hle'⟩ := hmap.exists_run hZ
    by_cases hmeet : J.start ≤ K.stop ∧ K.start ≤ J.stop
    · obtain rfl := (gapped_runs hmap.sorted_normalRanges).eq_of_meet hK hJ hmeet.1 hmeet.2
      exact .inl ⟨hle, hle'⟩
    · refine .inr ?_
      unfold Interval.Apart
      omega

lemma ValidMap.zone_aligned (hZ : Z ∈ stage0Zone map) : pageSize ∣ Z.start ∧ pageSize ∣ Z.stop :=
  ⟨(hmap.zone_paged hZ).start, (hmap.zone_paged hZ).stop⟩

/-- Every piece of a run is added as it should be. -/
lemma ValidMap.proper (hclear : ClearOfEnd map) (hJ : J ∈ coalesce none (normalRanges map))
    (hK : K ∈ pieces (stage0Zone map) J) : Proper K := by
  have hle := le_of_mem_runs hmap.sorted_normalRanges hJ
  have hstop := hmap.stop_le hJ
  have hfits := hmap.zoneFits hJ
  have hbounds := pieces_bounds hfits hK
  have hends := hclear.stop J hJ K hK
  rw [pieces] at hK
  cases hov : (stage0Zone map).filter (Overlaps J ·) with
  | none =>
    rw [hov] at hK
    obtain rfl := List.mem_singleton.1 hK
    exact ⟨hle.trans hstop, hstop, hclear.start K hJ, hends⟩
  | some Z =>
    rw [hov] at hK
    obtain ⟨hZ, hdec⟩ := Option.filter_eq_some_iff.1 hov
    obtain ⟨hbefore, hafter⟩ := hfits.of_overlaps hZ (of_decide_eq_true hdec)
    have hZle := hfits.le Z hZ
    have hlow : Z.stop ≤ 2 ^ 48 - pageSize := by
      obtain ⟨k, hk⟩ := (hmap.zone_aligned hZ).2
      have hne := hclear.zone Z hZ
      rw [hk, pageSize_eq] at hne ⊢
      rw [hk, pageSize_eq] at hafter
      omega
    rcases List.mem_pair.1 hK with rfl | rfl
    · exact ⟨hle.trans hstop, hbounds.2.trans hstop,
        fun _ => hbefore.trans (hZle.trans hlow), hends⟩
    · exact ⟨hafter.trans hstop, hstop, fun _ => hlow, hends⟩

end Valid

/-! ### What is given -/

lemma mem_given : J ∈ given map ↔
    J ∈ stage0Zone map ∨ ∃ I ∈ coalesce none (normalRanges map), J ∈ handed (stage0Zone map) I := by
  rw [given, List.mem_append, Option.mem_toList, List.mem_flatMap]
  rfl

lemma HasPage.inward (hK : HasPage K p) (hstart : K.start < 2 ^ 63) (hstop : K.stop < 2 ^ 64) :
    HasPage (inward K) p := by
  obtain ⟨hle, hle'⟩ := hK
  rw [pageSize_eq] at hle hle'
  rw [HasPage, Earlyinit.inward, alignUp_eq hstart, alignDown_eq hstop, pageSize_eq]
  dsimp only
  omega

lemma HasPage.exists_piece (hJ : HasPage J p)
    (hzone : ∀ Z ∈ zone, pageSize ∣ Z.start ∧ pageSize ∣ Z.stop) :
    (∃ Z ∈ zone, HasPage Z p) ∨ ∃ K ∈ pieces zone J, HasPage K p := by
  rw [pieces]
  cases hov : zone.filter (Overlaps J ·) with
  | none => exact .inr ⟨J, List.mem_singleton.2 rfl, hJ⟩
  | some Z =>
    have hZ := (Option.filter_eq_some_iff.1 hov).1
    obtain ⟨⟨i, hi⟩, k, hk⟩ := hzone Z hZ
    obtain ⟨hle, hle'⟩ := hJ
    rw [pageSize_eq] at hi hk hle hle'
    rcases Nat.lt_or_ge p i with hlt | hge
    · refine .inr ⟨⟨J.start, Z.start⟩, List.mem_cons_self .., ?_⟩
      rw [HasPage, pageSize_eq]
      dsimp only
      omega
    · rcases Nat.lt_or_ge p k with hlt' | hge'
      · refine .inl ⟨Z, hZ, ?_⟩
        rw [HasPage, pageSize_eq]
        omega
      · refine .inr ⟨⟨Z.stop, J.stop⟩, List.mem_pair.2 (.inr rfl), ?_⟩
        rw [HasPage, pageSize_eq]
        dsimp only
        omega

section Given

variable (hmap : ValidMap map) (hclear : ClearOfEnd map)

include hmap hclear

lemma ValidMap.paged (hJ : J ∈ given map) : Paged J := by
  rcases mem_given.1 hJ with hZ | ⟨I, hI, hJ⟩
  · exact hmap.zone_paged hZ
  · obtain ⟨K, hK, hshort, rfl⟩ := mem_handed.1 hJ
    have hstart := (hmap.proper hclear hI hK).start_le
    have hstop := (hmap.proper hclear hI hK).stop_le
    obtain ⟨hal, hal'⟩ := inward_aligned (K := K) (by omega) (by omega)
    exact ⟨hal, hal', (Nat.mul_le_mul_right _ (by decide)).trans (not_lt.1 hshort)⟩

lemma ValidMap.sound (hR : ∀ J ∈ R, J ∈ given map) (hapart : R.Pairwise Interval.Apart) :
    Sound map R := by
  refine ⟨hapart, fun J hJ => ?_, fun J hJ x hx => ?_⟩
  · have hpaged := hmap.paged hclear (hR J hJ)
    exact ⟨hpaged.start, hpaged.stop⟩
  · rw [← covers_runs hmap.sorted_normalRanges]
    rcases mem_given.1 (hR J hJ) with hZ | ⟨I, hI, hJ⟩
    · obtain ⟨K, hK, hle, hle'⟩ := hmap.exists_run hZ
      exact ⟨K, hK, hle.trans hx.1, hx.2.trans_le hle'⟩
    · obtain ⟨hle, hle'⟩ := handed_bounds (hmap.zoneFits hI) (fun K => hmap.proper hclear hI) hJ
      exact ⟨I, hI, hle.trans hx.1, hx.2.trans_le hle'⟩

lemma ValidMap.complete (hR : ∀ J ∈ given map, J ∈ R) : Complete map R := by
  intro J hJ p hp
  have hrun := hJ.mem_runs hmap.sorted_normalRanges
  rcases hp.exists_piece fun Z => hmap.zone_aligned with ⟨Z, hZ, hp⟩ | ⟨K, hK, hp⟩
  · exact .inl ⟨Z, hR Z (mem_given.2 (.inl hZ)), hp⟩
  · by_cases hshort : IsShort K
    · exact .inr ⟨K, hK, hshort, hp⟩
    · have hstart := (hmap.proper hclear hrun hK).start_le
      have hstop := (hmap.proper hclear hrun hK).stop_le
      refine .inl ⟨inward K, hR _ (mem_given.2 (.inr ⟨J, hrun, ?_⟩)),
        hp.inward (by omega) (by omega)⟩
      exact mem_handed.2 ⟨K, hK, hshort, rfl⟩

/-- The second stage, after the first one and the transition. -/
lemma ValidMap.populateAllocStage1_spec (debug : Bool) (h : Handed (stage0Zone map).toList s L)
    (hret : ∀ J ∈ given map, Settles fuel J)
    (hrounds : 2 * (coalesce none (normalRanges map)).length + 1 < rounds) :
    ∃ s', populateAllocStage1 debug fuel rounds s map = .ok s' ∧ GivesNormal map s' := by
  have hloop : populateAllocStage1 debug fuel rounds s map =
      (coalesce none (normalRanges map)).foldlM
        (fun s I => flush debug fuel rounds s I.start I.stop) s := by
    refine populateFrom_eq (fun d hd => (List.mem_filter.1 hd).2) (fun d hd => ?_) none s
    exact hmap.stop_eq (List.mem_filter.1 hd).1
  have hbehind : ∀ I, Behind (stage0Zone map) (stage0Zone map).toList I := fun I =>
    ⟨fun Z hZ => Option.mem_toList.2 hZ, fun J hJ => .inl (Option.mem_toList.1 hJ)⟩
  have hlength : (stage0Zone map).toList.length ≤ 1 := Option.length_toList_le
  obtain ⟨s', R, L', hs', h', hmem⟩ := flushAll_spec debug
    (gapped_runs hmap.sorted_normalRanges) (fun I => hmap.zoneFits)
    (fun I hI K => hmap.proper hclear hI) (fun I _ => hbehind I)
    (fun I hI J hJ => hret J (mem_given.2 (.inr ⟨I, hI, hJ⟩))) h (show _ < rounds by omega)
  have hgiven : ∀ J, J ∈ R ↔ J ∈ given map := by
    intro J
    rw [hmem, mem_given, Option.mem_toList]
    rfl
  refine ⟨s', hloop.trans hs', L'.zones, h'.managed.inv.chain,
    fun z hz => h'.managed.inv.zone_addr_ne_zero hz, ?_, ?_⟩
  · rw [h'.ranges]
    exact hmap.sound hclear (fun J hJ => (hgiven J).1 hJ) h'.apart
  · rw [h'.ranges]
    exact hmap.complete hclear fun J hJ => (hgiven J).2 hJ

end Given

/-- The zones are disjoint ranges of normal memory and cover it but for short pieces, when every
call of `add_range` returns and nothing is translated wrongly at the end of the address space. -/
theorem handOver_givesNormal (hmap : ValidMap map) (hclear : ClearOfEnd map)
    (hadds : AddsReturn map) (debug : Bool) (m : Mem) :
    ∃ n, ∀ fuel ≥ n, ∃ k, ∀ rounds ≥ k,
      ∃ s, handOver debug fuel rounds m map = .ok s ∧ GivesNormal map s := by
  obtain ⟨n, hn⟩ := exists_settles (fun J => hmap.paged hclear) hadds
  refine ⟨n, fun fuel hfuel => ?_⟩
  have hret := hn fuel hfuel
  obtain ⟨s, hs, hreach⟩ := hmap.populateAllocStage0_spec
    (fun Z hZ => hret Z (mem_given.2 (.inl hZ))) debug m
  have hlow : ∀ Z ∈ (stage0Zone map).toList, Z.stop < 2 ^ 48 := by
    intro Z hZ
    rw [Option.mem_toList] at hZ
    obtain ⟨K, hK, -, hle⟩ := hmap.exists_run hZ
    exact lt_of_le_of_ne (hle.trans (hmap.stop_le hK)) (hclear.zone Z hZ)
  have hregions : ∀ r ∈ (stage0Zone map).toList.map fun I => (⟨I.start, I.stop⟩ : Region),
      r.stop ≤ 2 ^ 48 := by
    intro r hr
    obtain ⟨Z, hZ, rfl⟩ := List.mem_map.1 hr
    exact (hlow Z hZ).le
  have hapart : (stage0Zone map).toList.Pairwise Interval.Apart := by
    cases stage0Zone map with
    | none => exact .nil
    | some Z => exact List.pairwise_singleton ..
  obtain ⟨L, k, hL, htransition⟩ := hreach.transition hregions debug
  refine ⟨k + 2 * (coalesce none (normalRanges map)).length + 2, fun rounds hrounds => ?_⟩
  obtain ⟨-, t, ht, hmoved⟩ := htransition rounds (by omega)
  obtain ⟨s', hs', hgives⟩ := hmap.populateAllocStage1_spec hclear debug
    (.of_moved hL hmoved hlow hapart) hret (show _ < rounds by omega)
  refine ⟨s', ?_, hgives⟩
  rw [handOver, hs]
  simp only [bind, Except.bind, ht, hs']

/-- Two descriptors that are one run, whose first one is the zone of the first stage. -/
def adjacentPages : List MemoryDescriptor :=
  [⟨.conventional, 0x4000, 16, 0⟩, ⟨.bootServicesData, 0x14000, 16, 0⟩]

example : (handOver true 10 20 (fun _ => 0) adjacentPages).isOk = true := by decide +kernel

theorem handOver_givesNormal_adjacentPages :
    ValidMap adjacentPages ∧ ClearOfEnd adjacentPages ∧ AddsReturn adjacentPages ∧
      ∃ n, ∀ fuel ≥ n, ∃ k, ∀ rounds ≥ k, ∃ s,
        handOver true fuel rounds (fun _ => 0) adjacentPages = .ok s ∧
          GivesNormal adjacentPages s := by
  have hvalid : ValidMap adjacentPages := ⟨by decide +kernel, by decide +kernel, by decide +kernel⟩
  have hclear : ClearOfEnd adjacentPages :=
    ⟨by decide +kernel, by decide +kernel, by decide +kernel⟩
  have hadds : AddsReturn adjacentPages := by
    unfold AddsReturn
    decide +kernel
  exact ⟨hvalid, hclear, hadds, handOver_givesNormal hvalid hclear hadds true _⟩

/-! ### The end of the address space -/

/-- Four pages of normal memory that end at `2 ^ 48`. -/
def lastPages : List MemoryDescriptor := [⟨.bootServicesData, 0xFFFFFFFF0000, 16, 0⟩]

lemma handOver_lastPages :
    ∃ s, handOver true 10 10 (fun _ => 0) lastPages = .ok s ∧ s.zoneHead = 0 := by
  have hhead : (handOver true 10 10 (fun _ => 0) lastPages).toOption.any (·.zoneHead == 0) =
      true := by
    decide +kernel
  cases hres : handOver true 10 10 (fun _ => 0) lastPages with
  | error e =>
    rw [hres] at hhead
    cases hhead
  | ok s =>
    rw [hres] at hhead
    exact ⟨s, rfl, eq_of_beq hhead⟩

theorem handOver_drops_lastPages :
    ValidMap lastPages ∧ ∃ s, handOver true 10 10 (fun _ => 0) lastPages = .ok s ∧
      ¬ GivesNormal lastPages s := by
  obtain ⟨s, hs, hhead⟩ := handOver_lastPages
  refine ⟨⟨by decide +kernel, by decide +kernel, by decide +kernel⟩, s, hs, ?_⟩
  rintro ⟨zones, hchain, hne, -, hcomplete⟩
  have hranges : normalRanges lastPages = [⟨2 ^ 48 - 4 * pageSize, 2 ^ 48⟩] := by decide +kernel
  have hzone : stage0Zone lastPages = none := by decide +kernel
  have hrun : IsRun (normalRanges lastPages) ⟨2 ^ 48 - 4 * pageSize, 2 ^ 48⟩ := by
    rw [hranges]
    exact isRun_singleton (by decide)
  have hzones : zones = [] := by
    cases zones with
    | nil => rfl
    | cons z zones =>
      exact absurd (hchain.1.symm.trans hhead) (hne z (.head _))
  have hpage : HasPage ⟨2 ^ 48 - 4 * pageSize, 2 ^ 48⟩ (2 ^ 34 - 4) := ⟨by decide, by decide⟩
  rcases hcomplete _ hrun _ hpage with ⟨I, hI, -⟩ | ⟨K, hK, hshort, -⟩
  · rw [hzones] at hI
    cases hI
  · rw [hzone] at hK
    obtain rfl := List.mem_singleton.1 hK
    exact absurd hshort (by decide +kernel)

end Mars.Earlyinit
