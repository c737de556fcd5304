import Mars.Earlyinit.Relocate

/-!
# The buffer of the relocated map

The memory map is written to the start of the first normal memory, and only then it turns out
whether it fits. If the memory is too small, its descriptor is dropped, and what does not fit is
written behind it.
-/

namespace Mars.Earlyinit

open Lib.Merge MemoryDescriptor

/-- `size_of::<MemoryDescriptor>()` -/
def descriptorBytes : Nat := 40

/-- The written bytes are in the merged descriptor with the address of the map, and the map does not
describe its own buffer. -/
structure Clone.Contained (map : MemoryMap) (c : Clone) : Prop where
  writes : ∃ M ∈ map.merged, M.range.Contains c.destPa.toNat ∧
    ∀ w ∈ c.writes, ∀ i < descriptorBytes, M.range.Contains (c.destPa.toNat + w.1 + i)
  buffer : ∀ w ∈ c.writes, ∀ i < c.finalMapSize, ¬ w.2.desc.range.Contains (c.destPa.toNat + i)

/-- There is room for the map in the merged descriptor `M`: all pages that are reserved and one
more, or `M` is given up and the others fit, with nothing that is described behind it. -/
def MemoryMap.Fits (map : MemoryMap) (M : MemoryDescriptor) : Prop :=
  let n := map.merged.length
  map.descSize = 0 ∨
    (M.range.stop < 2 ^ 64 ∧
      ((n * map.descSize + 4095) / 4096 < M.pageCount.toNat ∨ n = 1 ∨
        ((n - 2) * map.descSize + descriptorBytes ≤ M.pageCount.toNat * uefiPageSize ∧
          ∀ e ∈ map.merged, M.range.stop ≤ e.range.start →
            M.range.start + (n - 1) * map.descSize ≤ e.range.start)))

/-- There is room for the map in the merged descriptor with the first usable memory. -/
def MemoryMap.HasRoom (map : MemoryMap) : Prop :=
  ∀ d, map.kept.find? isUsable = some d →
    ∀ M ∈ map.merged, M.physStart = d.physStart → map.Fits M

namespace Clone.Spec

variable {map : MemoryMap} {c : Clone} {before after : List MemoryDescriptor}
  {M : MemoryDescriptor}

section

variable (h : c.Spec map before M after)

include h

lemma exists_write {i : Nat} {d : MemoryDescriptor}
    (hd : (before ++ (cut c.destPa (.ofNat c.mapPages) M).toList ++ after)[i]? = some d) :
    ∃ w ∈ c.writes, w.1 = i * map.descSize ∧ w.2.desc = d := by
  refine ⟨(i * map.descSize, ⟨d, .ofNat (Pm.physAddrToDmap d.start)⟩), ?_, rfl, rfl⟩
  rw [h.writes]
  exact List.mem_map.mpr ⟨(d, i), List.mk_mem_zipIdx_iff_getElem?.mpr hd, rfl⟩

lemma contained_iff (hv : map.Valid) {W : List MemoryDescriptor}
    (hW : before ++ (cut c.destPa (.ofNat c.mapPages) M).toList ++ after = W) :
    c.Contained map ↔
      (∀ i < W.length, i * map.descSize + descriptorBytes ≤ M.pageCount.toNat * uefiPageSize) ∧
        ∀ d ∈ W, ∀ i < W.length * map.descSize, ¬ d.range.Contains (M.range.start + i) := by
  subst hW
  have hdest : c.destPa.toNat = M.range.start := congrArg UInt64.toNat h.start.symm
  have hlen := congrArg List.length h.map_desc
  rw [List.length_map] at hlen
  have hstop : M.range.stop = M.range.start + M.pageCount.toNat * uefiPageSize := rfl
  constructor
  · rintro ⟨⟨M', hM', hcontains, hin⟩, hbuffer⟩
    rw [hdest] at hcontains hin hbuffer
    rw [h.eq_of_contains hv hM' hcontains] at hin
    rw [h.finalMapSize, hlen] at hbuffer
    refine ⟨?_, ?_⟩
    · intro i hi
      obtain ⟨w, hw, hoffset, -⟩ := h.exists_write (List.getElem?_eq_getElem hi)
      have hlast := (hin w hw 39 (by decide)).2
      rw [descriptorBytes]
      omega
    · intro d hd
      obtain ⟨i, hi⟩ := List.getElem?_of_mem hd
      obtain ⟨w, hw, -, rfl⟩ := h.exists_write hi
      exact hbuffer w hw
  · rintro ⟨hin, hbuffer⟩
    have hpos := hv.sorted_merged.nonempty M h.mem_merged
    refine ⟨⟨M, h.mem_merged, ?_, ?_⟩, ?_⟩
    · rw [hdest]
      exact MemoryDescriptor.Describes.contains ⟨0, hpos, by simp [MemoryDescriptor.start,
        range]⟩
    · intro w hw j hj
      rw [h.writes] at hw
      obtain ⟨⟨d, i⟩, hmem, rfl⟩ := List.mem_map.mp hw
      have hi := (List.getElem?_eq_some_iff.mp (List.mk_mem_zipIdx_iff_getElem?.mp hmem)).1
      have hle := hin i hi
      rw [hdest]
      refine ⟨?_, ?_⟩
      · dsimp only
        omega
      · rw [hstop]
        dsimp only
        omega
    · intro w hw
      have hmem : w.2.desc ∈ c.writes.map (·.2.desc) := List.mem_map.mpr ⟨w, hw, rfl⟩
      rw [h.map_desc] at hmem
      rw [h.finalMapSize, hlen, hdest]
      exact hbuffer _ hmem

lemma apart (hv : map.Valid) :
    (∀ e ∈ before, e.range.stop ≤ M.range.start) ∧ ∀ e ∈ after, M.range.stop ≤ e.range.start := by
  have hsorted := hv.sorted_merged.sorted
  rw [h.merged] at hsorted
  obtain ⟨-, hafter, hcross⟩ := List.pairwise_append.mp hsorted
  exact ⟨fun e he => hcross e he M (.head _), (List.pairwise_cons.mp hafter).1⟩

/-- The code takes a descriptor at the end of the address space for empty and keeps all of it. -/
lemma contained_of_end (hv : map.Valid)
    (hcut : cut c.destPa (.ofNat c.mapPages) M = some M) : c.Contained map ↔ map.descSize = 0 := by
  have hpos := hv.sorted_merged.nonempty M h.mem_merged
  rw [h.contained_iff hv (W := map.merged) (by rw [hcut, h.merged]; simp)]
  constructor
  · rintro ⟨-, hbuffer⟩
    by_contra hds
    have hlen := List.length_pos_of_mem h.mem_merged
    apply hbuffer M h.mem_merged 0 (Nat.mul_pos hlen (Nat.pos_of_ne_zero hds))
    exact MemoryDescriptor.Describes.contains ⟨0, hpos, by simp [MemoryDescriptor.start,
      range]⟩
  · intro hds
    refine ⟨fun i _ => ?_, fun d _ i hi => ?_⟩
    · rw [hds, descriptorBytes, uefiPageSize]
      omega
    · rw [hds, mul_zero] at hi
      exact absurd hi (Nat.not_lt_zero i)

/-- If a page is left, everything is in front of it. -/
lemma contained_of_lt (hv : map.Valid)
    (hlt : c.mapPages < M.pageCount.toNat) {r : MemoryDescriptor}
    (hcut : cut c.destPa (.ofNat c.mapPages) M = some r)
    (hstart : r.start = M.start + c.mapPages * uefiPageSize) : c.Contained map := by
  obtain ⟨hbefore, hafter⟩ := h.apart hv
  have hstop : M.range.stop = M.range.start + M.pageCount.toNat * 4096 := rfl
  have hlen : (before ++ [r] ++ after).length = map.merged.length := by
    simp [h.merged]
  have hsize : map.merged.length * map.descSize ≤ c.mapPages * 4096 := by
    rw [h.mapPages]
    omega
  rw [h.contained_iff hv (W := before ++ [r] ++ after) (by rw [hcut]; rfl), hlen]
  refine ⟨?_, ?_⟩
  · intro i hi
    have hmul := Nat.mul_le_mul_right map.descSize hi.le
    rw [descriptorBytes, uefiPageSize]
    omega
  · rintro d hd i hi ⟨hle, hlt'⟩
    rw [List.mem_append, List.mem_append, List.mem_singleton] at hd
    rcases hd with (hd | rfl) | hd
    · have hd := hbefore d hd
      omega
    · have hr : d.range.start = M.range.start + c.mapPages * 4096 := hstart
      omega
    · have hd := hafter d hd
      omega

/-- If nothing is left, the other descriptors have to fit, and what is behind must not be
described. -/
lemma contained_of_le (hv : map.Valid)
    (hcut : cut c.destPa (.ofNat c.mapPages) M = none) :
    c.Contained map ↔ map.merged.length = 1 ∨
      ((map.merged.length - 2) * map.descSize + descriptorBytes ≤
          M.pageCount.toNat * uefiPageSize ∧
        ∀ e ∈ map.merged, M.range.stop ≤ e.range.start →
          M.range.start + (map.merged.length - 1) * map.descSize ≤ e.range.start) := by
  obtain ⟨hbefore, hafter⟩ := h.apart hv
  have hsorted := hv.sorted_merged
  have hlen : map.merged.length = (before ++ after).length + 1 := by
    simp [h.merged]
    omega
  have hmem {e : MemoryDescriptor} (he : e ∈ before ++ after) : e ∈ map.merged := by
    rw [h.merged]
    rcases List.mem_append.mp he with he | he
    · exact List.mem_append_left _ he
    · exact List.mem_append_right _ (.tail _ he)
  rw [h.contained_iff hv (W := before ++ after) (by rw [hcut]; simp)]
  rw [hlen, Nat.add_sub_cancel]
  constructor
  · rintro ⟨hwrites, hbuffer⟩
    by_cases hone : (before ++ after).length = 0
    · left
      rw [hone]
    right
    refine ⟨hwrites _ (by omega), fun e he hstop => ?_⟩
    have hpos := hsorted.nonempty e he
    have hrange : e.range.stop = e.range.start + e.pageCount.toNat * 4096 := rfl
    have hMrange : M.range.stop = M.range.start + M.pageCount.toNat * 4096 := rfl
    by_contra hlt
    have hother : e ∈ before ++ after := by
      have hne : e ≠ M := by
        rintro rfl
        omega
      simpa [h.merged, hne] using he
    apply hbuffer e hother (e.range.start - M.range.start) (by omega)
    constructor <;> omega
  · intro hfits
    by_cases hone : before ++ after = []
    · rw [hone]
      exact ⟨fun i hi => absurd hi (Nat.not_lt_zero i), fun d hd => absurd hd List.not_mem_nil⟩
    have hpos := List.length_pos_iff.mpr hone
    obtain ⟨hwrites, hbehind⟩ := hfits.resolve_left (by omega)
    refine ⟨fun i hi => ?_, ?_⟩
    · have hmul : i * map.descSize ≤ ((before ++ after).length + 1 - 2) * map.descSize :=
        Nat.mul_le_mul_right _ (by omega)
      omega
    · rintro d hd i hi ⟨hle, hlt⟩
      rcases List.mem_append.mp hd with hd' | hd'
      · have hd' := hbefore d hd'
        omega
      · have hd' := hbehind d (hmem hd) (hafter d hd')
        omega

lemma contained_iff_fits (hv : map.Valid) : c.Contained map ↔ map.Fits M := by
  rw [MemoryMap.Fits]
  rcases h.cut_cases hv with ⟨hend, hcut⟩ | ⟨hend, hle, hcut⟩ | ⟨hend, hlt, r, hcut, hstart, -, -⟩
  · rw [h.contained_of_end hv hcut]
    simp [hend]
  · rw [h.contained_of_le hv hcut]
    have hpages := h.mapPages
    have hpos := hv.sorted_merged.nonempty M h.mem_merged
    have hds : map.descSize ≠ 0 := by
      intro hds
      rw [hds, mul_zero] at hpages
      omega
    have hnot : ¬ (map.merged.length * map.descSize + 4095) / 4096 < M.pageCount.toNat := by
      rw [← hpages]
      exact not_lt.mpr hle
    simp only [hend, hds, hnot, false_or, true_and]
  · refine ⟨fun _ => .inr ⟨hend, .inl ?_⟩, fun _ => h.contained_of_lt hv hlt hcut hstart⟩
    rw [← h.mapPages]
    exact hlt

end

end Clone.Spec

/-- The address of the map is the one of the first usable memory. -/
lemma destPa_eq {map : MemoryMap} {c : Clone} (hrun : cloneAndProcessMmap map = some c)
    {d : MemoryDescriptor} (hd : map.kept.find? isUsable = some d) :
    c.destPa = d.physStart := by
  rw [cloneAndProcessMmap_eq hd] at hrun
  cases hrun
  rfl

lemma Clone.Spec.fits_iff_hasRoom {map : MemoryMap} {c : Clone} {before after M}
    (h : c.Spec map before M after) (hv : map.Valid) (hrun : cloneAndProcessMmap map = some c) :
    map.Fits M ↔ map.HasRoom := by
  constructor
  · intro hfits d hd M' hM' hstart
    rw [← destPa_eq hrun hd] at hstart
    rw [h.eq_of_start hv hM' hstart]
    exact hfits
  · intro hroom
    obtain ⟨u, hu, husable⟩ := hv.usable
    obtain ⟨d, hd⟩ := Option.isSome_iff_exists.mp (List.find?_isSome.mpr ⟨u, hu, husable⟩)
    exact hroom d hd M h.mem_merged (h.start.trans (destPa_eq hrun hd))

/-- The relocated map stays in the memory it owns exactly if there is room for it. -/
theorem exists_clone_contained_iff {map : MemoryMap} (hv : map.Valid) :
    ∃ c, cloneAndProcessMmap map = some c ∧ (c.Contained map ↔ map.HasRoom) := by
  obtain ⟨c, before, M, after, hrun, hspec⟩ := exists_clone hv
  exact ⟨c, hrun, (hspec.contained_iff_fits hv).trans (hspec.fits_iff_hasRoom hv hrun)⟩

theorem exists_clone_contained_iff_smallMap : smallMap.Valid ∧
    ∃ c, cloneAndProcessMmap smallMap = some c ∧ (c.Contained smallMap ↔ smallMap.HasRoom) := by
  have hv : smallMap.Valid := by
    refine ⟨⟨?_, ?_, ?_⟩, ?_⟩ <;> decide
  exact ⟨hv, exists_clone_contained_iff hv⟩

/-- One page of normal memory in front of 99 pages of devices, with gaps between them. -/
def sparseMap : MemoryMap where
  entries := ⟨.conventional, 0x1000, 1, 0⟩ ::
    (List.range 99).map fun i => ⟨.other 11, .ofNat (0x3000 + i * 0x2000), 1, 0⟩
  descSize := 48
  size_lt := by decide +kernel

/-- The page is too small for a map of 100 descriptors. -/
lemma not_fits_sparseMap {M : MemoryDescriptor} (hM : M ∈ sparseMap.merged) :
    ¬ sparseMap.Fits M := by
  have hlen : sparseMap.merged.length = 100 := by decide +kernel
  have hone : ∀ M ∈ sparseMap.merged, M.pageCount.toNat = 1 := by decide +kernel
  rw [MemoryMap.Fits, hlen, hone M hM]
  rintro (h | ⟨-, h | h | ⟨h, -⟩⟩) <;> revert h <;> decide

theorem exists_clone_not_contained : sparseMap.Valid ∧
    ∃ c, cloneAndProcessMmap sparseMap = some c ∧ ¬ c.Contained sparseMap := by
  have hv : sparseMap.Valid := by
    refine ⟨⟨?_, ?_, ?_⟩, ?_⟩ <;> decide +kernel
  obtain ⟨c, before, M, after, hrun, hspec⟩ := exists_clone hv
  refine ⟨hv, c, hrun, ?_⟩
  rw [hspec.contained_iff_fits hv]
  exact not_fits_sparseMap hspec.mem_merged

end Mars.Earlyinit
