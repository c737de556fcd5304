import Mars.Bootloader.Reads
import Mathlib.Data.List.Pairwise

/-!
# The segments in memory

The destination of a segment is its address rounded down to a page, minus the smallest address as
it is. So a segment that does not start on a page ends up before the place where the entry point
expects it, and may even leave the allocated pages.
-/

namespace Mars.Bootloader

open Lib Elf64Phdr

/-! ### What is expected of the memory -/

/-- Every segment is where the entry point expects it. That nothing else was overwritten is said by
the run itself, which ends at a write outside of the allocated pages. -/
structure Placed (f : ElfFile) (r : LoadedKernel) : Prop where
  contents : ∀ ph ∈ f.loads, ∀ k < ph.pFilesz,
    r.memory (r.basePhys + (ph.pVaddr - r.minVaddr) + k) =
      f.byte (ph.pOffset.toNat + k.toNat)
  zeros : ∀ ph ∈ f.loads, ∀ k, ph.pFilesz ≤ k → k < ph.pMemsz →
    r.memory (r.basePhys + (ph.pVaddr - r.minVaddr) + k) = 0

namespace Elf64Phdr

/-- The start of the page that the segment starts in. -/
def page (ph : Elf64Phdr) : Nat := ph.pVaddr.toNat / 16384 * 16384

def stop (ph : Elf64Phdr) : Nat := ph.pVaddr.toNat + ph.pMemsz.toNat

/-- Two segments do not overlap, not even in a page, unless one of them is empty. -/
def Apart (p q : Elf64Phdr) : Prop :=
  p.pMemsz = 0 ∨ q.pMemsz = 0 ∨ p.stop ≤ q.page ∨ q.stop ≤ p.page

instance : DecidableRel Apart := fun _ _ => inferInstanceAs (Decidable (_ ∨ _))

instance : Std.Symm Apart where
  symm := by
    rintro p q (h | h | h | h)
    · exact .inr (.inl h)
    · exact .inl h
    · exact .inr (.inr (.inr h))
    · exact .inr (.inr (.inl h))

/-- The segment has only zeros in the file. -/
def Blank (f : ElfFile) (ph : Elf64Phdr) : Prop :=
  ∀ k < ph.pFilesz, f.byte (ph.pOffset.toNat + k.toNat) = 0

end Elf64Phdr

/-- Segments as a linker writes them: each has room for what is in the file and ends below the top
of the address space, as the rounded span does, and no two of them have bytes in one page. -/
structure Layout (f : ElfFile) : Prop where
  filesz_le : ∀ ph ∈ f.loads, ph.pFilesz ≤ ph.pMemsz
  stop_lt : ∀ ph ∈ f.loads, ph.stop < 2 ^ 64
  span_lt : f.span.maxVaddr.toNat - f.span.minVaddr.toNat + 4096 ≤ 2 ^ 64
  apart : f.loads.Pairwise Elf64Phdr.Apart

section Layout

variable {alignDown : UInt64 → UInt64} {fw : Firmware} {f : ElfFile} {m : Memory} {alloc : UInt64}
  {ph : Elf64Phdr} {r : LoadedKernel}

lemma Layout.size_eq (h : Layout f) (hph : ph ∈ f.loads) : ph.size = ph.pMemsz := by
  rw [size]
  split_ifs with htail
  · rfl
  · exact UInt64.le_antisymm (h.filesz_le ph hph) (UInt64.not_lt.mp htail)

lemma Layout.stop_le_maxVaddr (h : Layout f) (hph : ph ∈ f.loads) :
    ph.stop ≤ f.span.maxVaddr.toNat := by
  have hstop := h.stop_lt ph hph
  have hmax := (ElfFile.span_holds hph).2
  rw [stop] at hstop ⊢
  rwa [saturatingAdd, if_pos hstop, UInt64.le_iff_toNat_le, UInt64.toNat_add,
    Nat.mod_eq_of_lt hstop] at hmax

/-- The zeroed memory has room for every segment. -/
lemma Layout.stop_le (h : Layout f) (hph : ph ∈ f.loads) :
    ph.stop ≤ f.span.minVaddr.toNat + f.span.loadSize.toNat := by
  have hspan := h.span_lt
  have hmin := ElfFile.minVaddr_le hph
  have hmax := h.stop_le_maxVaddr hph
  rw [stop] at hmax ⊢
  have hlen : (f.span.maxVaddr - f.span.minVaddr).toNat =
      f.span.maxVaddr.toNat - f.span.minVaddr.toNat :=
    UInt64.toNat_sub_of_le _ _ (UInt64.le_iff_toNat_le.mpr (by omega))
  have hup : (f.span.maxVaddr - f.span.minVaddr + 4095).toNat =
      f.span.maxVaddr.toNat - f.span.minVaddr.toNat + 4095 := by
    rw [UInt64.toNat_add, hlen]
    exact Nat.mod_eq_of_lt (by change _ + 4095 < _; omega)
  rw [Span.toNat_loadSize, hup]
  omega

/-! ### The bytes of a segment -/

/-- What all segments with a byte at an address agree on is there, if there is one or if it was
there before. -/
lemma placeAll_eq {phs : List Elf64Phdr} {a : UInt64} {b : UInt8}
    (h : ∀ q ∈ phs, a - segmentDst alignDown f alloc q < q.size →
      segmentByte f q (a - segmentDst alignDown f alloc q) = b)
    (hm : (∃ q ∈ phs, a - segmentDst alignDown f alloc q < q.size) ∨ m a = b) :
    placeAll alignDown f alloc m phs a = b := by
  induction phs generalizing m with
  | nil =>
    obtain ⟨q, hq, -⟩ | hm := hm
    · cases hq
    · exact hm
  | cons q phs ih =>
    rw [List.forall_mem_cons] at h
    refine ih h.2 ?_
    simp only [Memory.write]
    by_cases hcov : a - segmentDst alignDown f alloc q < q.size
    · exact .inr (by rw [if_pos hcov, h.1 hcov])
    · rw [if_neg hcov]
      simpa [hcov] using hm

/-- The offset into the segment of the byte that ends up where another one is expected. -/
def shift (alignDown : UInt64 → UInt64) (ph : Elf64Phdr) : UInt64 := ph.pVaddr - alignDown ph.pVaddr

lemma toNat_shift (hdown : RoundsDown alignDown) (ph : Elf64Phdr) :
    (shift alignDown ph).toNat = ph.pVaddr.toNat - ph.page := by
  have hle : alignDown ph.pVaddr ≤ ph.pVaddr := by
    rw [UInt64.le_iff_toNat_le, hdown]
    exact Nat.div_mul_le_self _ _
  rw [shift, UInt64.toNat_sub_of_le _ _ hle, hdown]
  rfl

lemma Layout.toNat_shift_add (h : Layout f) (hdown : RoundsDown alignDown) (hph : ph ∈ f.loads)
    {k : UInt64} (hk : k < ph.pMemsz) :
    (shift alignDown ph + k).toNat = ph.pVaddr.toNat - ph.page + k.toNat := by
  have hstop := h.stop_lt ph hph
  rw [stop] at hstop
  rw [UInt64.lt_iff_toNat_lt] at hk
  rw [UInt64.toNat_add, toNat_shift hdown]
  exact Nat.mod_eq_of_lt (by omega)

/-- No other segment has a byte where one of this segment is expected. -/
lemma Layout.not_covers (h : Layout f) (hdown : RoundsDown alignDown) (hph : ph ∈ f.loads)
    {k : UInt64} (hk : k < ph.pMemsz) {q : Elf64Phdr} (hq : q ∈ f.loads) (hne : q ≠ ph) :
    ¬ ph.pVaddr + k - alignDown q.pVaddr < q.size := by
  have hapart := h.apart.forall hq hph hne
  have hstop := h.stop_lt ph hph
  have hstop' := h.stop_lt q hq
  rw [Elf64Phdr.Apart, page, page, ← UInt64.toNat_inj,
    ← UInt64.toNat_inj] at hapart
  rw [UInt64.lt_iff_toNat_lt] at hk
  rw [h.size_eq hq, UInt64.lt_iff_toNat_lt, UInt64.toNat_sub, UInt64.toNat_add, hdown]
  simp only [stop, UInt64.toNat_zero] at hapart hstop hstop'
  omega

/-- Where a byte of a segment is expected is the one that is further on in the segment, by the
distance to the page, or zero behind the bytes of the file. -/
lemma Layout.memory_eq (h : Layout f) (hdown : RoundsDown alignDown) (hph : ph ∈ f.loads)
    {k : UInt64} (hk : k < ph.pMemsz) :
    placeAll alignDown f alloc (zeroed f alloc m) f.loads
        (alignUp alloc pageSize + (ph.pVaddr - f.span.minVaddr) + k) =
      segmentByte f ph (shift alignDown ph + k) := by
  have hsub (q : Elf64Phdr) : alignUp alloc pageSize + (ph.pVaddr - f.span.minVaddr) + k -
      segmentDst alignDown f alloc q = ph.pVaddr + k - alignDown q.pVaddr := by
    rw [segmentDst]
    grind
  have hself : ph.pVaddr + k - alignDown ph.pVaddr = shift alignDown ph + k := by
    rw [shift]
    grind
  refine placeAll_eq ?_ ?_
  · intro q hq hcov
    rw [hsub] at hcov ⊢
    by_cases hne : q = ph
    · rw [hne, hself]
    · exact absurd hcov (h.not_covers hdown hph hk hq hne)
  · by_cases hcov : shift alignDown ph + k < ph.size
    · exact .inl ⟨ph, hph, by rw [hsub, hself]; exact hcov⟩
    -- Behind its last byte the zeroed memory is left as it was.
    · have hfile : ¬ shift alignDown ph + k < ph.pFilesz := fun hlt =>
        hcov (UInt64.lt_of_lt_of_le hlt (h.size_eq hph ▸ h.filesz_le ph hph))
      have hstop := h.stop_le hph
      have hmin := ElfFile.minVaddr_le hph
      have hoffset : alignUp alloc pageSize + (ph.pVaddr - f.span.minVaddr) + k -
          alignUp alloc pageSize = ph.pVaddr - f.span.minVaddr + k := by grind
      refine .inr ?_
      rw [zeroed, Memory.write, hoffset, segmentByte, if_neg hfile, if_pos]
      rw [stop] at hstop
      rw [UInt64.lt_iff_toNat_lt] at hk ⊢
      rw [UInt64.toNat_add, UInt64.toNat_sub_of_le _ _ (ElfFile.span_holds hph).1]
      omega

/-! ### The loaded kernel -/

lemma Elf64Phdr.Blank.segmentByte_eq (h : ph.Blank f) (k : UInt64) : segmentByte f ph k = 0 := by
  rw [segmentByte]
  split_ifs with hk
  · exact h k hk
  · rfl

/-- The last bytes of a segment that does not start on a page are expected where zeros are, and so
are the ones before them once the last ones are zero. -/
lemma Elf64Phdr.blank_of_shift {d : UInt64} (hd : 0 < d) (hadd : ∀ k < ph.pFilesz,
      (d + k).toNat = d.toNat + k.toNat)
    (h : ∀ k < ph.pFilesz, f.byte (ph.pOffset.toNat + k.toNat) = segmentByte f ph (d + k)) :
    ph.Blank f := by
  intro k hk
  induction hn : ph.pFilesz.toNat - k.toNat using Nat.strong_induction_on generalizing k with
  | h n ih =>
    rw [h k hk, segmentByte]
    split_ifs with hlt
    · have hsum := hadd k hk
      rw [UInt64.lt_iff_toNat_lt] at hd hk
      exact ih _ (by rw [hsum]; simp only [UInt64.toNat_zero] at hd; omega) (d + k) hlt rfl
    · rfl

lemma shift_eq_zero_iff (hdown : RoundsDown alignDown) :
    shift alignDown ph = 0 ↔ 16384 ∣ ph.pVaddr.toNat := by
  rw [← UInt64.toNat_inj, toNat_shift hdown, page, UInt64.toNat_zero]
  omega

/-- Segments that start on a page are where they are expected, and so are zeros. -/
lemma Layout.placed_iff (h : Layout f) (hdown : RoundsDown alignDown)
    (hbase : r.basePhys = alignUp alloc pageSize) (hmin : r.minVaddr = f.span.minVaddr)
    (hmemory : r.memory = placeAll alignDown f alloc (zeroed f alloc m) f.loads) :
    Placed f r ↔ ∀ ph ∈ f.loads, 16384 ∣ ph.pVaddr.toNat ∨ ph.Blank f := by
  have hbyte (ph : Elf64Phdr) (hph : ph ∈ f.loads) (k : UInt64) (hk : k < ph.pMemsz) :
      r.memory (r.basePhys + (ph.pVaddr - r.minVaddr) + k) =
        segmentByte f ph (shift alignDown ph + k) := by
    rw [hbase, hmin, hmemory, h.memory_eq hdown hph hk]
  have hmemsz {ph : Elf64Phdr} (hph : ph ∈ f.loads) {k : UInt64} (hk : k < ph.pFilesz) :=
    UInt64.lt_of_lt_of_le hk (h.filesz_le ph hph)
  constructor
  · intro hplaced ph hph
    rw [or_iff_not_imp_left, ← shift_eq_zero_iff hdown]
    intro hshift
    refine blank_of_shift (UInt64.pos_iff_ne_zero.mpr hshift) (fun k hk => ?_)
      fun k hk => ?_
    · rw [h.toNat_shift_add hdown hph (hmemsz hph hk), toNat_shift hdown]
    · rw [← hbyte ph hph k (hmemsz hph hk), hplaced.contents ph hph k hk]
  · intro hall
    refine ⟨fun ph hph k hk => ?_, fun ph hph k hle hk => ?_⟩
    · rw [hbyte ph hph k (hmemsz hph hk)]
      rcases hall ph hph with hpage | hblank
      · rw [(shift_eq_zero_iff hdown).mpr hpage, UInt64.zero_add, segmentByte, if_pos hk]
      · rw [hblank.segmentByte_eq, hblank k hk]
    · rw [hbyte ph hph k hk]
      rcases hall ph hph with hpage | hblank
      · rw [(shift_eq_zero_iff hdown).mpr hpage, UInt64.zero_add, segmentByte,
          if_neg (UInt64.not_lt.mpr hle)]
      · exact hblank.segmentByte_eq _

lemma layout_kernelAt (low : UInt8) (h : low = 0 ∨ low = 0x10) : Layout (kernelAt low) := by
  rcases h with rfl | rfl <;>
    exact ⟨by decide +kernel, by decide +kernel, by decide +kernel, by decide +kernel⟩

/-- Kernels as a linker writes them: accepted and complete, with the entry point in a segment,
without a segment that is writable and executable, and with each segment on pages of its own. -/
structure WellFormed (f : ElfFile) : Prop extends Layout f where
  length_lt : f.length < 2 ^ 64
  accepted : ¬ Rejected f
  phdrs : f.PhdrsInside
  entry : ∃ ph ∈ f.loads, ph.pVaddr ≤ f.ehdr.eEntry ∧ f.ehdr.eEntry.toNat < ph.stop
  protectable : ∀ ph ∈ f.loads, ¬ (ph.writable && ph.executable)
  sources : ∀ ph ∈ f.loads, ph.pOffset.toNat + ph.pFilesz.toNat ≤ f.length
  aligned : ∀ ph ∈ f.loads, 16384 ∣ ph.pVaddr.toNat

namespace WellFormed

variable (h : WellFormed f)

include h

lemma goesOn (hph : ph ∈ f.loads) : stopsRun f ph = false := by
  have hlen := h.length_lt
  have hsource := h.sources ph hph
  rw [stopsRun, Bool.or_eq_false_iff, decide_eq_false_iff_not, UInt64.toNat_add,
    Nat.mod_eq_of_lt (by omega)]
  exact ⟨Bool.eq_false_iff.mpr (h.protectable ph hph), by omega⟩

lemma staysInPages (hph : ph ∈ f.loads) : StaysInPages f alloc ph := by
  have hstop := h.stop_le hph
  have hmin := ElfFile.minVaddr_le hph
  have haligned := h.aligned ph hph
  rw [stop] at hstop
  rw [StaysInPages, Span.toNat_allocatedPages, h.size_eq hph, slack]
  omega

lemma entry_mem : f.span.minVaddr ≤ f.ehdr.eEntry ∧ f.ehdr.eEntry < f.span.maxVaddr := by
  obtain ⟨ph, hph, hle, hlt⟩ := h.entry
  exact ⟨UInt64.le_trans (ElfFile.span_holds hph).1 hle,
    UInt64.lt_iff_toNat_lt.mpr (hlt.trans_le (h.stop_le_maxVaddr hph))⟩

/-- A kernel as a linker writes it is loaded, and placed as its entry point expects it, whatever is
in memory before. -/
theorem exists_placed (hdown : RoundsDown alignDown) (hfw : fw.Permits)
    (halloc : fw.allocatePages f.span.allocatedPages = .ok alloc)
    (hfresh : (f.pagesAt alloc).Fresh) (m : Memory) :
    ∃ r, loadKernel alignDown fw f m = .ok r ∧ Placed f r := by
  obtain ⟨hle, hlt⟩ := h.entry_mem
  have hmin : f.span.minVaddr ≠ u64Max := by
    intro hmax
    rw [hmax, UInt64.le_iff_toNat_le] at hle
    have := UInt64.lt_iff_toNat_lt.mp hlt
    have := f.span.maxVaddr.toNat_lt
    change 18446744073709551615 ≤ _ at hle
    omega
  have hends := ends_loadSegments fw (zeroed f alloc m) hdown hfresh h.phdrs
  rw [loadKernel_of_not_rejected h.accepted h.phdrs, if_neg hmin, halloc]
  dsimp only
  rw [loadAt_eq hfresh]
  generalize loadSegments _ _ _ _ _ _ _ = x at hends
  -- Each other end of the loop needs a segment with a defect.
  cases hends with
  | loaded =>
    simp only [bind, Except.bind]
    rw [if_neg (by simp [UInt64.not_lt.mpr hle, UInt64.not_le.mpr hlt])]
    exact ⟨_, rfl, (h.placed_iff hdown rfl rfl rfl).mpr fun ph hph => .inl (h.aligned ph hph)⟩
  | outOfFile hex =>
    obtain ⟨ph, hph, hnot⟩ := hex
    exact absurd (.inr (h.sources ph (List.takeWhile_subset _ hph))) hnot
  | outOfPages hex =>
    obtain ⟨ph, hph, hnot⟩ := hex
    exact absurd (h.staysInPages (List.takeWhile_subset _ hph)) hnot
  | stopped _ _ hstop =>
    obtain ⟨-, ph, hph, hstop⟩ := hstop hfw
    rw [h.goesOn hph] at hstop
    cases hstop

end WellFormed

end Layout

theorem kernelAt_zero_exists_placed :
    ∃ r, loadKernel roundDown (.permissive 0x5000) (kernelAt 0) (fun _ => 1) = .ok r ∧
      Placed (kernelAt 0) r := by
  refine WellFormed.exists_placed ⟨layout_kernelAt 0 (.inl rfl), ?_, ?_, ?_, ?_, ?_, ?_, ?_⟩
    roundsDown_roundDown (fun _ _ _ _ => rfl) rfl (kernelAt_fresh _ (.inr rfl)).1 _
  · decide +kernel
  · decide +kernel
  · rw [ElfFile.PhdrsInside]
    decide +kernel
  · exact ⟨(kernelAt 0).phdr 0, by decide +kernel, by decide +kernel, by decide +kernel⟩
  · decide +kernel
  · decide +kernel
  · decide +kernel

end Mars.Bootloader
