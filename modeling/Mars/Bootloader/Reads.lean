import Mars.Bootloader.Elf

/-!
# The reads of the loader

The checks on the headers are made on sums that may go around, and on the size of an entry that the
file gives. So they do not keep the loops from reading outside of the file.
-/

namespace Mars.Bootloader

/-! ### The reads -/

def Rejected (f : ElfFile) : Prop :=
  f.length < ehdrSize ∨ f.isElf64 = false ∨ f.length < f.phdrsEnd.toNat

instance (f : ElfFile) : Decidable (Rejected f) := inferInstanceAs (Decidable (_ ∨ _))

/-- The segment ends the run before its source is read. -/
def stopsRun (f : ElfFile) (ph : Elf64Phdr) : Bool :=
  (ph.writable && ph.executable) || decide (f.length < (ph.pOffset + ph.pFilesz).toNat)

/-- The segments up to the first one that ends the run. -/
def reached (f : ElfFile) (phs : List Elf64Phdr) : List Elf64Phdr :=
  phs.takeWhile fun ph => !stopsRun f ph

/-- Every program header that is read is in the file. -/
def ElfFile.PhdrsInside (f : ElfFile) : Prop := ∀ i < f.ehdr.ePhnum.toNat, f.PhdrInside i

def Firmware.Permits (fw : Firmware) : Prop :=
  ∀ i start stop attrs, fw.setMemoryAttributes i start stop attrs = true

section Reads

variable {alignDown : UInt64 → UInt64} {fw : Firmware} {f : ElfFile} {alloc : UInt64}
  {ph : Elf64Phdr} {phs : List Elf64Phdr} {m : Memory} {i : Nat} {is : List Nat}

lemma ElfFile.checkEhdr_of_not_rejected (h : ¬ Rejected f) : f.checkEhdr = .ok () := by
  simp only [Rejected, not_or] at h
  obtain ⟨hlen, hident, hend⟩ := h
  simp [ElfFile.checkEhdr, hlen, hident, hend]

lemma ElfFile.readPhdr_of_inside (h : f.PhdrInside i) : f.readPhdr i = .ok (f.phdr i) := if_pos h

lemma foldlM_readPhdr {σ : Type} (step : σ → Nat → Elf64Phdr → Except Stop σ) (s : σ)
    (h : ∀ i ∈ is, f.PhdrInside i) :
    is.foldlM (fun s i => do step s i (← f.readPhdr i)) s =
      is.foldlM (fun s i => step s i (f.phdr i)) s := by
  induction is generalizing s with
  | nil => rfl
  | cons i is ih =>
    rw [List.forall_mem_cons] at h
    simp only [List.foldlM_cons, ElfFile.readPhdr_of_inside h.1, ih _ h.2]
    rfl

lemma foldlM_widen (span : Span) :
    is.foldlM (m := Except Stop) (fun span i => pure (span.widen (f.phdr i))) span =
      .ok ((is.map f.phdr).foldl Span.widen span) := by
  induction is generalizing span with
  | nil => rfl
  | cons i is ih => exact ih _

lemma scanPhdrs_of_inside (h : f.PhdrsInside) : scanPhdrs f = .ok f.span := by
  have hin : ∀ i ∈ List.range f.ehdr.ePhnum.toNat, f.PhdrInside i :=
    fun i hi => h i (List.mem_range.mp hi)
  have hread := foldlM_readPhdr (fun (span : Span) _ ph => pure (span.widen ph)) Span.empty hin
  exact hread.trans (foldlM_widen _)

lemma loadSegment_of_stops {pages : Pages} {base minVaddr : UInt64} (hload : ph.isLoad)
    (h : stopsRun f ph) :
    ∃ e ≠ Stop.outOfFile, e ≠ .outOfPages ∧
      loadSegment alignDown fw f pages base minVaddr i ph m = .error e := by
  rw [loadSegment, if_neg (not_not_intro hload)]
  by_cases hwx : (ph.writable && ph.executable) = true
  · exact ⟨.panic .writableAndExecutable, nofun, nofun, if_pos hwx⟩
  · refine ⟨.err .loadError, nofun, nofun, ?_⟩
    rw [stopsRun, Bool.or_eq_true, decide_eq_true_iff] at h
    rw [if_neg hwx, if_pos (h.resolve_left hwx)]

/-- A segment that does not stop the run is placed, if its source and its destination allow it. -/
lemma loadSegment_of_goesOn (hdown : RoundsDown alignDown) (hfresh : (f.pagesAt alloc).Fresh)
    (hph : ph ∈ f.loads) (h : stopsRun f ph = false) :
    ∃ permitted : Bool, (fw.Permits → permitted = true) ∧
      loadSegment alignDown fw f (f.pagesAt alloc) (alignUp alloc pageSize) f.span.minVaddr i ph m =
        if SourceInside f ph then
          if StaysInPages f alloc ph then
            if permitted then
              .ok (m.write (segmentDst alignDown f alloc ph) ph.size (segmentByte f ph))
            else .error (.panic .memoryProtections)
          else .error .outOfPages
        else .error .outOfFile := by
  obtain ⟨-, hload⟩ := List.mem_filter.mp hph
  rw [stopsRun, Bool.or_eq_false_iff, decide_eq_false_iff_not] at h
  refine ⟨fw.setMemoryAttributes i (alignUp (segmentDst alignDown f alloc ph) pageSize)
    (alignUp (segmentDst alignDown f alloc ph + ph.pFilesz) pageSize)
    ⟨!ph.readable, !ph.executable⟩, fun hfw => hfw _ _ _ _, ?_⟩
  rw [loadSegment, if_neg (not_not_intro hload), if_neg (by simp [h.1]), if_neg h.2, ite_not]
  refine if_congr Iff.rfl ?_ rfl
  have hiff := staysInPages_iff hdown hfresh hph
  change placeSegment _ f ph (segmentDst alignDown f alloc ph) m >>= _ = _
  rw [placeSegment_eq hfresh]
  by_cases hstays : StaysInPages f alloc ph
  · rw [if_pos hstays, if_pos (hiff.mp hstays)]
    rfl
  · rw [if_neg hstays, if_neg (mt hiff.mpr hstays)]
    rfl

/-! ### All segments -/

def placeAll (alignDown : UInt64 → UInt64) (f : ElfFile) (alloc : UInt64) (m : Memory)
    (phs : List Elf64Phdr) : Memory :=
  phs.foldl (fun m ph => m.write (segmentDst alignDown f alloc ph) ph.size (segmentByte f ph)) m

/-- What the loop over some segments can end in. -/
inductive Ends (alignDown : UInt64 → UInt64) (fw : Firmware) (f : ElfFile) (alloc : UInt64)
    (phs : List Elf64Phdr) (m : Memory) : Except Stop Memory → Prop
  | loaded : (∀ ph ∈ phs, StaysInPages f alloc ph) → (∀ ph ∈ phs, SourceInside f ph) →
      Ends alignDown fw f alloc phs m (.ok (placeAll alignDown f alloc m phs))
  | outOfFile : (∃ ph ∈ reached f phs, ¬ SourceInside f ph) →
      Ends alignDown fw f alloc phs m (.error .outOfFile)
  | outOfPages : (∃ ph ∈ reached f phs, ¬ StaysInPages f alloc ph) →
      Ends alignDown fw f alloc phs m (.error .outOfPages)
  | stopped {e : Stop} : e ≠ .outOfFile → e ≠ .outOfPages →
      (fw.Permits → (∀ ph ∈ reached f phs, SourceInside f ph) ∧ ∃ ph ∈ phs, stopsRun f ph) →
      Ends alignDown fw f alloc phs m (.error e)

lemma Ends.cons {x : Except Stop Memory} (hstop : stopsRun f ph = false)
    (hsource : SourceInside f ph) (hstays : StaysInPages f alloc ph)
    (h : Ends alignDown fw f alloc phs
      (m.write (segmentDst alignDown f alloc ph) ph.size (segmentByte f ph)) x) :
    Ends alignDown fw f alloc (ph :: phs) m x := by
  have hreached : reached f (ph :: phs) = ph :: reached f phs :=
    List.takeWhile_cons_of_pos (by rw [hstop]; rfl)
  cases h with
  | loaded hs hin =>
    exact .loaded (List.forall_mem_cons.mpr ⟨hstays, hs⟩) (List.forall_mem_cons.mpr ⟨hsource, hin⟩)
  | outOfFile h =>
    refine .outOfFile ?_
    rw [hreached]
    exact List.exists_mem_cons_of_exists h
  | outOfPages h =>
    refine .outOfPages ?_
    rw [hreached]
    exact List.exists_mem_cons_of_exists h
  | stopped hfile hpages h =>
    refine .stopped hfile hpages fun hfw => ?_
    obtain ⟨hin, hex⟩ := h hfw
    rw [hreached]
    exact ⟨List.forall_mem_cons.mpr ⟨hsource, hin⟩, List.exists_mem_cons_of_exists hex⟩

/-- The loop stops at the first segment with a defect, and what it stops with says which one. -/
lemma ends_foldlM (hdown : RoundsDown alignDown) (hfresh : (f.pagesAt alloc).Fresh)
    (hphs : ∀ ph ∈ (is.map f.phdr).filter (·.isLoad), ph ∈ f.loads) :
    Ends alignDown fw f alloc ((is.map f.phdr).filter (·.isLoad)) m
      (is.foldlM (fun m i => loadSegment alignDown fw f (f.pagesAt alloc)
        (alignUp alloc pageSize) f.span.minVaddr i (f.phdr i) m) m) := by
  induction is generalizing m with
  | nil => exact .loaded nofun nofun
  | cons i is ih =>
    rw [List.foldlM_cons]
    by_cases hload : (f.phdr i).isLoad
    · rw [List.map_cons, List.filter_cons_of_pos hload] at hphs ⊢
      rw [List.forall_mem_cons] at hphs
      cases hstop : stopsRun f (f.phdr i) with
      | true =>
        obtain ⟨e, hfile, hpages, he⟩ := loadSegment_of_stops hload hstop
        rw [he]
        refine .stopped hfile hpages fun _ => ⟨?_, ⟨_, List.mem_cons_self, hstop⟩⟩
        rw [reached, List.takeWhile_cons_of_neg (by rw [hstop]; decide)]
        exact fun _ => nofun
      | false =>
        have hmem : f.phdr i ∈ reached f
            (f.phdr i :: (is.map f.phdr).filter (·.isLoad)) := by
          rw [reached, List.takeWhile_cons_of_pos (by rw [hstop]; rfl)]
          exact List.mem_cons_self
        obtain ⟨permitted, hfw, hround⟩ := loadSegment_of_goesOn (i := i) hdown hfresh hphs.1 hstop
        rw [hround]
        split_ifs with hsource hstays hok
        · exact .cons hstop hsource hstays (ih hphs.2)
        · exact .stopped nofun nofun fun h => absurd (hfw h) hok
        · exact .outOfPages ⟨_, hmem, hstays⟩
        · exact .outOfFile ⟨_, hmem, hsource⟩
    · rw [List.map_cons, List.filter_cons_of_neg hload] at hphs ⊢
      rw [loadSegment, if_pos hload]
      exact ih hphs

lemma ends_loadSegments (fw : Firmware) (m : Memory) (hdown : RoundsDown alignDown)
    (hfresh : (f.pagesAt alloc).Fresh) (hphdrs : f.PhdrsInside) :
    Ends alignDown fw f alloc f.loads m
      (loadSegments alignDown fw f (f.pagesAt alloc) (alignUp alloc pageSize) f.span.minVaddr
        m) := by
  have hread := foldlM_readPhdr (fun m i ph => loadSegment alignDown fw f (f.pagesAt alloc)
    (alignUp alloc pageSize) f.span.minVaddr i ph m) m
    fun i hi => hphdrs i (List.mem_range.mp hi)
  rw [loadSegments, hread]
  exact ends_foldlM hdown hfresh fun _ => id

/-! ### The whole run -/

def zeroed (f : ElfFile) (alloc : UInt64) (m : Memory) : Memory :=
  m.write (alignUp alloc pageSize) f.span.loadSize fun _ => 0

lemma loadAt_eq (hfresh : (f.pagesAt alloc).Fresh) :
    loadAt alignDown fw f m f.span alloc =
      loadSegments alignDown fw f (f.pagesAt alloc) (alignUp alloc pageSize) f.span.minVaddr
        (zeroed f alloc m) >>= fun m =>
          if f.ehdr.eEntry < f.span.minVaddr || f.span.maxVaddr ≤ f.ehdr.eEntry then
            .error (.err .loadError)
          else pure ⟨f.ehdr.eEntry - f.span.minVaddr, f.span.minVaddr, alignUp alloc pageSize,
            f.span.loadSize, m⟩ := by
  have hzero : (f.pagesAt alloc).write m (alignUp alloc pageSize) (f.span.pages * uefiPageSize)
      (fun _ => 0) = .ok (zeroed f alloc m) := by
    rw [Pages.write, if_pos (has_zeroed hfresh), Span.pages_mul]
    rfl
  change (f.pagesAt alloc).write _ _ _ _ >>= _ = _
  rw [hzero]
  rfl

lemma loadKernel_of_not_rejected (h : ¬ Rejected f) (hphdrs : f.PhdrsInside) :
    loadKernel alignDown fw f m =
      if f.span.minVaddr = u64Max then .error (.err .loadError)
      else match fw.allocatePages f.span.allocatedPages with
        | .error status => .error (.err status)
        | .ok alloc     => loadAt alignDown fw f m f.span alloc := by
  rw [loadKernel, ElfFile.checkEhdr_of_not_rejected h, scanPhdrs_of_inside hphdrs]
  rfl

/-- A firmware with free pages at an address, whose protections can be changed. -/
def Firmware.permissive (alloc : UInt64) : Firmware where
  allocatePages := fun _ => .ok alloc
  setMemoryAttributes := fun _ _ _ _ => true

def phdrBytes (flags offset low high filesz memsz : UInt8) : List UInt8 :=
  [1, 0, 0, 0, flags, 0, 0, 0, offset] ++ List.replicate 7 0 ++ [low, high] ++
    List.replicate 14 0 ++ [filesz] ++ List.replicate 7 0 ++ [memsz] ++ List.replicate 15 0

/-- A kernel with code of two bytes at an address that ends in the given byte and data of one byte
on the next page, each with a zero behind it. -/
def kernelAt (low : UInt8) : ElfFile :=
  [0x7F, 0x45, 0x4C, 0x46, 2, 1] ++ List.replicate 18 0 ++ [low, 0x40] ++ List.replicate 6 0 ++
    [64] ++ List.replicate 21 0 ++ [56, 0, 2] ++ List.replicate 7 0 ++
    phdrBytes 5 176 low 0x40 2 3 ++ phdrBytes 6 178 0 0x80 1 2 ++ [0xAA, 0xBB, 0xCC]

lemma kernelAt_fresh (alloc : UInt64) (h : alloc = 0x4000 ∨ alloc = 0x5000) :
    ((kernelAt 0).pagesAt alloc).Fresh ∧ ((kernelAt 0x10).pagesAt alloc).Fresh := by
  rcases h with rfl | rfl <;>
    exact ⟨⟨by decide, by decide, by decide +kernel⟩, ⟨by decide, by decide, by decide +kernel⟩⟩

end Reads

end Mars.Bootloader
