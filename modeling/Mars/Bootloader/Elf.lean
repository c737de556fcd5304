import Mars.Lib.Bits
import Mars.Lib.Memory
import Mathlib.Data.List.Basic
import Mathlib.Tactic.Common

/-!
# Loading of the kernel

Embedding of `load_kernel` of `bootloader/src/elf.rs` after the file is in memory, in a release
build: all sums are modulo `2 ^ 64`. The first access outside of the file and the first write
outside of the allocated pages end the run, since nothing is known from there on. Up to there the
buffer of the file does not change, since fresh pages are apart from it.
`TTENATIVE::align_down`, which is not part of the repository, is a parameter.
-/

namespace Mars.Bootloader

open Lib

/-- The bytes of `kernel.elf`. -/
abbrev ElfFile := List UInt8

abbrev Memory := UInt64 → UInt8

inductive Status where
  | loadError
  | other (code : Nat)
deriving DecidableEq

inductive Panic where
  | writableAndExecutable
  | memoryProtections
deriving DecidableEq

/-- How a run ends without a kernel. -/
inductive Stop where
  | err (status : Status)
  | panic (p : Panic)
  | outOfFile
  | outOfPages
deriving DecidableEq

structure MemoryAttribute where
  readProtect : Bool
  executeProtect : Bool
deriving DecidableEq

/-- What the firmware answers. The protections are set once for each segment. -/
structure Firmware where
  allocatePages : UInt64 → Except Status UInt64
  setMemoryAttributes : Nat → (start stop : UInt64) → MemoryAttribute → Bool

/-! ### Addresses -/

def pageSize : UInt64 := 16384

def uefiPageSize : UInt64 := 4096

def u64Max : UInt64 := 0xFFFFFFFFFFFFFFFF

def alignUp (addr align : UInt64) : UInt64 := (addr + align - 1) &&& ~~~(align - 1)

/-- What `TTENATIVE::align_down` does, for pages of 16 KiB. -/
def RoundsDown (alignDown : UInt64 → UInt64) : Prop :=
  ∀ addr, (alignDown addr).toNat = addr.toNat / 16384 * 16384

def roundDown (addr : UInt64) : UInt64 := addr &&& ~~~(pageSize - 1)

def saturatingAdd (a b : UInt64) : UInt64 :=
  if a.toNat + b.toNat < 2 ^ 64 then a + b else u64Max

/-! ### The headers -/

structure Elf64Ehdr where
  eEntry : UInt64
  ePhoff : UInt64
  ePhentsize : UInt16
  ePhnum : UInt16
deriving DecidableEq

structure Elf64Phdr where
  pType : UInt32
  pFlags : UInt32
  pOffset : UInt64
  pVaddr : UInt64
  pFilesz : UInt64
  pMemsz : UInt64
deriving DecidableEq

def ehdrSize : Nat := 64

def phdrSize : Nat := 56

def ptLoad : UInt32 := 1

namespace Elf64Phdr

def isLoad (ph : Elf64Phdr) : Bool := ph.pType == ptLoad

def executable (ph : Elf64Phdr) : Bool := ph.pFlags &&& 0x1 != 0

def writable (ph : Elf64Phdr) : Bool := ph.pFlags &&& 0x2 != 0

def readable (ph : Elf64Phdr) : Bool := ph.pFlags &&& 0x4 != 0

end Elf64Phdr

namespace ElfFile

variable (f : ElfFile)

/-- The file as it is in memory. -/
def byte : Mem := fun i => f.getD i 0

def ehdr : Elf64Ehdr where
  eEntry := .ofNat (f.byte.load 8 24)
  ePhoff := .ofNat (f.byte.load 8 32)
  ePhentsize := .ofNat (f.byte.load 2 54)
  ePhnum := .ofNat (f.byte.load 2 56)

def isElf64 : Bool := f.take 4 == [0x7F, 0x45, 0x4C, 0x46] && f.byte 4 == 2 && f.byte 5 == 1

def phdrAt (o : Nat) : Elf64Phdr where
  pType := .ofNat (f.byte.load 4 o)
  pFlags := .ofNat (f.byte.load 4 (o + 4))
  pOffset := .ofNat (f.byte.load 8 (o + 8))
  pVaddr := .ofNat (f.byte.load 8 (o + 16))
  pFilesz := .ofNat (f.byte.load 8 (o + 32))
  pMemsz := .ofNat (f.byte.load 8 (o + 40))

/-- `phoff + phnum * phentsize` -/
def phdrsEnd : UInt64 :=
  f.ehdr.ePhoff + .ofNat f.ehdr.ePhnum.toNat * .ofNat f.ehdr.ePhentsize.toNat

/-- `phoff + i * phentsize` -/
def phdrOffset (i : Nat) : UInt64 := f.ehdr.ePhoff + .ofNat i * .ofNat f.ehdr.ePhentsize.toNat

def phdr (i : Nat) : Elf64Phdr := f.phdrAt (f.phdrOffset i).toNat

def phdrs : List Elf64Phdr := (List.range f.ehdr.ePhnum.toNat).map f.phdr

def checkEhdr : Except Stop Unit :=
  if f.length < ehdrSize then .error (.err .loadError)
  else if ¬ f.isElf64 then .error (.err .loadError)
  else if f.length < f.phdrsEnd.toNat then .error (.err .loadError)
  else .ok ()

def PhdrInside (i : Nat) : Prop := (f.phdrOffset i).toNat + phdrSize ≤ f.length

instance (i : Nat) : Decidable (f.PhdrInside i) := inferInstanceAs (Decidable (_ ≤ _))

def readPhdr (i : Nat) : Except Stop Elf64Phdr :=
  if f.PhdrInside i then .ok (f.phdr i) else .error .outOfFile

end ElfFile

/-! ### The span of the segments -/

/-- The smallest address and the largest end so far. -/
structure Span where
  minVaddr : UInt64
  maxVaddr : UInt64
deriving DecidableEq

def Span.widen (span : Span) (ph : Elf64Phdr) : Span :=
  if ph.isLoad then
    let stop := saturatingAdd ph.pVaddr ph.pMemsz
    { minVaddr := if ph.pVaddr < span.minVaddr then ph.pVaddr else span.minVaddr
      maxVaddr := if span.maxVaddr < stop then stop else span.maxVaddr }
  else span

def Span.empty : Span := ⟨u64Max, 0⟩

def scanPhdrs (f : ElfFile) : Except Stop Span :=
  (List.range f.ehdr.ePhnum.toNat).foldlM
    (fun span i => do
      let ph ← f.readPhdr i
      pure (span.widen ph)) Span.empty

def Span.loadSize (span : Span) : UInt64 :=
  alignUp (span.maxVaddr - span.minVaddr) uefiPageSize

def Span.pages (span : Span) : UInt64 := span.loadSize / uefiPageSize

/-- The pages that are allocated, which leave room for the alignment of the base. -/
def Span.allocatedPages (span : Span) : UInt64 := span.pages + pageSize / uefiPageSize

/-! ### The segments -/

/-- The address of a byte relative to the first one says if it is written, also if the range goes
around. -/
def Memory.write (m : Memory) (dst len : UInt64) (byte : UInt64 → UInt8) : Memory :=
  fun a => if a - dst < len then byte (a - dst) else m a

structure Pages where
  start : UInt64
  count : UInt64

namespace Pages

def Has (p : Pages) (dst len : UInt64) : Prop :=
  p.start.toNat ≤ dst.toNat ∧ dst.toNat + len.toNat ≤ p.start.toNat + p.count.toNat * 4096

instance (p : Pages) (dst len : UInt64) : Decidable (p.Has dst len) :=
  inferInstanceAs (Decidable (_ ∧ _))

def write (p : Pages) (m : Memory) (dst len : UInt64) (byte : UInt64 → UInt8) :
    Except Stop Memory :=
  if p.Has dst len then .ok (m.write dst len byte) else .error .outOfPages

end Pages

def SourceInside (f : ElfFile) (ph : Elf64Phdr) : Prop :=
  ph.pFilesz = 0 ∨ ph.pOffset.toNat + ph.pFilesz.toNat ≤ f.length

instance (f : ElfFile) (ph : Elf64Phdr) : Decidable (SourceInside f ph) :=
  inferInstanceAs (Decidable (_ ∨ _))

def placeSegment (pages : Pages) (f : ElfFile) (ph : Elf64Phdr) (dst : UInt64) (m : Memory) :
    Except Stop Memory := do
  let m ← if 0 < ph.pFilesz then
      pages.write m dst ph.pFilesz fun k => f.byte (ph.pOffset.toNat + k.toNat)
    else pure m
  if ph.pFilesz < ph.pMemsz then
    pages.write m (dst + ph.pFilesz) (ph.pMemsz - ph.pFilesz) fun _ => 0
  else pure m

section Loader

variable (alignDown : UInt64 → UInt64) (fw : Firmware)

def loadSegment (f : ElfFile) (pages : Pages) (base minVaddr : UInt64) (i : Nat) (ph : Elf64Phdr)
    (m : Memory) : Except Stop Memory :=
  if ¬ ph.isLoad then pure m
  else if ph.writable && ph.executable then .error (.panic .writableAndExecutable)
  else if f.length < (ph.pOffset + ph.pFilesz).toNat then .error (.err .loadError)
  else
    let vaddr := alignDown ph.pVaddr
    let dst := base + (vaddr - minVaddr)
    let startAlign := alignUp dst pageSize
    let endAlign := alignUp (dst + ph.pFilesz) pageSize
    if ¬ SourceInside f ph then .error .outOfFile
    else do
      let m ← placeSegment pages f ph dst m
      if fw.setMemoryAttributes i startAlign endAlign ⟨!ph.readable, !ph.executable⟩ then pure m
      else .error (.panic .memoryProtections)

def loadSegments (f : ElfFile) (pages : Pages) (base minVaddr : UInt64) (m : Memory) :
    Except Stop Memory :=
  (List.range f.ehdr.ePhnum.toNat).foldlM
    (fun m i => do
      let ph ← f.readPhdr i
      loadSegment alignDown fw f pages base minVaddr i ph m) m

/-! ### The loader -/

structure LoadedKernel where
  entryOffset : UInt64
  minVaddr : UInt64
  basePhys : UInt64
  loadSize : UInt64
  memory : Memory

/-- The segments are loaded behind zeroed memory, from the base in the allocated pages on. -/
def loadAt (f : ElfFile) (m : Memory) (span : Span) (alloc : UInt64) :
    Except Stop LoadedKernel := do
  let pages : Pages := ⟨alloc, span.allocatedPages⟩
  let base := alignUp alloc pageSize
  let m ← pages.write m base (span.pages * uefiPageSize) fun _ => 0
  let m ← loadSegments alignDown fw f pages base span.minVaddr m
  if f.ehdr.eEntry < span.minVaddr || span.maxVaddr ≤ f.ehdr.eEntry then .error (.err .loadError)
  else pure ⟨f.ehdr.eEntry - span.minVaddr, span.minVaddr, base, span.loadSize, m⟩

def loadKernel (f : ElfFile) (m : Memory) : Except Stop LoadedKernel := do
  f.checkEhdr
  let span ← scanPhdrs f
  if span.minVaddr = u64Max then .error (.err .loadError)
  else
    match fw.allocatePages span.allocatedPages with
    | .error status => .error (.err status)
    | .ok alloc     => loadAt alignDown fw f m span alloc

end Loader

/-! ### Rounding -/

lemma toNat_and_mask {x mask : UInt64} (n : Nat)
    (hmask : mask.toNat = Bits.complement (2 ^ n - 1)) :
    (x &&& mask).toNat = x.toNat / 2 ^ n * 2 ^ n := by
  rw [UInt64.toNat_and, hmask, Bits.and_complement_mask n x.toNat_lt]

lemma roundsDown_roundDown : RoundsDown roundDown := fun _ => toNat_and_mask 14 (by decide)

lemma toNat_alignUp {x : UInt64} (h : x.toNat + 16383 < 2 ^ 64) :
    (alignUp x pageSize).toNat = (x.toNat + 16383) / 16384 * 16384 := by
  have hsum : x + pageSize - 1 = x + 16383 := by
    simp only [pageSize]
    grind
  change (roundDown (x + pageSize - 1)).toNat = _
  rw [hsum, roundsDown_roundDown, UInt64.toNat_add]
  exact congrArg (· / 16384 * 16384) (Nat.mod_eq_of_lt h)

namespace Span

variable (span : Span)

lemma toNat_loadSize :
    span.loadSize.toNat = (span.maxVaddr - span.minVaddr + 4095).toNat / 4096 * 4096 := by
  have hsum (x : UInt64) : x + uefiPageSize - 1 = x + 4095 := by
    simp only [uefiPageSize]
    grind
  rw [loadSize, alignUp, hsum]
  exact toNat_and_mask 12 (by decide)

lemma toNat_pages : span.pages.toNat * 4096 = span.loadSize.toNat := by
  have hdiv : span.pages.toNat = span.loadSize.toNat / 4096 := UInt64.toNat_div _ _
  rw [hdiv, toNat_loadSize, Nat.mul_div_cancel _ (by decide)]

lemma pages_mul : span.pages * uefiPageSize = span.loadSize := by
  apply UInt64.toNat_inj.mp
  have hlt := span.loadSize.toNat_lt
  rw [← toNat_pages] at hlt
  rw [UInt64.toNat_mul, ← toNat_pages]
  exact Nat.mod_eq_of_lt hlt

lemma toNat_allocatedPages :
    span.allocatedPages.toNat * 4096 = span.loadSize.toNat + 16384 := by
  have hpages := span.toNat_pages
  have hlt := span.loadSize.toNat_lt
  have hsum : span.allocatedPages.toNat = (span.pages.toNat + 4) % 2 ^ 64 := UInt64.toNat_add _ _
  rw [hsum, Nat.mod_eq_of_lt (by omega), Nat.add_mul, hpages]

/-- The span has room for a segment between two addresses. -/
def Holds (start stop : UInt64) : Prop := span.minVaddr ≤ start ∧ stop ≤ span.maxVaddr

variable {span} {start stop : UInt64} {ph : Elf64Phdr} {phs : List Elf64Phdr}

lemma Holds.widen (h : span.Holds start stop) (ph : Elf64Phdr) :
    (span.widen ph).Holds start stop := by
  simp only [Holds, Span.widen, UInt64.le_iff_toNat_le, UInt64.lt_iff_toNat_lt] at h ⊢
  split_ifs <;> grind

lemma holds_widen (span : Span) (hload : ph.isLoad) :
    (span.widen ph).Holds ph.pVaddr (saturatingAdd ph.pVaddr ph.pMemsz) := by
  simp only [Holds, Span.widen, if_pos hload, UInt64.le_iff_toNat_le, UInt64.lt_iff_toNat_lt]
  grind

lemma Holds.foldl (h : span.Holds start stop) : (phs.foldl Span.widen span).Holds start stop := by
  induction phs generalizing span with
  | nil => exact h
  | cons ph phs ih => exact ih (h.widen ph)

lemma holds_foldl (hmem : ph ∈ phs) (hload : ph.isLoad) :
    (phs.foldl Span.widen span).Holds ph.pVaddr (saturatingAdd ph.pVaddr ph.pMemsz) := by
  induction phs generalizing span with
  | nil => cases hmem
  | cons q phs ih =>
    cases hmem with
    | tail _ hmem => exact ih hmem
    | head => exact (span.holds_widen hload).foldl

end Span

/-! ### The place of a segment -/

/-- What is known of fresh pages; they are not at zero, as the pointer to them is not null. -/
structure Pages.Fresh (p : Pages) : Prop where
  ne_zero : p.start ≠ 0
  aligned : p.start.toNat % 4096 = 0
  fits : p.start.toNat + p.count.toNat * 4096 ≤ 2 ^ 64

def Elf64Phdr.size (ph : Elf64Phdr) : UInt64 :=
  if ph.pFilesz < ph.pMemsz then ph.pMemsz else ph.pFilesz

/-- The byte of a segment, from the file or zero. -/
def segmentByte (f : ElfFile) (ph : Elf64Phdr) (k : UInt64) : UInt8 :=
  if k < ph.pFilesz then f.byte (ph.pOffset.toNat + k.toNat) else 0

namespace ElfFile

def loads (f : ElfFile) : List Elf64Phdr := f.phdrs.filter (·.isLoad)

def span (f : ElfFile) : Span := f.phdrs.foldl Span.widen Span.empty

def pagesAt (f : ElfFile) (alloc : UInt64) : Pages := ⟨alloc, f.span.allocatedPages⟩

lemma span_holds {f : ElfFile} {ph : Elf64Phdr} (h : ph ∈ f.loads) :
    f.span.Holds ph.pVaddr (saturatingAdd ph.pVaddr ph.pMemsz) := by
  obtain ⟨hmem, hload⟩ := List.mem_filter.mp h
  exact Span.holds_foldl hmem hload

lemma minVaddr_le {f : ElfFile} {ph : Elf64Phdr} (h : ph ∈ f.loads) :
    f.span.minVaddr.toNat ≤ ph.pVaddr.toNat :=
  UInt64.le_iff_toNat_le.mp (span_holds h).1

end ElfFile

/-- The distance from the allocated pages to the base. -/
def slack (alloc : UInt64) : Nat := (16384 - alloc.toNat % 16384) % 16384

/-- A segment that is not empty stays in the allocated pages when it is moved down to a page. -/
def StaysInPages (f : ElfFile) (alloc : UInt64) (ph : Elf64Phdr) : Prop :=
  0 < ph.size →
    f.span.minVaddr.toNat ≤ ph.pVaddr.toNat / 16384 * 16384 + slack alloc ∧
      ph.pVaddr.toNat / 16384 * 16384 + slack alloc + ph.size.toNat ≤
        f.span.minVaddr.toNat + f.span.allocatedPages.toNat * 4096

instance (f : ElfFile) (alloc : UInt64) (ph : Elf64Phdr) : Decidable (StaysInPages f alloc ph) :=
  inferInstanceAs (Decidable (_ → _))

def segmentDst (alignDown : UInt64 → UInt64) (f : ElfFile) (alloc : UInt64) (ph : Elf64Phdr) :
    UInt64 :=
  alignUp alloc pageSize + (alignDown ph.pVaddr - f.span.minVaddr)

section Place

variable {alignDown : UInt64 → UInt64} {fw : Firmware} {f : ElfFile} {alloc : UInt64}
  {ph : Elf64Phdr} {m : Memory}

lemma Memory.write_zero (m : Memory) (dst : UInt64) (byte : UInt64 → UInt8) :
    m.write dst 0 byte = m :=
  funext fun _ => if_neg UInt64.not_lt_zero

lemma sub_lt_sub_iff {j x y : UInt64} (h : x < y) : j - x < y - x ↔ x ≤ j ∧ j < y := by
  have hj := j.toNat_lt
  rw [UInt64.lt_iff_toNat_lt] at h
  rw [UInt64.lt_iff_toNat_lt, UInt64.lt_iff_toNat_lt, UInt64.le_iff_toNat_le, UInt64.toNat_sub,
    UInt64.toNat_sub]
  have := y.toNat_lt
  omega

/-- The zeros behind the copy complete the segment. -/
lemma Memory.write_write (m : Memory) (htail : ph.pFilesz < ph.pMemsz) (dst : UInt64) :
    (m.write dst ph.pFilesz fun k => f.byte (ph.pOffset.toNat + k.toNat)).write
        (dst + ph.pFilesz) (ph.pMemsz - ph.pFilesz) (fun _ => 0) =
      m.write dst ph.pMemsz (segmentByte f ph) := by
  funext a
  have hsub : a - (dst + ph.pFilesz) = a - dst - ph.pFilesz := by grind
  simp only [Memory.write, segmentByte, hsub, sub_lt_sub_iff htail]
  by_cases hfile : a - dst < ph.pFilesz
  · rw [if_neg fun h => UInt64.not_lt.mpr h.1 hfile, if_pos hfile,
      if_pos (UInt64.lt_trans hfile htail), if_pos hfile]
  · simp only [UInt64.not_lt.mp hfile, true_and, if_neg hfile]

lemma Pages.Fresh.has_split {p : Pages} (h : p.Fresh) {dst x y : UInt64} (hx : 0 < x)
    (hxy : x < y) : p.Has dst x ∧ p.Has (dst + x) (y - x) ↔ p.Has dst y := by
  have hstart : p.start.toNat ≠ 0 := fun hzero => h.ne_zero (UInt64.toNat_inj.mp hzero)
  have hend := h.fits
  have hy := y.toNat_lt
  rw [UInt64.lt_iff_toNat_lt] at hx hxy
  simp only [Has, UInt64.toNat_add, UInt64.toNat_sub]
  omega

lemma placeSegment_eq {p : Pages} (h : p.Fresh) (dst : UInt64) :
    placeSegment p f ph dst m =
      if 0 < ph.size → p.Has dst ph.size then .ok (m.write dst ph.size (segmentByte f ph))
      else .error .outOfPages := by
  rw [placeSegment, Elf64Phdr.size]
  by_cases hfile : 0 < ph.pFilesz
  · rw [if_pos hfile, Pages.write]
    by_cases htail : ph.pFilesz < ph.pMemsz
    · simp only [if_pos htail, UInt64.lt_trans hfile htail, forall_const,
        ← h.has_split hfile htail, Pages.write]
      by_cases hhead : p.Has dst ph.pFilesz
      · simp only [hhead, true_and, if_true, ← Memory.write_write m htail]
        rfl
      · simp only [hhead, false_and, if_false]
        rfl
    · simp only [if_neg htail, hfile, forall_const]
      split_ifs with hhas
      · have hbyte : m.write dst ph.pFilesz (fun k => f.byte (ph.pOffset.toNat + k.toNat)) =
            m.write dst ph.pFilesz (segmentByte f ph) := by
          funext a
          simp only [Memory.write, segmentByte]
          split_ifs <;> rfl
        exact congrArg Except.ok hbyte
      · rfl
  · have hzero := UInt64.le_zero_iff.mp (UInt64.not_lt.mp hfile)
    have hbyte : segmentByte f ph = fun _ => 0 := by
      funext k
      rw [segmentByte, hzero, if_neg UInt64.not_lt_zero]
    simp only [hbyte, hzero, UInt64.not_lt_zero, if_false, UInt64.add_zero, UInt64.sub_zero,
      pure_bind]
    by_cases htail : 0 < ph.pMemsz
    · simp only [htail, if_true, forall_const]
      rfl
    · simp only [htail, if_false, UInt64.not_lt_zero, IsEmpty.forall_iff, if_true,
        Memory.write_zero]
      rfl

lemma toNat_base (h : (f.pagesAt alloc).Fresh) :
    (alignUp alloc pageSize).toNat = alloc.toNat + slack alloc := by
  have hfits := h.fits
  simp only [ElfFile.pagesAt, Span.toNat_allocatedPages] at hfits
  rw [toNat_alignUp (by omega), slack]
  omega

lemma has_zeroed (h : (f.pagesAt alloc).Fresh) :
    (f.pagesAt alloc).Has (alignUp alloc pageSize) (f.span.pages * uefiPageSize) := by
  simp only [Pages.Has, ElfFile.pagesAt, Span.pages_mul, Span.toNat_allocatedPages, toNat_base h,
    slack]
  omega

/-- The base is not so small that the destination goes around below it. -/
lemma staysInPages_iff (hdown : RoundsDown alignDown) (h : (f.pagesAt alloc).Fresh)
    (hph : ph ∈ f.loads) :
    StaysInPages f alloc ph ↔
      (0 < ph.size → (f.pagesAt alloc).Has (segmentDst alignDown f alloc ph) ph.size) := by
  refine forall_congr' fun hsize => ?_
  have hmin := ElfFile.minVaddr_le hph
  have halloc : alloc.toNat ≠ 0 := fun hzero => h.ne_zero (UInt64.toNat_inj.mp hzero)
  have hfits := h.fits
  have hvaddr := ph.pVaddr.toNat_lt
  have hpos := UInt64.lt_iff_toNat_lt.mp hsize
  simp only [ElfFile.pagesAt, Span.toNat_allocatedPages] at hfits
  simp only [Pages.Has, ElfFile.pagesAt, segmentDst, Span.toNat_allocatedPages, UInt64.toNat_add,
    UInt64.toNat_sub, toNat_base h, hdown ph.pVaddr, slack]
  omega

end Place

end Mars.Bootloader
