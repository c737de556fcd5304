import Mars.Gic.Commands
import Mars.Hardware.DeviceTree
import Mathlib.Data.List.Perm.Basic
import Mathlib.Logic.Function.Basic

/-!
# Processors and their redistributors

Embedding of `handle_gicv3` of `earlyinit/acpi.rs`, of the handler in `earlyinit/gicv3.rs` and of
the numbering of processors in `cpu_interface.rs`. Processors are numbered in the order of the MADT,
redistributors in the order in which their frames are found. Nothing else relates the two.
-/

namespace Mars.Gic

open Lib Pm Hardware

/-! ### The table -/

/-- An entry of the MADT, with the fields that are read. -/
inductive MadtEntry where
  | gicc (mpidr : UInt64) (acpiCpuUid : UInt32)
  | gicd (physBase : UInt64) (gicVersion : UInt8)
  | gicr (discoveryRangeBase : UInt64) (discoveryRangeLen : UInt32)
  | its (physBase : UInt64)
  | other
deriving DecidableEq

/-- The entries of a table whose length is a `u32`. -/
structure Madt where
  entries : List MadtEntry
  length_lt : entries.length < 2 ^ 32

/-- `CpuTopologyId::from_mpidr` -/
def fromMpidr (mpidr : UInt64) : UInt32 :=
  let aff3 := ((mpidr >>> 32) &&& 0xFF).toUInt32
  let aff2 := ((mpidr >>> 16) &&& 0xFF).toUInt32
  let aff1 := ((mpidr >>> 8) &&& 0xFF).toUInt32
  let aff0 := (mpidr &&& 0xFF).toUInt32
  aff0 ||| (aff1 <<< 8) ||| (aff2 <<< 16) ||| (aff3 <<< 24)

namespace GicrTyper

def lastRedistributor : Field 64 := ⟨4, 1, by decide⟩

lemma affinity_le : 32 + 32 ≤ 64 := by decide

def affinityValue : Field 64 := ⟨32, 32, affinity_le⟩

end GicrTyper

/-- Whether the frame is the last one of its block. -/
def isLast (typer : BitVec 64) : Bool := GicrTyper.lastRedistributor.lift typer != 0

/-- The processor that a redistributor belongs to. -/
def affinityOf (typer : BitVec 64) : UInt32 :=
  .ofNat (GicrTyper.affinityValue.lift typer).toNat

inductive GicPanic where
  | noDistributor
  | unsupportedVersion
  | nullDistributor
  | unalignedLength
  | emptyRange
deriving DecidableEq

def gicrFrameSize : Nat := 0x20000

def gicdSize : UInt64 := 0x10000

def gitsSize : UInt64 := 0x20000

def framesOf (base : UInt64) (len : UInt32) : List UInt64 :=
  (List.range (len.toNat / gicrFrameSize)).map fun i => base + .ofNat (i * gicrFrameSize)

/-- `GicRedistributor::frames` -/
def frames (base : UInt64) (len : UInt32) : Except GicPanic (List UInt64) :=
  if len.toNat % gicrFrameSize ≠ 0 then .error .unalignedLength
  else if len = 0 then .error .emptyRange
  else .ok (framesOf base len)

/-! ### `handle_gicv3` -/

namespace MadtEntry

def topology? : MadtEntry → Option UInt32
  | gicc mpidr _ => some (fromMpidr mpidr)
  | _            => none

def distributor? : MadtEntry → Option (UInt64 × UInt8)
  | gicd physBase gicVersion => some (physBase, gicVersion)
  | _                        => none

def itsResource? : MadtEntry → Option Resource
  | its base => if base ≠ 0 then some (.mmio base (base + gitsSize)) else none
  | _        => none

end MadtEntry

def frameResource (frame : UInt64) : Resource := .mmio frame (frame + .ofNat gicrFrameSize)

/-- `gic_resources` and `redistributor_count`. -/
structure Discovery where
  resources : List Resource
  count : UInt32

namespace Discovery

variable (typer : UInt64 → BitVec 64)

/-- The loop over the frames of a block. -/
def scan (d : Discovery) : List UInt64 → Discovery
  | []              => d
  | frame :: frames =>
    let d : Discovery :=
      { resources := d.resources ++ [frameResource frame]
        count := d.count + 1 }
    if isLast (typer frame) then d else scan d frames

def visit (d : Discovery) : MadtEntry → Except GicPanic Discovery
  | .gicr base len => do
    let frames ← frames base len
    return d.scan typer frames
  | _ => return d

end Discovery

def addRoot (dt : DeviceTree) (cls : DeviceClass) (compatible : List String)
    (resources : List Resource) : DeviceTree :=
  match dt.addDevice none cls compatible resources .fundamental with
  | some (_, dt) => dt
  | none         => dt

/-- The processor of the entry is added to the tree. -/
def addCpu (dt : DeviceTree) : MadtEntry → DeviceTree
  | .gicc mpidr uid => addRoot dt (.cpu (fromMpidr mpidr) uid) [] []
  | _               => dt

/-- What `handle_gicv3` leaves behind. -/
structure Boot where
  /-- The length of the registry of processors. -/
  cores : Nat
  /-- The index that the boot processor is registered with. -/
  localId : Option Nat
  tree : DeviceTree

/-- `handle_gicv3`, where `typer` has the type registers of the frames and `mpidrEl1` is the
register of the boot processor. -/
def handleGicv3 (madt : Madt) (typer : UInt64 → BitVec 64) (mpidrEl1 : UInt64) (dt : DeviceTree) :
    Except GicPanic Boot :=
  let cpuTopologies := madt.entries.filterMap MadtEntry.topology?
  let localId := cpuTopologies.findIdx? (· == fromMpidr mpidrEl1)
  match madt.entries.findSome? MadtEntry.distributor? with
  | none                 => .error .noDistributor
  | some (base, version) =>
    if version ≠ 3 then .error .unsupportedVersion
    else if base = 0 then .error .nullDistributor
    else do
      let dt := madt.entries.foldl addCpu dt
      let d ← madt.entries.foldlM (Discovery.visit typer)
        { resources := [.mmio base (base + gicdSize)], count := 0 }
      let resources := d.resources ++ madt.entries.filterMap MadtEntry.itsResource?
      return {
        cores := cpuTopologies.length
        localId := localId
        tree := addRoot dt (.gicV3 d.count) ["arm,gic-v3"] resources }

/-! ### The driver -/

/-- What the driver is made of; the pointers are addresses of the direct map. -/
structure Parts where
  distributor : Nat
  redistributors : List Redistributor
  its : Option Nat

def mmio? : Resource → Option UInt64
  | .mmio start _ => some start
  | .irq _        => none

/-- The redistributor whose registers are in the frame. -/
def redistributorAt (typer : UInt64 → BitVec 64) (frame : UInt64) : Redistributor :=
  ⟨physAddrToDmap frame.toNat, typer frame⟩

/-- `handle` of `earlyinit/gicv3.rs`; nothing if an error is logged. -/
def handle (typer : UInt64 → BitVec 64) (node : DeviceNode) : Option Parts :=
  match node.cls with
  | .gicV3 redistributorCount => do
    let distributor ← node.resources[0]?.bind mmio?
    let redistributors := ((node.resources.drop 1).take redistributorCount.toNat).filterMap mmio?
    let itses := (node.resources.drop (1 + redistributorCount.toNat)).filterMap mmio?
    some {
      distributor := physAddrToDmap distributor.toNat
      redistributors := redistributors.map (redistributorAt typer)
      its := itses.head?.map fun start => physAddrToDmap start.toNat }
  | _ => none

/-- `redistributor_mut` on the processor with the logical id. -/
def Parts.redistributorMut (gic : Parts) (cpuId : Nat) : Option Redistributor :=
  gic.redistributors[cpuId]?

/-! ### Logical ids -/

def cpuId? : DeviceClass → Option UInt32
  | .cpu id _ => some id
  | _         => none

/-- `create_cpu_iter`, the processors in the tree. -/
def cpuIter (dt : DeviceTree) : List UInt32 :=
  (dt.nodes.filter fun node => node.priority == .fundamental).filterMap fun node => cpuId? node.cls

/-- `CPU_ID_MAP` and `CPU_TOPOLOGIES`. -/
structure CpuMaps where
  idMap : UInt32 → Option Nat
  topologies : List UInt32

namespace CpuMaps

/-- The loop body of `init_cpu_maps`. -/
def push (maps : CpuMaps) (t : UInt32 × Nat) : CpuMaps :=
  { idMap := Function.update maps.idMap t.1 (some t.2)
    topologies := maps.topologies ++ [t.1] }

def toLogical (maps : CpuMaps) (topology : UInt32) : Option Nat := maps.idMap topology

end CpuMaps

def initCpuMaps (topologies : List UInt32) : CpuMaps :=
  topologies.zipIdx.foldl CpuMaps.push { idMap := fun _ => none, topologies := [] }

/-! ### Numbers of processors -/

namespace CpuMaps

variable {maps : CpuMaps} {l : List UInt32} {n : Nat}

lemma topologies_foldl_push (l : List UInt32) (n : Nat) (maps : CpuMaps) :
    ((l.zipIdx n).foldl push maps).topologies = maps.topologies ++ l := by
  induction l generalizing n maps with
  | nil => simp
  | cons t l ih =>
    rw [List.zipIdx_cons, List.foldl_cons, ih]
    simp [push]

lemma toLogical_foldl_push_of_notMem {t : UInt32} (h : t ∉ l) :
    ((l.zipIdx n).foldl push maps).toLogical t = maps.toLogical t := by
  induction l generalizing n maps with
  | nil => rfl
  | cons s l ih =>
    obtain ⟨hs, hl⟩ := not_or.mp (List.mem_cons.not.mp h)
    rw [List.zipIdx_cons, List.foldl_cons, ih hl]
    exact Function.update_of_ne hs _ _

lemma toLogical_foldl_push (hl : l.Nodup) {i : Nat} {t : UInt32} (h : l[i]? = some t) :
    ((l.zipIdx n).foldl push maps).toLogical t = some (n + i) := by
  induction l generalizing n maps i with
  | nil => simp at h
  | cons s l ih =>
    obtain ⟨hs, hl⟩ := List.nodup_cons.mp hl
    rw [List.zipIdx_cons, List.foldl_cons]
    cases i with
    | zero =>
      obtain rfl : s = t := by simpa using h
      rw [toLogical_foldl_push_of_notMem hs]
      exact Function.update_self _ _ _
    | succ i =>
      rw [ih hl (by simpa using h), add_assoc, add_comm 1 i]

end CpuMaps

lemma topologies_initCpuMaps (l : List UInt32) : (initCpuMaps l).topologies = l := by
  exact CpuMaps.topologies_foldl_push l 0 _

lemma toLogical_initCpuMaps {l : List UInt32} (hl : l.Nodup) {i : Nat} {t : UInt32}
    (h : l[i]? = some t) : (initCpuMaps l).toLogical t = some i := by
  rw [← zero_add i]
  exact CpuMaps.toLogical_foldl_push hl h

/-! ### The frames that are found -/

def blockFrames (typer : UInt64 → BitVec 64) : List UInt64 → List UInt64
  | []              => []
  | frame :: frames => frame :: if isLast (typer frame) then [] else blockFrames typer frames

namespace MadtEntry

def mpidr? : MadtEntry → Option UInt64
  | gicc mpidr _ => some mpidr
  | _            => none

/-- The frames in the range of the entry. -/
def frames (typer : UInt64 → BitVec 64) : MadtEntry → List UInt64
  | gicr base len => blockFrames typer (framesOf base len)
  | _             => []

/-- A range has at least one frame and nothing but frames. -/
def Whole : MadtEntry → Prop
  | gicr _ len => len ≠ 0 ∧ len.toNat % gicrFrameSize = 0
  | _          => True

instance : DecidablePred Whole
  | gicr _ _                            => inferInstanceAs (Decidable (_ ∧ _))
  | gicc _ _ | gicd _ _ | its _ | other => inferInstanceAs (Decidable True)

end MadtEntry

namespace Discovery

variable {typer : UInt64 → BitVec 64} {d : Discovery}

def extend (d : Discovery) (frames : List UInt64) : Discovery :=
  { resources := d.resources ++ frames.map frameResource
    count := d.count + .ofNat frames.length }

@[simp]
lemma extend_nil (d : Discovery) : d.extend [] = d := by
  simp [extend]

lemma extend_append (d : Discovery) (l l' : List UInt64) :
    d.extend (l ++ l') = (d.extend l).extend l' := by
  simp [extend, UInt32.ofNat_add, UInt32.add_assoc]

lemma scan_eq_extend (frames : List UInt64) :
    d.scan typer frames = d.extend (blockFrames typer frames) := by
  induction frames generalizing d with
  | nil => simp [scan, blockFrames]
  | cons frame frames ih =>
    have hcons (l : List UInt64) : d.extend (frame :: l) = (d.extend [frame]).extend l :=
      d.extend_append [frame] l
    rw [scan, blockFrames, hcons]
    split_ifs with hlast
    · rw [extend_nil]
      rfl
    · exact ih

lemma visit_eq_extend {e : MadtEntry} (he : e.Whole) :
    d.visit typer e = .ok (d.extend (e.frames typer)) := by
  cases e with
  | gicr base len =>
    obtain ⟨hlen, hmod⟩ := he
    have hframes : Gic.frames base len = .ok (framesOf base len) := by
      rw [Gic.frames, if_neg (not_not.mpr hmod), if_neg hlen]
    rw [visit, hframes, MadtEntry.frames, ← scan_eq_extend]
    rfl
  | gicc _ _ | gicd _ _ | its _ | other => exact congrArg Except.ok d.extend_nil.symm

lemma foldlM_visit {entries : List MadtEntry} (h : ∀ e ∈ entries, e.Whole) :
    entries.foldlM (visit typer) d = .ok (d.extend (entries.flatMap (·.frames typer))) := by
  induction entries generalizing d with
  | nil => simp [pure, Except.pure]
  | cons e entries ih =>
    rw [List.foldlM_cons, visit_eq_extend (h e (.head _)), List.flatMap_cons, extend_append]
    exact ih fun e' he' => h e' (.tail e he')

end Discovery

/-! ### The processors of the tree -/

lemma getLast?_addRoot (dt : DeviceTree) (cls : DeviceClass) (compatible : List String)
    (resources : List Resource) :
    (addRoot dt cls compatible resources).nodes.getLast? = some {
      id := ⟨dt.nodes.length⟩, priority := .fundamental, parent := none, cls := cls,
      compatible := compatible, resources := resources, children := [] } :=
  List.getLast?_concat

lemma cpuIter_addRoot (dt : DeviceTree) (cls : DeviceClass) (compatible : List String)
    (resources : List Resource) :
    cpuIter (addRoot dt cls compatible resources) = cpuIter dt ++ (cpuId? cls).toList := by
  simp only [cpuIter, addRoot, DeviceTree.addDevice, List.filter_append, List.filterMap_append]
  cases h : cpuId? cls <;> simp [h]

lemma cpuIter_addRoot_gicV3 (dt : DeviceTree) (n : UInt32) (compatible : List String)
    (resources : List Resource) :
    cpuIter (addRoot dt (.gicV3 n) compatible resources) = cpuIter dt :=
  (cpuIter_addRoot dt _ _ _).trans (List.append_nil _)

lemma cpuIter_addCpu (dt : DeviceTree) (e : MadtEntry) :
    cpuIter (addCpu dt e) = cpuIter dt ++ e.topology?.toList := by
  cases e with
  | gicc mpidr uid => exact cpuIter_addRoot dt _ _ _
  | gicd _ _ | gicr _ _ | its _ | other => exact (List.append_nil _).symm

lemma cpuIter_foldl_addCpu (entries : List MadtEntry) (dt : DeviceTree) :
    cpuIter (entries.foldl addCpu dt) = cpuIter dt ++ entries.filterMap MadtEntry.topology? := by
  induction entries generalizing dt with
  | nil => simp
  | cons e entries ih =>
    rw [List.foldl_cons, ih, cpuIter_addCpu, List.append_assoc, List.filterMap_cons]
    cases e.topology? <;> rfl

/-! ### The order of the frames -/

namespace Madt

variable (madt : Madt) (typer : UInt64 → BitVec 64)

def mpidrs : List UInt64 := madt.entries.filterMap MadtEntry.mpidr?

/-- The processors, in the order of their entries. -/
def topologies : List UInt32 := madt.entries.filterMap MadtEntry.topology?

/-- The frames in the ranges, in the order of their entries. -/
def frames : List UInt64 := madt.entries.flatMap (·.frames typer)

def affinities : List UInt32 := (madt.frames typer).map fun frame => affinityOf (typer frame)

/-- The table describes a GICv3, and there is one frame for each processor, in any order. -/
structure OneFrameEach : Prop where
  distributor : ∃ base, base ≠ 0 ∧
    madt.entries.findSome? MadtEntry.distributor? = some (base, 3)
  whole : ∀ e ∈ madt.entries, e.Whole
  perm : (madt.affinities typer).Perm madt.topologies

end Madt

/-- The logical ids of the processors are their places in the table. -/
structure Numbers (madt : Madt) (maps : CpuMaps) : Prop where
  topologies : maps.topologies = madt.topologies
  toLogical : madt.topologies.Nodup → ∀ i t, madt.topologies[i]? = some t →
    maps.toLogical t = some i

lemma numbers_initCpuMaps (madt : Madt) : Numbers madt (initCpuMaps madt.topologies) :=
  ⟨topologies_initCpuMaps _, fun hnodup _ _ ht => toLogical_initCpuMaps hnodup ht⟩

/-- Each processor drives its own redistributor. Commands to the ITS name the redistributor at the
same place of the list. -/
def DrivesOwn (madt : Madt) (gic : Parts) : Prop :=
  ∀ i t, madt.topologies[i]? = some t →
    ∃ r, gic.redistributorMut i = some r ∧ affinityOf r.typer = t

variable {madt : Madt} {typer : UInt64 → BitVec 64}

lemma Madt.OneFrameEach.length_frames (h : madt.OneFrameEach typer) :
    (madt.frames typer).length = madt.topologies.length := by
  have hlen := h.perm.length_eq
  rwa [Madt.affinities, List.length_map] at hlen

lemma Madt.length_topologies_lt (madt : Madt) : madt.topologies.length < 2 ^ 32 :=
  (List.length_filterMap_le _ _).trans_lt madt.length_lt

/-- The driver has the frames that were found, in the same order. -/
lemma handle_eq_some {n : UInt32} {node : DeviceNode} {start stop : UInt64}
    {frames : List UInt64} {itses : List Resource} (hcls : node.cls = .gicV3 n)
    (hn : n.toNat = frames.length)
    (hres : node.resources = .mmio start stop :: (frames.map frameResource ++ itses)) :
    handle typer node = some {
      distributor := physAddrToDmap start.toNat
      redistributors := frames.map (redistributorAt typer)
      its := (itses.filterMap mmio?).head?.map fun start => physAddrToDmap start.toNat } := by
  have hlen : n.toNat = (frames.map frameResource).length := by rw [hn, List.length_map]
  have htake : (node.resources.drop 1).take n.toNat = frames.map frameResource := by
    rw [hres, List.drop_one, List.tail_cons]
    exact List.take_left' hlen.symm
  have hdrop : node.resources.drop (1 + n.toNat) = itses := by
    rw [hres, add_comm, List.drop_succ_cons]
    exact List.drop_left' hlen.symm
  have hfilter : (frames.map frameResource).filterMap mmio? = frames := by
    rw [List.filterMap_map]
    exact List.filterMap_some
  simp only [handle, hcls, htake, hdrop, hfilter]
  rw [hres]
  rfl

/-- Frames are driven by number, so each of them has to stand at the place of its processor. -/
lemma drivesOwn_iff {gic : Parts} (hlen : (madt.frames typer).length = madt.topologies.length)
    (hgic : gic.redistributors = (madt.frames typer).map (redistributorAt typer)) :
    DrivesOwn madt gic ↔ madt.affinities typer = madt.topologies := by
  have haff (i : Nat) : (gic.redistributorMut i).map (affinityOf ·.typer) =
      (madt.affinities typer)[i]? := by
    rw [Parts.redistributorMut, hgic, Madt.affinities, List.getElem?_map, List.getElem?_map,
      Option.map_map]
    rfl
  constructor
  · intro hown
    apply List.ext_getElem?
    intro i
    cases ht : madt.topologies[i]? with
    | none =>
      rw [List.getElem?_eq_none_iff] at ht ⊢
      rwa [Madt.affinities, List.length_map, hlen]
    | some t =>
      obtain ⟨r, hr, hrt⟩ := hown i t ht
      rw [← haff, hr, Option.map_some, hrt]
  · intro heq i t ht
    rw [← heq, ← haff, Option.map_eq_some_iff] at ht
    exact ht

def gicResources (madt : Madt) (typer : UInt64 → BitVec 64) (base : UInt64) : List Resource :=
  .mmio base (base + gicdSize) ::
    ((madt.frames typer).map frameResource ++ madt.entries.filterMap MadtEntry.itsResource?)

lemma handleGicv3_eq_ok {base : UInt64} (hbase : base ≠ 0)
    (hfind : madt.entries.findSome? MadtEntry.distributor? = some (base, 3))
    (hwhole : ∀ e ∈ madt.entries, e.Whole) (mpidrEl1 : UInt64) (dt : DeviceTree) :
    handleGicv3 madt typer mpidrEl1 dt = .ok {
      cores := madt.topologies.length
      localId := madt.topologies.findIdx? (· == fromMpidr mpidrEl1)
      tree := addRoot (madt.entries.foldl addCpu dt) (.gicV3 (.ofNat (madt.frames typer).length))
        ["arm,gic-v3"] (gicResources madt typer base) } := by
  have hvisit : madt.entries.foldlM (Discovery.visit typer) ⟨[.mmio base (base + gicdSize)], 0⟩ =
      .ok ⟨.mmio base (base + gicdSize) :: (madt.frames typer).map frameResource,
        .ofNat (madt.frames typer).length⟩ := by
    rw [Discovery.foldlM_visit hwhole, Discovery.extend, UInt32.zero_add]
    rfl
  simp only [handleGicv3, hfind, hvisit]
  rw [if_neg (not_not.mpr rfl), if_neg hbase]
  rfl

/-- Both functions succeed, and the driver has the frames in the order of the table. -/
lemma Madt.OneFrameEach.exists_boot {dt : DeviceTree} (h : madt.OneFrameEach typer)
    (hdt : cpuIter dt = []) (mpidrEl1 : UInt64) :
    ∃ boot node gic, handleGicv3 madt typer mpidrEl1 dt = .ok boot ∧
      boot.tree.nodes.getLast? = some node ∧ handle typer node = some gic ∧
      Numbers madt (initCpuMaps (cpuIter boot.tree)) ∧
      gic.redistributors = (madt.frames typer).map (redistributorAt typer) := by
  obtain ⟨base, hbase, hfind⟩ := h.distributor
  have hcount : (UInt32.ofNat (madt.frames typer).length).toNat = (madt.frames typer).length := by
    rw [h.length_frames]
    exact UInt32.toNat_ofNat_of_lt' madt.length_topologies_lt
  refine ⟨_, _, _, handleGicv3_eq_ok hbase hfind h.whole mpidrEl1 dt, getLast?_addRoot _ _ _ _,
    handle_eq_some rfl hcount rfl, ?_, rfl⟩
  rw [cpuIter_addRoot_gicV3, cpuIter_foldl_addCpu, hdt, List.nil_append]
  exact numbers_initCpuMaps madt

/-- Nothing but the order of the frames relates them to the processors. -/
theorem exists_drivesOwn_iff {dt : DeviceTree} (h : madt.OneFrameEach typer)
    (hdt : cpuIter dt = []) (mpidrEl1 : UInt64) :
    ∃ boot node gic, handleGicv3 madt typer mpidrEl1 dt = .ok boot ∧
      boot.tree.nodes.getLast? = some node ∧ handle typer node = some gic ∧
      Numbers madt (initCpuMaps (cpuIter boot.tree)) ∧
      (DrivesOwn madt gic ↔ madt.affinities typer = madt.topologies) := by
  obtain ⟨boot, node, gic, hboot, hnode, hhandle, hnumbers, hgic⟩ := h.exists_boot hdt mpidrEl1
  exact ⟨boot, node, gic, hboot, hnode, hhandle, hnumbers, drivesOwn_iff h.length_frames hgic⟩

def twoCpus : Madt :=
  ⟨[.gicd 0x8000000 3, .gicc 0 0, .gicc 1 1, .gicr 0x80A0000 0x40000], by decide⟩

/-- The frame of the first processor comes first. -/
def inOrder (frame : UInt64) : BitVec 64 :=
  if frame = 0x80A0000 then 0x000000000#64 else 0x100000010#64

/-- The frame of the second processor comes first. -/
def swapped (frame : UInt64) : BitVec 64 :=
  if frame = 0x80A0000 then 0x100000000#64 else 0x000000010#64

lemma oneFrameEach_inOrder : twoCpus.OneFrameEach inOrder :=
  ⟨⟨0x8000000, by decide, by decide⟩, by decide, by decide⟩

lemma oneFrameEach_swapped : twoCpus.OneFrameEach swapped :=
  ⟨⟨0x8000000, by decide, by decide⟩, by decide, by decide⟩

theorem exists_drivesOwn_inOrder : ∃ boot node gic, handleGicv3 twoCpus inOrder 0 {} = .ok boot ∧
    boot.tree.nodes.getLast? = some node ∧ handle inOrder node = some gic ∧
    DrivesOwn twoCpus gic := by
  obtain ⟨boot, node, gic, hboot, hnode, hhandle, -, hiff⟩ :=
    exists_drivesOwn_iff oneFrameEach_inOrder (show cpuIter {} = [] from rfl) 0
  exact ⟨boot, node, gic, hboot, hnode, hhandle, hiff.mpr (by decide)⟩

/-- Each of the two processors drives the redistributor of the other. -/
theorem exists_not_drivesOwn_swapped : twoCpus.mpidrs.Nodup ∧ twoCpus.OneFrameEach swapped ∧
    ∃ boot node gic, handleGicv3 twoCpus swapped 0 {} = .ok boot ∧
      boot.tree.nodes.getLast? = some node ∧ handle swapped node = some gic ∧
      ¬ DrivesOwn twoCpus gic := by
  have h := oneFrameEach_swapped
  obtain ⟨boot, node, gic, hboot, hnode, hhandle, -, hgic⟩ :=
    h.exists_boot (show cpuIter {} = [] from rfl) 0
  refine ⟨by decide, h, boot, node, gic, hboot, hnode, hhandle, ?_⟩
  rw [drivesOwn_iff h.length_frames hgic]
  decide

end Mars.Gic
