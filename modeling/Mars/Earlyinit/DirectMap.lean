import Mars.Earlyinit.HandOver
import Mars.Lib.Sweep
import Mars.Paging.Refinement

/-!
# Setting up the direct map

Embedding of `map_all_dmap` of `earlyinit/mem.rs`. The memory map is rounded outwards to pages of
16 KiB and joined. A sweep over these pages finds the descriptors that meet each page, and maps the
page with the parameters of one of them.
-/

namespace Mars.Earlyinit

open Function Lib.Intervals Lib.Merge Lib.Sweep Paging Pm Vm MemoryDescriptor

variable {AP SH X : Type}

/-! ### The code -/

/-- `MemoryAttribute::UNCACHEABLE` -/
def attrUncacheable : UInt64 := 0x1

def MemoryDescriptor.isUncacheable (d : MemoryDescriptor) : Bool :=
  d.att &&& attrUncacheable == attrUncacheable

/-- The loop that collects `ranges`. -/
def pageRanges (map : List MemoryDescriptor) : List Interval :=
  map.filterMap fun desc =>
    let start := alignDown desc.start
    let stop := alignUp desc.stop
    if start < stop then some ⟨start, stop⟩ else none

/-- The inner loop of the sort: swap the range at `j` down to its place. -/
def sinkRange (ranges : List Interval) : (j : Nat) → List Interval
  | 0     => ranges
  | j + 1 =>
    match ranges[j]?, ranges[j + 1]? with
    | some a, some b =>
      if a.start > b.start then sinkRange ((ranges.set j b).set (j + 1) a) j else ranges
    | _, _ => ranges

def sortRanges (ranges : List Interval) : List Interval :=
  (List.range' 1 (ranges.length - 1)).foldl sinkRange ranges

/-- One round of the loop that builds `merged`. -/
def mergeRange (merged : List Interval) (r : Interval) : List Interval :=
  match merged.getLast? with
  | some last =>
    if last.stop ≥ r.start then
      if r.stop > last.stop then merged.dropLast ++ [⟨last.start, r.stop⟩] else merged
    else merged ++ [r]
  | none => merged ++ [r]

/-- One round of the loop over `active`. -/
def optimalStep (optimal : Option MemoryDescriptor) (desc : MemoryDescriptor) :
    Option MemoryDescriptor :=
  match optimal with
  | none         => some desc
  | some current =>
    if desc.isUncacheable && !current.isUncacheable then some desc else some current

/-- The values of `current_pa`. -/
def pagesFrom (start stop : Nat) : List Nat :=
  (List.range ((stop - start + pageSize - 1) / pageSize)).map fun i => start + i * pageSize

structure DmapSweep (AP SH X : Type) where
  descs : List MemoryDescriptor
  active : List MemoryDescriptor
  heap : Heap AP SH X

section Code

variable [Inhabited AP] [Inhabited SH] (A : TableAllocator X) (root : UInt64)
  (getParams : MemoryDescriptor → Attributes AP SH)

/-- The call of `map_page` for the page at `currentPa`. -/
def mapDmapPage (h : Heap AP SH X) (currentPa : Nat) (desc : MemoryDescriptor) :
    Except Trap (Heap AP SH X) :=
  mapPage A identity h root (.ofNat currentPa) (.ofNat (physAddrToDmap currentPa)) (getParams desc)

/-- One round of the loop over the pages. -/
def DmapSweep.visit (s : DmapSweep AP SH X) (currentPa : Nat) :
    Except Trap (DmapSweep AP SH X) :=
  let pageEnd := currentPa + pageSize
  let (descs, active) :=
    advance start stop currentPa pageEnd s.descs s.active
  let active := active.filter fun desc => currentPa < desc.stop
  match active.foldl optimalStep none with
  | some desc => do
    let heap ← mapDmapPage A root getParams s.heap currentPa desc
    return { descs, active, heap }
  | none => return { descs, active, heap := s.heap }

def mapAllDmap (h : Heap AP SH X) (map : List MemoryDescriptor) :
    Except Trap (Heap AP SH X) := do
  let ranges := sortRanges (pageRanges map)
  let merged := ranges.foldl mergeRange []
  let s ← merged.foldlM
    (fun s r => (pagesFrom r.start r.stop).foldlM (DmapSweep.visit A root getParams) s)
    { descs := map, active := [], heap := h }
  return s.heap

end Code

/-! ### What is to be mapped -/

namespace MemoryDescriptor

def Meets (d : MemoryDescriptor) (page : Nat) : Prop :=
  ∃ x, d.range.Contains x ∧ page ≤ x ∧ x < page + pageSize

/-- The descriptor whose parameters a page should have. -/
structure Strictest (map : List MemoryDescriptor) (page : Nat) (d : MemoryDescriptor) : Prop where
  mem : d ∈ map
  meets : d.Meets page
  uncacheable : (∃ e ∈ map, e.Meets page ∧ e.isUncacheable) → d.isUncacheable
  first : (¬ ∃ e ∈ map, e.Meets page ∧ e.isUncacheable) →
    ∃ before after, map = before ++ d :: after ∧ ∀ e ∈ before, ¬ e.Meets page

end MemoryDescriptor

/-- Descriptors that are not empty, in the order of their starts, below `2 ^ 48`. They may
overlap. -/
structure DmapInput (map : List MemoryDescriptor) : Prop where
  nonempty : ∀ d ∈ map, 0 < d.pageCount.toNat
  below : ∀ d ∈ map, d.range.stop ≤ 2 ^ 48
  sorted : map.Pairwise fun d e => d.physStart ≤ e.physStart

section

variable {map : List MemoryDescriptor} {d : MemoryDescriptor} {page : Nat}

lemma DmapInput.stop_eq (h : DmapInput map) (hd : d ∈ map) : d.stop = d.range.stop := by
  have hbelow := h.below d hd
  have hstop : d.range.stop = d.start + d.pageCount.toNat * uefiPageSize := rfl
  have hsize : d.size = d.pageCount.toNat * uefiPageSize := Nat.mod_eq_of_lt (by omega)
  rw [stop, hsize, ← hstop]
  exact Nat.mod_eq_of_lt (by omega)

lemma DmapInput.start_lt_stop (h : DmapInput map) (hd : d ∈ map) : d.start < d.stop := by
  have hpos := h.nonempty d hd
  rw [h.stop_eq hd, show d.range.stop = d.start + d.pageCount.toNat * 4096 from rfl]
  omega

lemma DmapInput.meets_iff (h : DmapInput map) (hd : d ∈ map) :
    d.Meets page ↔ d.start < page + pageSize ∧ page < d.stop := by
  have hlt := h.start_lt_stop hd
  have hstop := h.stop_eq hd
  have hstart : d.range.start = d.start := rfl
  constructor
  · rintro ⟨x, ⟨hle, hx⟩, hpage, hpage'⟩
    omega
  · rintro ⟨hstart', hstop'⟩
    refine ⟨max d.start page, ⟨?_, ?_⟩, ?_, ?_⟩ <;> simp only [pageSize, pageShift] at * <;> omega

/-! ### The pages -/

/-- The map is sorted already, and then nothing is swapped. -/
lemma sinkRange_of_ordered {ranges : List Interval} (h : Ordered ranges) (j : Nat) :
    sinkRange ranges j = ranges := by
  cases j with
  | zero => rfl
  | succ j =>
    rw [sinkRange]
    split
    · rename_i a b ha hb
      obtain ⟨hj, rfl⟩ := List.getElem?_eq_some_iff.mp ha
      obtain ⟨hj', rfl⟩ := List.getElem?_eq_some_iff.mp hb
      have hle := List.pairwise_iff_getElem.mp h j (j + 1) hj hj' (Nat.lt_succ_self j)
      rw [if_neg (not_lt.mpr hle)]
    · rfl

lemma sortRanges_of_ordered {ranges : List Interval} (h : Ordered ranges) :
    sortRanges ranges = ranges := by
  have hfold (l : List Nat) : l.foldl sinkRange ranges = ranges := by
    induction l with
    | nil => rfl
    | cons j l ih => rw [List.foldl_cons, sinkRange_of_ordered h, ih]
  exact hfold _

/-- The loop over the ranges joins those that touch. -/
lemma foldl_mergeRange (out : List Interval) (last : Interval) (rs : List Interval) :
    rs.foldl mergeRange (out ++ [last]) = out ++ joinRuns touches hull (some last) rs := by
  induction rs generalizing out last with
  | nil => simp [joinRuns]
  | cons r rs ih =>
    rw [List.foldl_cons, mergeRange, joinRuns, List.getLast?_concat, List.dropLast_concat]
    dsimp only
    by_cases htouch : r.start ≤ last.stop
    · have hhull : (if r.stop > last.stop then out ++ [⟨last.start, r.stop⟩] else out ++ [last]) =
          out ++ [hull last r] := by
        rw [hull]
        split_ifs with hlt
        · rw [Nat.max_eq_right hlt.le]
        · rw [Nat.max_eq_left (not_lt.mp hlt)]
      rw [if_pos htouch, hhull, ih, if_pos (show touches last r = true from decide_eq_true htouch)]
    · rw [if_neg htouch, ih, if_neg (by simpa [touches] using htouch), List.append_assoc]
      rfl

lemma foldl_mergeRange_nil (rs : List Interval) :
    rs.foldl mergeRange [] = joinRuns touches hull none rs := by
  cases rs with
  | nil => rfl
  | cons r rs => exact foldl_mergeRange [] r rs

structure OfPages (I : Interval) : Prop where
  lt : I.start < I.stop
  start : I.start % pageSize = 0
  stop : I.stop % pageSize = 0

lemma OfPages.hull {I J : Interval} (hI : OfPages I) (hJ : OfPages J) : OfPages (hull I J) where
  lt := hI.lt.trans_le (Nat.le_max_left _ _)
  start := hI.start
  stop := by
    change max I.stop J.stop % pageSize = 0
    rcases Nat.le_total I.stop J.stop with hle | hle
    · rw [Nat.max_eq_right hle, hJ.stop]
    · rw [Nat.max_eq_left hle, hI.stop]

lemma OfPages.mem_pagesFrom {I : Interval} (h : OfPages I) :
    page ∈ pagesFrom I.start I.stop ↔ page % pageSize = 0 ∧ I.Contains page := by
  obtain ⟨hlt, hstart, hstop⟩ := h
  simp only [pagesFrom, List.mem_map, List.mem_range, Interval.Contains, pageSize, pageShift] at *
  constructor
  · rintro ⟨i, hi, rfl⟩
    omega
  · rintro ⟨hpage, hle, hlt⟩
    exact ⟨(page - I.start) / 2 ^ 14, by omega, by omega⟩

lemma pairwise_pagesFrom (start stop : Nat) :
    (pagesFrom start stop).Pairwise fun p q => p + pageSize ≤ q := by
  rw [pagesFrom, List.pairwise_map]
  refine List.pairwise_lt_range.imp fun {i j} hlt => ?_
  have hmul := Nat.mul_le_mul_right pageSize (Nat.succ_le_of_lt hlt)
  rw [Nat.succ_mul] at hmul
  omega

namespace DmapInput

variable (h : DmapInput map)

include h

lemma mem_pageRanges {I : Interval} : I ∈ pageRanges map ↔
    ∃ d ∈ map, I = ⟨d.start / 16384 * 16384, (d.stop + 16383) / 16384 * 16384⟩ := by
  have hrange (d : MemoryDescriptor) (hd : d ∈ map) :
      (if alignDown d.start < alignUp d.stop then
          some (⟨alignDown d.start, alignUp d.stop⟩ : Interval) else none) =
        some ⟨d.start / 16384 * 16384, (d.stop + 16383) / 16384 * 16384⟩ := by
    have hlt := h.start_lt_stop hd
    have hbelow := h.below d hd
    rw [← h.stop_eq hd] at hbelow
    rw [alignDown_eq (by omega), alignUp_eq (by omega), if_pos (by omega)]
  rw [pageRanges, List.mem_filterMap]
  constructor
  · rintro ⟨d, hd, hI⟩
    exact ⟨d, hd, Option.some.inj (hI.symm.trans (hrange d hd))⟩
  · rintro ⟨d, hd, rfl⟩
    exact ⟨d, hd, hrange d hd⟩

lemma ordered_pageRanges : Ordered (pageRanges map) := by
  rw [Ordered, pageRanges, List.pairwise_filterMap]
  refine h.sorted.imp fun {d e} hle I hI J hJ => ?_
  have hle := UInt64.le_iff_toNat_le.mp hle
  have hI := (Option.ite_none_right_eq_some.mp hI).2
  have hJ := (Option.ite_none_right_eq_some.mp hJ).2
  rw [← Option.some.inj hI, ← Option.some.inj hJ]
  have hd : alignDown d.start = _ := alignDown_eq d.physStart.toNat_lt
  have he : alignDown e.start = _ := alignDown_eq e.physStart.toNat_lt
  rw [hd, he]
  exact Nat.mul_le_mul_right _ (Nat.div_le_div_right hle)

lemma ofPages {I : Interval} (hI : I ∈ pageRanges map) : OfPages I := by
  obtain ⟨d, hd, rfl⟩ := h.mem_pageRanges.mp hI
  have hlt := h.start_lt_stop hd
  constructor <;> simp only [pageSize, pageShift] <;> omega

lemma ofPages_joinRuns : ∀ I ∈ joinRuns touches hull none (pageRanges map), OfPages I :=
  forall_mem_joinRuns (fun _ _ => OfPages.hull) fun _ => h.ofPages

lemma covers_pageRanges (hpage : page % pageSize = 0) :
    Covers (pageRanges map) page ↔ ∃ d ∈ map, d.Meets page := by
  constructor
  · rintro ⟨I, hI, hle, hlt⟩
    obtain ⟨d, hd, rfl⟩ := h.mem_pageRanges.mp hI
    refine ⟨d, hd, (h.meets_iff hd).mpr ?_⟩
    simp only [pageSize, pageShift] at *
    omega
  · rintro ⟨d, hd, hmeets⟩
    have hmeets := (h.meets_iff hd).mp hmeets
    refine ⟨_, h.mem_pageRanges.mpr ⟨d, hd, rfl⟩, ?_⟩
    simp only [pageSize, pageShift, Interval.Contains] at *
    omega

end DmapInput

def dmapPages (map : List MemoryDescriptor) : List Nat :=
  (joinRuns touches hull none (pageRanges map)).flatMap fun I => pagesFrom I.start I.stop

lemma DmapInput.mem_dmapPages (h : DmapInput map) :
    page ∈ dmapPages map ↔ page % pageSize = 0 ∧ ∃ d ∈ map, d.Meets page := by
  have hcovers : Covers (joinRuns touches hull none (pageRanges map)) page ↔
      Covers (pageRanges map) page := covers_joinRuns h.ordered_pageRanges page
  rw [dmapPages, List.mem_flatMap]
  constructor
  · rintro ⟨I, hI, hpage⟩
    obtain ⟨haligned, hcontains⟩ := (h.ofPages_joinRuns I hI).mem_pagesFrom.mp hpage
    exact ⟨haligned, (h.covers_pageRanges haligned).mp (hcovers.mp ⟨I, hI, hcontains⟩)⟩
  · rintro ⟨haligned, hmeets⟩
    obtain ⟨I, hI, hcontains⟩ := hcovers.mpr ((h.covers_pageRanges haligned).mpr hmeets)
    exact ⟨I, hI, (h.ofPages_joinRuns I hI).mem_pagesFrom.mpr ⟨haligned, hcontains⟩⟩

lemma DmapInput.pairwise_dmapPages (h : DmapInput map) :
    (dmapPages map).Pairwise fun p q => p + pageSize ≤ q := by
  rw [dmapPages, List.pairwise_flatMap]
  refine ⟨fun I _ => pairwise_pagesFrom _ _, ?_⟩
  refine (gapped_joinRuns h.ordered_pageRanges).imp_of_mem ?_
  intro I J hI hJ hgap p hp q hq
  obtain ⟨hp, -, hlt⟩ := (h.ofPages_joinRuns I hI).mem_pagesFrom.mp hp
  obtain ⟨-, hle, -⟩ := (h.ofPages_joinRuns J hJ).mem_pagesFrom.mp hq
  have hstop := (h.ofPages_joinRuns I hI).stop
  simp only [pageSize, pageShift] at *
  omega

/-! ### The choice of a descriptor -/

lemma foldl_optimalStep_some (l : List MemoryDescriptor) (current : MemoryDescriptor) :
    l.foldl optimalStep (some current) =
      if current.isUncacheable then some current
      else (l.find? isUncacheable).or (some current) := by
  induction l generalizing current with
  | nil => simp
  | cons d l ih =>
    rw [List.foldl_cons, optimalStep, List.find?_cons]
    cases hcurrent : current.isUncacheable <;> cases hd : d.isUncacheable <;>
      simp [ih, hcurrent, hd]

/-- The first one that is not cacheable, or else the first one. -/
lemma foldl_optimalStep (l : List MemoryDescriptor) :
    l.foldl optimalStep none = (l.find? isUncacheable).or l.head? := by
  cases l with
  | nil => rfl
  | cons d l =>
    rw [List.foldl_cons, optimalStep, foldl_optimalStep_some, List.find?_cons]
    cases hd : d.isUncacheable <;> simp

def meeting (map : List MemoryDescriptor) (page : Nat) : List MemoryDescriptor :=
  map.filter fun d => d.start < page + pageSize ∧ page < d.stop

lemma DmapInput.mem_meeting (h : DmapInput map) :
    d ∈ meeting map page ↔ d ∈ map ∧ d.Meets page := by
  rw [meeting, List.mem_filter, decide_eq_true_iff]
  exact and_congr_right fun hd => (h.meets_iff hd).symm

lemma DmapInput.strictest (h : DmapInput map)
    (hd : (meeting map page).foldl optimalStep none = some d) : d.Strictest map page := by
  rw [foldl_optimalStep] at hd
  cases hfind : (meeting map page).find? isUncacheable with
  | some e =>
    rw [hfind, Option.some_or, Option.some.injEq] at hd
    subst hd
    obtain ⟨hmem, hmeets⟩ := h.mem_meeting.mp (List.mem_of_find?_eq_some hfind)
    have hunc := List.find?_some hfind
    exact ⟨hmem, hmeets, fun _ => hunc, fun hnone => absurd ⟨e, hmem, hmeets, hunc⟩ hnone⟩
  | none =>
    rw [hfind, Option.none_or] at hd
    obtain ⟨hmem, hmeets⟩ := h.mem_meeting.mp (List.mem_of_mem_head? hd)
    refine ⟨hmem, hmeets, ?_, fun _ => ?_⟩
    · rintro ⟨e, he, hemeets, hunc⟩
      exact absurd hunc (List.find?_eq_none.mp hfind e (h.mem_meeting.mpr ⟨he, hemeets⟩))
    · rw [meeting, List.head?_filter, List.find?_eq_some_iff_append] at hd
      obtain ⟨-, before, after, hmap, hbefore⟩ := hd
      refine ⟨before, after, hmap, fun e he hmeets => ?_⟩
      have he' : e ∈ map := by
        rw [hmap]
        exact List.mem_append_left _ he
      have hnot := hbefore e he
      simp [(h.meets_iff he').mp hmeets] at hnot

lemma DmapInput.exists_optimal (h : DmapInput map) (hmeets : ∃ d ∈ map, d.Meets page) :
    ∃ d, (meeting map page).foldl optimalStep none = some d := by
  obtain ⟨e, he, hmeets⟩ := hmeets
  have hmem := h.mem_meeting.mpr ⟨he, hmeets⟩
  rw [foldl_optimalStep, ← Option.isSome_iff_exists, Option.isSome_or]
  cases hlist : meeting map page with
  | nil =>
    rw [hlist] at hmem
    cases hmem
  | cons d l => simp

/-! ### The sweep -/

/-- The calls of `map_page`, with the page and the descriptor. -/
def dmapCalls (map : List MemoryDescriptor) : List (Nat × MemoryDescriptor) :=
  (dmapPages map).filterMap fun page =>
    ((meeting map page).foldl optimalStep none).map (page, ·)

section Sweep

variable [Inhabited AP] [Inhabited SH] {A : TableAllocator X} {root : UInt64}
  {getParams : MemoryDescriptor → Attributes AP SH}

/-- One round keeps the descriptors in step, and calls `map_page` with the right one. -/
lemma DmapInput.visit (h : DmapInput map) {s : DmapSweep AP SH X}
    (hs : Swept start stop map page s.descs s.active) :
    ∃ descs active, (∀ page' ≥ page + pageSize,
        Swept start stop map page' descs active) ∧
      s.visit A root getParams page =
        match (meeting map page).foldl optimalStep none with
        | some d => do
          let heap ← mapDmapPage A root getParams s.heap page d
          return ⟨descs, active, heap⟩
        | none => return ⟨descs, active, s.heap⟩ := by
  cases hstep : advance start stop page (page + pageSize)
      s.descs s.active with
  | mk descs active =>
    obtain ⟨hactive, hnext⟩ := hs.advance h.sorted (Nat.le_add_right _ _) hstep
    refine ⟨descs, _, hnext, ?_⟩
    rw [DmapSweep.visit, hstep]
    dsimp only
    rw [hactive]
    rfl

/-- The sweep over any of the pages is the sequence of their calls. -/
lemma DmapInput.foldlM_visit (h : DmapInput map) (ps : List Nat)
    (hps : ps.Pairwise fun p q => p + pageSize ≤ q) {s : DmapSweep AP SH X}
    (hs : ∀ p ∈ ps, Swept start stop map p s.descs s.active) :
    (do let s ← ps.foldlM (DmapSweep.visit A root getParams) s; return s.heap) =
      (ps.filterMap fun page => ((meeting map page).foldl optimalStep none).map (page, ·)).foldlM
        (fun heap c => mapDmapPage A root getParams heap c.1 c.2) s.heap := by
  induction ps generalizing s with
  | nil => rfl
  | cons p ps ih =>
    obtain ⟨hp, hps⟩ := List.pairwise_cons.mp hps
    obtain ⟨descs, active, hnext, hvisit⟩ := h.visit (hs p (.head _))
    have hrest (heap : Heap AP SH X) := ih hps (s := ⟨descs, active, heap⟩)
      fun q hq => hnext q (hp q hq)
    rw [List.foldlM_cons, hvisit]
    cases hopt : (meeting map p).foldl optimalStep none with
    | none =>
      rw [List.filterMap_cons_none (by rw [hopt]; rfl)]
      exact hrest s.heap
    | some d =>
      rw [List.filterMap_cons_some (by rw [hopt]; rfl), List.foldlM_cons]
      dsimp only
      cases hmap : mapDmapPage A root getParams s.heap p d with
      | error e => rfl
      | ok heap => exact hrest heap

lemma foldlM_flatMap {α β σ : Type} (f : σ → β → Except Trap σ) (g : α → List β) (l : List α)
    (s : σ) : (l.flatMap g).foldlM f s = l.foldlM (fun s a => (g a).foldlM f s) s := by
  induction l generalizing s with
  | nil => rfl
  | cons a l ih =>
    rw [List.flatMap_cons, List.foldlM_append, List.foldlM_cons]
    exact bind_congr ih

lemma DmapInput.mapAllDmap_eq (h : DmapInput map) (heap : Heap AP SH X) :
    mapAllDmap A root getParams heap map = (dmapCalls map).foldlM
      (fun heap c => mapDmapPage A root getParams heap c.1 c.2) heap := by
  have hsweep : (do
      let s ← (dmapPages map).foldlM (DmapSweep.visit A root getParams) ⟨map, [], heap⟩
      return s.heap) = _ :=
    h.foldlM_visit (dmapPages map) h.pairwise_dmapPages fun _ _ => swept_init
  rw [mapAllDmap, sortRanges_of_ordered h.ordered_pageRanges, foldl_mergeRange_nil, dmapCalls,
    ← hsweep, dmapPages, foldlM_flatMap]

end Sweep

structure DmapCalls (map : List MemoryDescriptor) (calls : List (Nat × MemoryDescriptor)) :
    Prop where
  /-- The pages that are mapped are those that are described. -/
  mapped : ∀ page, (∃ d, (page, d) ∈ calls) ↔ page % pageSize = 0 ∧ ∃ d ∈ map, d.Meets page
  /-- Each of them is mapped once. -/
  once : (calls.map Prod.fst).Nodup
  strictest : ∀ c ∈ calls, c.2.Strictest map c.1

lemma mem_dmapCalls {c : Nat × MemoryDescriptor} : c ∈ dmapCalls map ↔
    c.1 ∈ dmapPages map ∧ (meeting map c.1).foldl optimalStep none = some c.2 := by
  rw [dmapCalls, List.mem_filterMap]
  constructor
  · rintro ⟨page, hpage, hc⟩
    obtain ⟨d, hd, rfl⟩ := Option.map_eq_some_iff.mp hc
    exact ⟨hpage, hd⟩
  · rintro ⟨hpage, hd⟩
    exact ⟨c.1, hpage, Option.map_eq_some_iff.mpr ⟨c.2, hd, rfl⟩⟩

lemma DmapInput.dmapCalls (h : DmapInput map) : DmapCalls map (dmapCalls map) where
  mapped page := by
    rw [← h.mem_dmapPages]
    constructor
    · rintro ⟨d, hd⟩
      exact (mem_dmapCalls.mp hd).1
    · intro hpage
      obtain ⟨d, hd⟩ := h.exists_optimal (h.mem_dmapPages.mp hpage).2
      exact ⟨d, mem_dmapCalls.mpr ⟨hpage, hd⟩⟩
  once := by
    rw [List.Nodup, List.pairwise_map, Earlyinit.dmapCalls, List.pairwise_filterMap]
    refine h.pairwise_dmapPages.imp fun {p q} hlt c hc c' hc' => ?_
    obtain ⟨_, _, rfl⟩ := Option.map_eq_some_iff.mp hc
    obtain ⟨_, _, rfl⟩ := Option.map_eq_some_iff.mp hc'
    have hpos : 0 < pageSize := by decide
    omega
  strictest c hc := h.strictest (mem_dmapCalls.mp hc).2

/-- The pages of the direct map are mapped once each, with the strictest attributes. -/
theorem DmapInput.mapAllDmap_calls (h : DmapInput map) : ∃ calls, DmapCalls map calls ∧
    ∀ {AP SH X : Type} [Inhabited AP] [Inhabited SH] (A : TableAllocator X) (root : UInt64)
      (getParams : MemoryDescriptor → Attributes AP SH) (heap : Heap AP SH X),
      mapAllDmap A root getParams heap map = calls.foldlM (fun heap c => mapPage A identity heap
        root (.ofNat c.1) (.ofNat (physAddrToDmap c.1)) (getParams c.2)) heap :=
  ⟨_, h.dmapCalls, fun _ _ _ heap => h.mapAllDmap_eq heap⟩

/-- Two descriptors of normal memory in one page, the second one not cacheable, and one behind a
gap. -/
def sharedMap : List MemoryDescriptor :=
  [⟨.conventional, 0x8000, 2, 0x8⟩, ⟨.other 11, 0xA000, 4, 0x1⟩, ⟨.conventional, 0x14000, 4, 0x8⟩]

theorem mapAllDmap_calls_sharedMap : DmapInput sharedMap ∧
    ∃ calls, DmapCalls sharedMap calls ∧
      mapAllDmap bumpAllocator 0x4000 (fun d => ⟨true, true, false, false, d.att⟩)
          (Heap.init 0x4000 0) sharedMap =
        calls.foldlM (fun heap c => mapPage bumpAllocator identity heap 0x4000 (.ofNat c.1)
          (.ofNat (physAddrToDmap c.1)) ⟨true, true, false, false, c.2.att⟩)
          (Heap.init 0x4000 0) := by
  have h : DmapInput sharedMap := by
    refine ⟨?_, ?_, ?_⟩ <;> decide
  obtain ⟨calls, hcalls, hrun⟩ := h.mapAllDmap_calls
  exact ⟨h, calls, hcalls, hrun _ _ _ _⟩

/-! ### The translation -/

section Translation

lemma foldl_update_of_ne {α κ ν : Type} [DecidableEq κ] {key : α → κ} (value : α → ν) {k : κ}
    {l : List α} (hk : ∀ a ∈ l, key a ≠ k) (f : κ → ν) :
    l.foldl (fun f a => update f (key a) (value a)) f k = f k := by
  induction l generalizing f with
  | nil => rfl
  | cons a l ih =>
    obtain ⟨ha, hl⟩ := List.forall_mem_cons.mp hk
    rw [List.foldl_cons, ih hl, update_of_ne ha.symm]

lemma foldl_update_of_mem {α κ ν : Type} [DecidableEq κ] {key : α → κ} (value : α → ν)
    {l : List α} (hl : l.Pairwise fun a b => key a ≠ key b) {a : α} (ha : a ∈ l) (f : κ → ν) :
    l.foldl (fun f a => update f (key a) (value a)) f (key a) = value a := by
  induction l generalizing f with
  | nil => cases ha
  | cons b l ih =>
    obtain ⟨hb, hl⟩ := List.pairwise_cons.mp hl
    rw [List.foldl_cons]
    rcases List.mem_cons.mp ha with rfl | ha
    · rw [foldl_update_of_ne value fun c hc => (hb c hc).symm, update_self]
    · exact ih hl ha _

def dmapPageNumber (page : Nat) : Nat := pageNumber (.ofNat (physAddrToDmap page))

lemma dmapPageNumber_eq (hpage : page < 2 ^ 48) : dmapPageNumber page = page / 2 ^ 14 := by
  rw [dmapPageNumber, pageNumber, physAddrToDmap_of_lt hpage, UInt64.toNat_ofNat', dmapStart]
  omega

variable [Inhabited AP] [Inhabited SH] {A : TableAllocator X} {S : AllocatorSpec A identity}
  {root : UInt64} {getParams : MemoryDescriptor → Attributes AP SH} {heap : Heap AP SH X}
  {Φ : Translation AP SH}

lemma represents_mapDmapPages (hR : Represents S root heap Φ)
    (calls : List (Nat × MemoryDescriptor)) :
    Gives A (calls.foldlM (fun heap c => mapDmapPage A root getParams heap c.1 c.2) heap)
      fun heap' => Represents S root heap' (calls.foldl (fun Φ c =>
        update Φ (dmapPageNumber c.1) (some ⟨.ofNat c.1, getParams c.2⟩)) Φ) := by
  induction calls generalizing heap Φ with
  | nil => exact hR
  | cons c calls ih =>
    rw [List.foldlM_cons]
    exact (hR.mapPage _ _ _).bind fun heap' hR' => ih hR'

lemma DmapInput.lt_of_meets (h : DmapInput map) (hmeets : ∃ d ∈ map, d.Meets page) :
    page < 2 ^ 48 := by
  obtain ⟨d, hd, x, ⟨-, hlt⟩, hle, -⟩ := hmeets
  have hbelow := h.below d hd
  omega

lemma DmapInput.pairwise_dmapPageNumber (h : DmapInput map) :
    (Earlyinit.dmapCalls map).Pairwise fun c c' => dmapPageNumber c.1 ≠ dmapPageNumber c'.1 := by
  have hcalls := h.dmapCalls
  refine (List.pairwise_map.mp hcalls.once).imp_of_mem fun {c c'} hc hc' hne => ?_
  obtain ⟨haligned, hmeets⟩ := (hcalls.mapped c.1).mp ⟨c.2, hc⟩
  obtain ⟨haligned', hmeets'⟩ := (hcalls.mapped c'.1).mp ⟨c'.2, hc'⟩
  rw [dmapPageNumber_eq (h.lt_of_meets hmeets), dmapPageNumber_eq (h.lt_of_meets hmeets')]
  simp only [pageSize, pageShift] at haligned haligned'
  omega

/-- The hardware finds every described page at its address in the direct map, with the strictest
attributes, and everything else as it was. -/
theorem DmapInput.walk_mapAllDmap (h : DmapInput map) (hR : Represents S root heap Φ) :
    Gives A (mapAllDmap A root getParams heap map) fun heap' =>
      (∀ page, page % pageSize = 0 → (∃ d ∈ map, d.Meets page) →
        ∃ d, d.Strictest map page ∧
          heap'.walk identity root (.ofNat (physAddrToDmap page)) =
            some ⟨.ofNat page, getParams d⟩) ∧
      ∀ va, (∀ page, page % pageSize = 0 → (∃ d ∈ map, d.Meets page) →
          pageNumber va ≠ dmapPageNumber page) →
        heap'.walk identity root va = heap.walk identity root va := by
  have hcalls := h.dmapCalls
  have hwalk {heap : Heap AP SH X} {Φ : Translation AP SH} (hR : Represents S root heap Φ)
      (va : UInt64) : heap.walk identity root va = Φ (pageNumber va) := by
    rw [hR.inv.walk_eq, hR.entry]
  rw [h.mapAllDmap_eq]
  refine (represents_mapDmapPages hR (Earlyinit.dmapCalls map)).mono fun heap' hR' => ⟨?_, ?_⟩
  · intro page haligned hmeets
    obtain ⟨d, hd⟩ := (hcalls.mapped page).mpr ⟨haligned, hmeets⟩
    refine ⟨d, hcalls.strictest _ hd, ?_⟩
    rw [hwalk hR']
    exact foldl_update_of_mem (fun c : Nat × MemoryDescriptor =>
      (some ⟨.ofNat c.1, getParams c.2⟩ : Option (Mapping AP SH))) h.pairwise_dmapPageNumber hd Φ
  · intro va hva
    rw [hwalk hR', hwalk hR]
    refine foldl_update_of_ne _ (fun c hc => ?_) Φ
    obtain ⟨haligned, hmeets⟩ := (hcalls.mapped c.1).mp ⟨c.2, hc⟩
    exact (hva c.1 haligned hmeets).symm

/-- In an empty tree, the page that two descriptors share is mapped as one of them says. -/
theorem walk_mapAllDmap_sharedMap : ∃ heap : Heap Bool Bool Nat,
    Gives bumpAllocator (mapAllDmap bumpAllocator 0x4000
      (fun d => ⟨true, true, false, false, d.att⟩) heap sharedMap) fun heap' =>
        ∃ d : MemoryDescriptor, d.Strictest sharedMap 0x8000 ∧
          heap'.walk identity 0x4000 (.ofNat (physAddrToDmap 0x8000)) =
            some ⟨.ofNat 0x8000, ⟨true, true, false, false, d.att⟩⟩ := by
  have h : DmapInput sharedMap := by
    refine ⟨?_, ?_, ?_⟩ <;> decide
  have hroot : bumpSpec.live 0 0x4000 := Nat.le_refl _
  obtain ⟨heap, hR⟩ : ∃ heap : Heap Bool Bool Nat, Represents bumpSpec 0x4000 heap fun _ => none :=
    ⟨_, represents_init hroot⟩
  refine ⟨heap, (h.walk_mapAllDmap hR).mono fun heap' hwalk => ?_⟩
  exact hwalk.1 0x8000 (by decide) ⟨_, .head _, 0x8000, ⟨by decide, by decide⟩, by decide⟩

end Translation

end

end Mars.Earlyinit
