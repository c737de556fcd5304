import Mars.Pm.Simulation

/-!
# Runs after the transition

After the transition the allocator goes on in the direct map: more ranges are added at their images,
blocks are allocated and freed, and the clients write to the blocks they hold. A range is recorded
with its physical addresses and a block with its address in the direct map.
-/

namespace Mars.Pm

open Lib Lib.Bits Lib.DList Lib.Ownership Vm State

def Allocation.toDmap (a : Allocation) : Allocation := ⟨Pm.toDmap a.addr, a.order⟩

inductive ReachDmap : List Region → List Allocation → State → Prop
  | transition {R : List Region} {A : List Allocation} {s t : State} {debug : Bool} {fuel : Nat}
      (h : Reach R A s) (hlow : ∀ r ∈ R, r.stop ≤ 2 ^ 48)
      (ht : s.transitionDmap debug fuel = .ok t) : ReachDmap R (A.map Allocation.toDmap) t
  | addRange {R : List Region} {A : List Allocation} {s s' : State} {debug : Bool}
      {fuel start stop : Nat} (h : ReachDmap R A s) (hlt : stop < 2 ^ 48)
      (hd : ∀ r ∈ R, stop ≤ r.start ∨ r.stop ≤ start)
      (hs : s.addRange debug fuel (start + dmapStart) (stop + dmapStart) = .ok s') :
      ReachDmap (⟨start, stop⟩ :: R) A s'
  | alloc {R : List Region} {A : List Allocation} {s : State} (order : Nat)
      (h : ReachDmap R A s) :
      ReachDmap R (granted (s.allocPages order).1 order A) (s.allocPages order).2
  | free {R : List Region} {A : List Allocation} {s s' : State} {debug : Bool} {fuel : Nat}
      {a : Allocation} (h : ReachDmap R A s) (ha : a ∈ A)
      (hs : s.freePages debug fuel a.addr = .ok s') : ReachDmap R (A.erase a) s'
  | write {R : List Region} {A : List Allocation} {s : State} {m : Mem} (h : ReachDmap R A s)
      (hm : ∀ x, s.mem x ≠ m x → (∃ a ∈ A, x ∈ a.bytes) ∨
        ∀ r ∈ R, dmapAddrToPhys x < r.start ∨ r.stop ≤ dmapAddrToPhys x) :
      ReachDmap R A { s with mem := m }

/-- The state has a layout, whose zones are in the ranges. -/
structure Managed (R : List Region) (A : List Allocation) (s : State) (L : Layout) : Prop where
  inv : s.Inv L
  full : L.Full
  records : Records A L
  inside : ∀ z ∈ L.zones, ∃ r ∈ R, ∀ x ∈ z.bytes,
    r.start ≤ dmapAddrToPhys x ∧ dmapAddrToPhys x < r.stop
  isDmap : s.isDmap = true

/-! ### The transition with any fuel -/

section Fuel

variable {m M : Mem}

lemma transitionZones_mono {fuel : Nat} (k : Nat) : ∀ {m : Mem} {ptr : Nat},
    transitionZones fuel m ptr = .ok M → transitionZones (fuel + k) m ptr = .ok M := by
  induction fuel with
  | zero =>
    intro m ptr h
    cases h
  | succ fuel ih =>
    intro m ptr h
    rw [add_right_comm]
    rw [transitionZones] at h ⊢
    split at h
    · rename_i hzero
      rw [if_pos hzero]
      exact h
    · rename_i hzero
      rw [if_neg hzero]
      exact ih h

lemma transitionBlocks_mono {fuel : Nat} (k : Nat) : ∀ {m : Mem} {ptr : Nat},
    transitionBlocks fuel m ptr = .ok M → transitionBlocks (fuel + k) m ptr = .ok M := by
  induction fuel with
  | zero =>
    intro m ptr h
    cases h
  | succ fuel ih =>
    intro m ptr h
    rw [add_right_comm]
    rw [transitionBlocks] at h ⊢
    split at h
    · rename_i hzero
      rw [if_pos hzero]
      exact h
    · rename_i hzero
      rw [if_neg hzero]
      exact ih h

namespace State

variable {s t : State} {fuel : Nat}

lemma transitionArea_mono (k : Nat) {order : Nat} (h : transitionArea fuel s order = .ok t) :
    transitionArea (fuel + k) s order = .ok t := by
  unfold transitionArea at h ⊢
  cases hM : transitionBlocks fuel s.mem (s.freeArea order) with
  | error e =>
    rw [hM] at h
    cases h
  | ok M =>
    rw [hM] at h
    rw [transitionBlocks_mono k hM]
    exact h

lemma transitionAreas_mono (k n : Nat) : ∀ {s : State}, transitionAreas fuel n s = .ok t →
    transitionAreas (fuel + k) n s = .ok t := by
  induction n with
  | zero => exact fun h => h
  | succ n ih =>
    intro s h
    rw [transitionAreas] at h ⊢
    cases hr : transitionArea fuel s (maxOrder - (n + 1)) with
    | error e =>
      rw [hr] at h
      cases h
    | ok r =>
      rw [hr] at h
      rw [transitionArea_mono k hr]
      exact ih h

lemma transitionDmap_mono (k : Nat) {debug : Bool} (h : s.transitionDmap debug fuel = .ok t) :
    s.transitionDmap debug (fuel + k) = .ok t := by
  unfold transitionDmap at h ⊢
  split at h
  · cases h
  · rename_i hdmap
    rw [if_neg hdmap]
    cases hM : transitionZones fuel (atDmap s.mem) s.zoneHead with
    | error e =>
      rw [hM] at h
      cases h
    | ok M =>
      rw [hM] at h
      rw [transitionZones_mono k hM]
      simp only [bind, Except.bind] at h ⊢
      split at h
      · cases h
      · rename_i r hr
        rw [transitionAreas_mono k maxOrder hr]
        exact h

end State

end Fuel

/-! ### The steps of a run -/

namespace Managed

variable {R : List Region} {A : List Allocation} {s s' t : State} {L : Layout} {m : Mem}

/-- The record of the blocks moves with the layout. -/
lemma records_toDmap (h : Tracks R A s L) (hlow : ∀ z ∈ L.zones, z.stop ≤ 2 ^ 48) :
    Records (A.map Allocation.toDmap) L.toDmap := by
  have haddr : ∀ {a : Allocation} {p : Nat}, a.addr = p * pageSize → L.Live p a.order →
      a.toDmap = ⟨(p + dmapPages) * pageSize, a.order⟩ := by
    intro a p hp hlive
    obtain ⟨z, hz, hfits⟩ := h.inv.fits p _ hlive
    have hpage := hfits.hasPage (Block.start_mem_span _)
    have hne := Nat.ne_of_gt (h.inv.page_bounds hz hpage).1
    have hlt : p * pageSize < 2 ^ 48 :=
      (Nat.mul_lt_mul_of_pos_right hpage.2 (by decide)).trans_le (hlow z hz)
    rw [Allocation.toDmap, hp, toDmap_of_lt hne hlt, add_mul, dmapPages_mul]
  constructor
  · refine List.Nodup.map_on ?_ h.nodup
    rintro ⟨addr, order⟩ ha ⟨addr', order'⟩ ha' heq
    obtain ⟨p, hp, hlive⟩ := (h.live _).1 ha
    obtain ⟨p', hp', hlive'⟩ := (h.live _).1 ha'
    rw [haddr hp hlive, haddr hp' hlive', Allocation.mk.injEq] at heq
    obtain rfl := Nat.add_right_cancel (eq_of_mul_pageSize heq.1)
    rw [Allocation.mk.injEq]
    exact ⟨hp.trans hp'.symm, heq.2⟩
  · intro c
    rw [List.mem_map]
    constructor
    · rintro ⟨a, ha, rfl⟩
      obtain ⟨p, hp, hlive⟩ := (h.live a).1 ha
      rw [haddr hp hlive]
      exact ⟨p + dmapPages, rfl, Layout.owner_shift_add_iff (b := ⟨p, a.order, false⟩) |>.2 hlive⟩
    · rintro ⟨p, hp, hlive⟩
      obtain ⟨q, ⟨start, order, free⟩, rfl, hb, hc⟩ := Layout.owner_shift_eq_some hlive
      rw [Block.shift_mk, Block.mk.injEq] at hb
      obtain ⟨hstart, horder, rfl⟩ := hb
      obtain rfl := Nat.add_right_cancel hstart
      have hlive' : L.Live q order := hc
      refine ⟨⟨q * pageSize, order⟩, (h.live _).2 ⟨q, rfl, hlive'⟩, ?_⟩
      rw [haddr rfl hlive', ← hp, ← horder]

lemma of_moved (h : Tracks R A s L) (hmoved : State.Moved s L t)
    (hlow : ∀ z ∈ L.zones, z.stop ≤ 2 ^ 48) :
    Managed R (A.map Allocation.toDmap) t L.toDmap where
  inv := h.inv.toDmap hmoved hlow
  full := Layout.shift_full movesPages_toDmap h.full
  records := records_toDmap h hlow
  inside := by
    intro y hy
    obtain ⟨z, hz, rfl⟩ := List.mem_map.1 hy
    refine ⟨z.region, h.region_mem hz, fun x hx => ?_⟩
    have hphys := Zone.phys_mem_bytes (h.inv.wf z hz) (hlow z hz) hx
    exact Zone.bytes_subset (h.inv.wf z hz) hphys
  isDmap := hmoved.isDmap

lemma addRange (h : Managed R A s L) {debug : Bool} {fuel start stop : Nat} (hlt : stop < 2 ^ 48)
    (hd : ∀ r ∈ R, stop ≤ r.start ∨ r.stop ≤ start)
    (hs : s.addRange debug fuel (start + dmapStart) (stop + dmapStart) = .ok s') :
    ∃ z, z.metaArray = start + dmapStart ∧ z.stop = stop + dmapStart ∧ z.Sized ∧
      (L.addZone z).zones = z :: L.zones ∧ Managed (⟨start, stop⟩ :: R) A s' (L.addZone z) := by
  have hphys : ∀ x, start + dmapStart ≤ x → x < stop + dmapStart →
      start ≤ dmapAddrToPhys x ∧ dmapAddrToPhys x < stop := by
    intro x hle hlt'
    obtain ⟨y, rfl⟩ := Nat.exists_eq_add_of_le' ((Nat.le_add_left _ _).trans hle)
    rw [dmapAddrToPhys_add (by omega)]
    omega
  have hapart : ∀ z ∈ L.zones, ∀ x ∈ z.bytes, x < start + dmapStart ∨ stop + dmapStart ≤ x := by
    intro z hz x hx
    obtain ⟨r, hr, hin⟩ := h.inside z hz
    by_contra hnot
    have hx' := hphys x (by omega) (by omega)
    have hx'' := hin x hx
    have := hd r hr
    omega
  have hstop : stop + dmapStart < 2 ^ 64 := by
    rw [dmapStart_eq]
    omega
  obtain ⟨z, hmeta, hend, hadded⟩ := h.inv.addRange h.full hs hstop hapart
  have hwf : z.Wf := hadded.inv.wf z (by rw [hadded.zones]; exact List.mem_cons_self)
  refine ⟨z, hmeta, hend, hadded.sized, hadded.zones, hadded.inv, hadded.full,
    h.records.addZone hadded, ?_, ?_⟩
  · rw [hadded.zones]
    refine List.forall_mem_cons.2 ⟨⟨_, (.head _), fun x hx => ?_⟩, fun y hy => ?_⟩
    · obtain ⟨hle, hlt'⟩ := Zone.bytes_subset hwf hx
      exact hphys x (hmeta ▸ hle) (hend ▸ hlt')
    · obtain ⟨r, hr, hin⟩ := h.inside y hy
      exact ⟨r, List.mem_cons_of_mem _ hr, hin⟩
  · exact (addRange_isDmap hs).trans h.isDmap

lemma alloc (h : Managed R A s L) (order : Nat) :
    ∃ L', L'.zones = L.zones ∧
      Managed R (granted (s.allocPages order).1 order A) (s.allocPages order).2 L' := by
  have hdmap := (sameFixed_allocPages s order).isDmap.trans h.isDmap
  rcases h.inv.allocPages h.full order with ⟨-, hs⟩ | ⟨p, L', s', -, hs, hal⟩
  · rw [hs, granted, if_pos rfl]
    exact ⟨L, rfl, h⟩
  · obtain ⟨z, hz, hfits⟩ := hal.fits
    have hne := Nat.ne_of_gt (h.inv.page_bounds hz (hfits.hasPage (Block.start_mem_span _))).1
    rw [hs] at hdmap ⊢
    rw [granted, if_neg hne]
    refine ⟨L', hal.zones, hal.inv, hal.full, h.records.alloc hal, ?_, hdmap⟩
    rw [hal.zones]
    exact h.inside

lemma free (h : Managed R A s L) {debug : Bool} {fuel : Nat} {a : Allocation} (ha : a ∈ A)
    (hs : s.freePages debug fuel a.addr = .ok s') :
    ∃ L', L'.zones = L.zones ∧ Managed R (A.erase a) s' L' := by
  obtain ⟨z, hz, i, hi, haddr, hlive⟩ := h.records.exists_zone h.inv ha
  have hpage : z.HasPage (z.first + i) := ⟨by omega, by omega⟩
  have hfuel : L.zones.length < fuel + (L.zones.length + 1) := by omega
  have hmono := freePages_mono (by simp) (L.zones.length + 1) (freePages_release hs)
  rw [haddr] at hmono
  have hstop : z.stop < 2 ^ 64 := by
    refine lt_of_le_of_ne (h.inv.wf z hz).le fun hwrap => ?_
    rw [State.freePages, if_neg (Nat.ne_of_gt (h.inv.page_bounds hz hpage).1),
      h.inv.freeFrom_wrapped hz hwrap hpage hfuel] at hmono
    cases hmono
  obtain ⟨s'', hs'', hfreed⟩ := h.inv.freePages h.full hz hi hstop hlive (.release _) hfuel
  rw [hmono] at hs''
  cases hs''
  have hrecords := h.records.free hfreed
  rw [← haddr] at hrecords
  refine ⟨_, hfreed.zones, hfreed.inv, hfreed.full, hrecords, ?_,
    (sameFixed_freePages hs).isDmap.trans h.isDmap⟩
  rw [hfreed.zones]
  exact h.inside

lemma write (h : Managed R A s L)
    (hm : ∀ x, s.mem x ≠ m x → (∃ a ∈ A, x ∈ a.bytes) ∨
      ∀ r ∈ R, dmapAddrToPhys x < r.start ∨ r.stop ≤ dmapAddrToPhys x) :
    Managed R A { s with mem := m } L := by
  refine { h with inv := h.records.inv_write h.inv fun z hz x hx hne => ?_ }
  refine (hm x hne).resolve_right fun hout => ?_
  obtain ⟨r, hr, hin⟩ := h.inside z hz
  have := hin x hx
  have := hout r hr
  omega

end Managed

/-! ### The least address

`min_address` is kept up to date by `add_range` and moved by `transition_dmap`, and is exact.
-/

/-- The least start of the data pages, or 0 if there is no zone. -/
def IsLowest (zs : List Zone) (a : Nat) : Prop :=
  (zs = [] ∧ a = 0) ∨ ((∃ z ∈ zs, z.dataBase = a) ∧ ∀ z ∈ zs, a ≤ z.dataBase)

section Lowest

variable {zs : List Zone} {z : Zone} {a : Nat} {R : List Region} {A : List Allocation} {s : State}

lemma Zone.Wf.dataBase_pos (hz : z.Wf) : 0 < z.dataBase := by
  have hheader := hz.header
  rw [zoneSize] at hheader
  omega

/-- As `add_range` does it: 0 stands for no zone. -/
lemma IsLowest.cons (h : IsLowest zs a) (hwf : ∀ z ∈ zs, z.Wf) :
    IsLowest (z :: zs) (if a = 0 ∨ z.dataBase < a then z.dataBase else a) := by
  rcases h with ⟨rfl, rfl⟩ | ⟨⟨y, hy, hya⟩, hle⟩
  · rw [if_pos (.inl rfl)]
    exact .inr ⟨⟨z, (.head _), rfl⟩, by simp⟩
  · have hpos := (hwf y hy).dataBase_pos
    right
    by_cases hlt : z.dataBase < a
    · rw [if_pos (.inr hlt)]
      refine ⟨⟨z, (.head _), rfl⟩, List.forall_mem_cons.2 ⟨Nat.le_refl _, ?_⟩⟩
      exact fun x hx => hlt.le.trans (hle x hx)
    · rw [if_neg (by omega)]
      exact ⟨⟨y, List.mem_cons_of_mem _ hy, hya⟩, List.forall_mem_cons.2 ⟨by omega, hle⟩⟩

lemma IsLowest.toDmap (h : IsLowest zs a) (hwf : ∀ z ∈ zs, z.Wf)
    (hlow : ∀ z ∈ zs, z.stop ≤ 2 ^ 48) : IsLowest (zs.map Zone.toDmap) (Pm.toDmap a) := by
  rcases h with ⟨rfl, rfl⟩ | ⟨⟨y, hy, rfl⟩, hle⟩
  · exact .inl ⟨rfl, rfl⟩
  · obtain ⟨-, -, -, hlt⟩ := (hwf y hy).low (hlow y hy)
    rw [toDmap_of_lt (Nat.ne_of_gt (hwf y hy).dataBase_pos) hlt]
    refine .inr ⟨⟨y.toDmap, List.mem_map_of_mem hy, y.toDmap_dataBase⟩, ?_⟩
    intro x hx
    obtain ⟨z, hz, rfl⟩ := List.mem_map.1 hx
    rw [z.toDmap_dataBase]
    exact Nat.add_le_add_right (hle z hz) _

lemma Reach.isLowest (h : Reach R A s) : ∀ {L : Layout}, Tracks R A s L →
    IsLowest L.zones s.lowestAddress := by
  induction h with
  | new m =>
    intro L hL
    exact .inl ⟨List.map_eq_nil_iff.1 hL.regions, rfl⟩
  | addRange h _ _ hs ih =>
    intro L' hL'
    obtain ⟨L, hL⟩ := h.exists_layout
    have hregions := hL'.regions
    rw [← hL.regions, List.map_eq_cons_iff] at hregions
    obtain ⟨z, zs, hzones, hz, hzs⟩ := hregions
    have hsized := hL'.sized
    rw [hzones, List.forall_mem_cons] at hsized
    rw [Zone.region, Region.mk.injEq] at hz
    rw [hzones, eq_of_regions hsized.2 hL.sized hzs, addRange_lowestAddress hs hsized.1 hz.1 hz.2]
    exact (ih hL).cons hL.inv.wf
  | alloc order h ih =>
    intro L' hL'
    obtain ⟨L, hL⟩ := h.exists_layout
    rw [hL'.zones_eq hL, (sameFixed_allocPages _ order).lowestAddress]
    exact ih hL
  | free h _ hs ih =>
    intro L' hL'
    obtain ⟨L, hL⟩ := h.exists_layout
    rw [hL'.zones_eq hL, (sameFixed_freePages hs).lowestAddress]
    exact ih hL
  | write h _ ih =>
    intro L' hL'
    obtain ⟨L, hL⟩ := h.exists_layout
    rw [hL'.zones_eq hL]
    exact ih hL

end Lowest

/-! ### Whole runs -/

/-- A layout after the transition, with the least address and the ends of the zones. -/
structure Spans (R : List Region) (A : List Allocation) (s : State) (L : Layout) : Prop where
  managed : Managed R A s L
  lowest : IsLowest L.zones s.lowestAddress
  inDmap : ∀ z ∈ L.zones, dmapStart ≤ z.dataBase
  stops : L.zones.map Zone.stop = R.map fun r => r.stop + dmapStart

namespace Spans

variable {R : List Region} {A : List Allocation} {s s' : State} {L : Layout}

lemma of_moved {t : State} (h : Tracks R A s L) (hmoved : State.Moved s L t)
    (hlow : ∀ z ∈ L.zones, z.stop ≤ 2 ^ 48) (hlowest : IsLowest L.zones s.lowestAddress) :
    Spans R (A.map Allocation.toDmap) t L.toDmap where
  managed := Managed.of_moved h hmoved hlow
  lowest := by
    rw [hmoved.lowestAddress]
    exact hlowest.toDmap h.inv.wf hlow
  inDmap := by
    intro x hx
    obtain ⟨z, hz, rfl⟩ := List.mem_map.1 hx
    rw [z.toDmap_dataBase]
    exact Nat.le_add_left _ _
  stops := by
    change (L.zones.map Zone.toDmap).map Zone.stop = _
    rw [← h.regions, List.map_map, List.map_map]
    refine List.map_congr_left fun z _ => ?_
    rw [Function.comp_apply, Function.comp_apply, z.toDmap_stop]
    exact congrArg (· + dmapStart) (show z.stop = z.region.stop from rfl)

lemma alloc (h : Spans R A s L) (order : Nat) : ∃ L', L'.zones = L.zones ∧
    Spans R (granted (s.allocPages order).1 order A) (s.allocPages order).2 L' := by
  obtain ⟨L', hzones, hL'⟩ := h.managed.alloc order
  refine ⟨L', hzones, hL', ?_, ?_, ?_⟩ <;> rw [hzones]
  · rw [(sameFixed_allocPages s order).lowestAddress]
    exact h.lowest
  · exact h.inDmap
  · exact h.stops

lemma free (h : Spans R A s L) {debug : Bool} {fuel : Nat} {a : Allocation} (ha : a ∈ A)
    (hs : s.freePages debug fuel a.addr = .ok s') :
    ∃ L', L'.zones = L.zones ∧ Spans R (A.erase a) s' L' := by
  obtain ⟨L', hzones, hL'⟩ := h.managed.free ha hs
  refine ⟨L', hzones, hL', ?_, ?_, ?_⟩ <;> rw [hzones]
  · rw [(sameFixed_freePages hs).lowestAddress]
    exact h.lowest
  · exact h.inDmap
  · exact h.stops

lemma write (h : Spans R A s L) {m : Mem}
    (hm : ∀ x, s.mem x ≠ m x → (∃ a ∈ A, x ∈ a.bytes) ∨
      ∀ r ∈ R, dmapAddrToPhys x < r.start ∨ r.stop ≤ dmapAddrToPhys x) :
    Spans R A { s with mem := m } L :=
  ⟨h.managed.write hm, h.lowest, h.inDmap, h.stops⟩

end Spans

lemma ReachDmap.exists_spans {R : List Region} {A : List Allocation} {s : State}
    (h : ReachDmap R A s) : ∃ L, Spans R A s L := by
  induction h with
  | @transition R A s t debug fuel h hlow ht =>
    obtain ⟨L, n, hL, hn⟩ := h.transition hlow debug
    obtain ⟨-, t', ht', hmoved⟩ := hn (fuel + n) (Nat.le_add_left _ _)
    rw [transitionDmap_mono n ht] at ht'
    cases ht'
    have hlow' : ∀ z ∈ L.zones, z.stop ≤ 2 ^ 48 := fun z hz => hlow _ (hL.region_mem hz)
    exact ⟨L.toDmap, .of_moved hL hmoved hlow' (h.isLowest hL)⟩
  | addRange _ hlt hd hs ih =>
    obtain ⟨L, hL⟩ := ih
    obtain ⟨z, hmeta, hstop, hsized, hzones, hz⟩ := hL.managed.addRange hlt hd hs
    have hwf : z.Wf := hz.inv.wf z (by rw [hzones]; exact List.mem_cons_self)
    refine ⟨_, hz, ?_, ?_, ?_⟩ <;> rw [hzones]
    · rw [addRange_lowestAddress hs hsized hmeta hstop]
      exact hL.lowest.cons hL.managed.inv.wf
    · refine List.forall_mem_cons.2 ⟨?_, hL.inDmap⟩
      have hle := Zone.metaArray_le_dataBase hwf
      omega
    · rw [List.map_cons, List.map_cons, hL.stops, hstop]
  | alloc order _ ih =>
    obtain ⟨L, hL⟩ := ih
    obtain ⟨L', -, hL'⟩ := hL.alloc order
    exact ⟨L', hL'⟩
  | free _ ha hs ih =>
    obtain ⟨L, hL⟩ := ih
    obtain ⟨L', -, hL'⟩ := hL.free ha hs
    exact ⟨L', hL'⟩
  | write _ hm ih =>
    obtain ⟨L, hL⟩ := ih
    exact ⟨L, hL.write hm⟩

lemma ReachDmap.exists_layout {R : List Region} {A : List Allocation} {s : State}
    (h : ReachDmap R A s) : ∃ L, Managed R A s L :=
  h.exists_spans.imp fun _ hL => hL.managed

/-- After the transition, too, no byte is handed out twice: a block in use has none in common with
another one, with a free block or with what the allocator reserves, and its bytes are in the ranges
that were added. -/
theorem ReachDmap.blocks_apart {R : List Region} {A : List Allocation} {s : State}
    (h : ReachDmap R A s) : A.Pairwise (fun a c => Disjoint a.bytes c.bytes) ∧
    ∃ (zs : List Zone) (ls : Nat → List Nat), ZoneChain s.mem s.zoneHead zs ∧
      (∀ o < maxOrder, IsList s.mem (s.freeArea o) (ls o)) ∧ ∀ a ∈ A, ∀ x ∈ a.bytes,
        (∀ z ∈ zs, x ∉ z.reserved) ∧ (∀ o, ∀ f ∈ ls o, x < f ∨ f + 2 ^ o * pageSize ≤ x) ∧
        ∃ r ∈ R, r.start ≤ dmapAddrToPhys x ∧ dmapAddrToPhys x < r.stop := by
  obtain ⟨L, hL⟩ := h.exists_layout
  refine ⟨hL.records.nodup.imp_of_mem fun {a c} ha hc hne => ?_, L.zones, L.lists, hL.inv.chain,
    hL.inv.lists, fun a ha x hx => ?_⟩
  · refine Set.disjoint_left.2 fun x hx hx' => hne ?_
    obtain ⟨p, hp, hown⟩ := hL.records.owner_of_bytes hL.inv ha hx
    obtain ⟨q, hq, hown'⟩ := hL.records.owner_of_bytes hL.inv hc hx'
    obtain rfl := eq_of_mem_pageBytes hp hq
    obtain ⟨i, hi, -⟩ := (hL.records.live a).1 ha
    obtain ⟨j, hj, -⟩ := (hL.records.live c).1 hc
    rw [hown, Allocation.block_eq hi, Allocation.block_eq hj] at hown'
    obtain ⟨addr, order⟩ := a
    obtain ⟨addr', order'⟩ := c
    cases hown'
    exact congrArg (Allocation.mk · order) (hi.trans hj.symm)
  · obtain ⟨p, hp, hown⟩ := hL.records.owner_of_bytes hL.inv ha hx
    obtain ⟨z, hz, hfits⟩ := hL.inv.fits p _ hown
    have hpage := hfits.hasPage (hL.inv.consistent.mem hown)
    refine ⟨fun y hy => hL.inv.notMem_reserved hz hy hpage hp, fun o f hf => ?_, ?_⟩
    · by_contra hin
      obtain ⟨q, rfl, hfree⟩ := (hL.inv.listed o f).1 hf
      have hspan : p ∈ (⟨q, o, true⟩ : Block).span := by
        simp only [mem_pageBytes, pageSize, Paging.pageShift] at hp hin
        simp only [Block.mem_span]
        omega
      cases hown.symm.trans (hL.inv.consistent.eq_of_mem hfree hspan)
    · obtain ⟨r, hr, hin⟩ := hL.inside z hz
      exact ⟨r, hr, hin x (Zone.bytes_of_page hpage hp)⟩

/-- The allocator goes over to the direct map with one page in use. -/
theorem blocks_apart_page : ∃ s zs,
    ReachDmap [⟨pageSize, 4 * pageSize⟩] [⟨toDmap (2 * pageSize), 0⟩] s ∧
      ZoneChain s.mem s.zoneHead zs ∧ ∀ z ∈ zs, toDmap (2 * pageSize) ∉ z.reserved := by
  obtain ⟨s, h⟩ := reach_alloc_page
  have hlow : ∀ r ∈ [(⟨pageSize, 4 * pageSize⟩ : Region)], r.stop ≤ 2 ^ 48 := by decide
  obtain ⟨L, n, -, hn⟩ := h.transition hlow true
  obtain ⟨-, t, ht, -⟩ := hn n le_rfl
  have hreach := ReachDmap.transition h hlow ht
  obtain ⟨-, zs, ls, hchain, -, hbytes⟩ := hreach.blocks_apart
  exact ⟨t, zs, hreach, hchain, (hbytes _ (.head _) _ ⟨le_rfl, by decide⟩).1⟩

end Mars.Pm
