import Mars.Pm.Partition
import Mars.Pm.Transition

/-!
# The transition is a simulation

A run before the transition and the same run after it are compared call by call: the second one is
given the images of the addresses that are freed, and it answers with the images of the addresses
that the first one answers with, unless a range starts at the address 0, whose meta array keeps its
physical address, or ends at `2 ^ 48`, whose end is 0 in the direct map.
-/

namespace Mars.Pm

open Lib Lib.Bits Lib.DList Lib.Ownership Vm State Layout Mars.Pm.Block

/-! ### What calls do not change -/

structure SameFixed (s s' : State) : Prop where
  totalPages : s'.totalPages = s.totalPages
  lowestAddress : s'.lowestAddress = s.lowestAddress
  isDmap : s'.isDmap = s.isDmap

namespace SameFixed

variable {s s' s'' : State}

lemma refl (s : State) : SameFixed s s := ⟨rfl, rfl, rfl⟩

lemma trans (h : SameFixed s s') (h' : SameFixed s' s'') : SameFixed s s'' where
  totalPages := h'.totalPages.trans h.totalPages
  lowestAddress := h'.lowestAddress.trans h.lowestAddress
  isDmap := h'.isDmap.trans h.isDmap

end SameFixed

namespace State

variable {s s' : State}

lemma sameFixed_split (zone metaArray pageI target n : Nat) : ∀ s : State,
    SameFixed s (split zone metaArray pageI target n s) := by
  induction n with
  | zero => exact SameFixed.refl
  | succ n ih =>
    intro s
    rw [split]
    refine SameFixed.trans ?_ (ih _)
    exact ⟨rfl, rfl, rfl⟩

lemma sameFixed_takeBlock (s : State) (target order : Nat) :
    SameFixed s (s.takeBlock target order).2 := by
  rw [takeBlock]
  refine SameFixed.trans ?_ (SameFixed.trans (sameFixed_split _ _ _ _ (order - target) _)
    ⟨rfl, rfl, rfl⟩)
  exact ⟨rfl, rfl, rfl⟩

lemma sameFixed_allocPages (s : State) (target : Nat) : SameFixed s (s.allocPages target).2 := by
  have hfrom : ∀ n, SameFixed s (s.allocFrom target n).2 := by
    intro n
    induction n with
    | zero => exact SameFixed.refl s
    | succ n ih =>
      rw [allocFrom]
      split_ifs
      · exact sameFixed_takeBlock _ _ _
      · exact ih
  rw [allocPages]
  split_ifs
  · exact SameFixed.refl s
  · exact hfrom _

lemma sameFixed_merge (zone n : Nat) : ∀ (s : State) (pageIndex order : Nat),
    SameFixed s (merge zone n s pageIndex order).1 := by
  induction n with
  | zero =>
    intro s _ _
    exact SameFixed.refl s
  | succ n ih =>
    intro s pageIndex order
    rw [merge]
    split_ifs
    · exact SameFixed.refl s
    · refine SameFixed.trans ?_ (ih _ _ _)
      exact ⟨rfl, rfl, rfl⟩
    · exact SameFixed.refl s

lemma sameFixed_freeBlockInZone {zone pageIndex order : Nat}
    (h : s.freeBlockInZone zone pageIndex order = .ok s') : SameFixed s s' := by
  have hmerge := sameFixed_merge zone (maxOrder - 1 - order) s pageIndex order
  unfold freeBlockInZone at h
  generalize merge zone (maxOrder - 1 - order) s pageIndex order = merged at hmerge h
  obtain ⟨t, i, o⟩ := merged
  dsimp only at h
  split_ifs at h
  cases h
  exact hmerge.trans ⟨rfl, rfl, rfl⟩

lemma sameFixed_freePages {debug : Bool} {fuel addr : Nat}
    (h : s.freePages debug fuel addr = .ok s') : SameFixed s s' := by
  have hfrom : ∀ {fuel zone : Nat}, freeFrom debug addr s fuel zone = .ok s' →
      SameFixed s s' := by
    intro fuel
    induction fuel with
    | zero =>
      intro zone h
      cases h
    | succ fuel ih =>
      intro zone h
      rw [freeFrom] at h
      split_ifs at h
      simp only [bind, Except.bind] at h
      split at h
      · cases h
      split_ifs at h
      · refine SameFixed.trans ?_ (sameFixed_freeBlockInZone h)
        exact ⟨rfl, rfl, rfl⟩
      · exact ih h
  rw [freePages] at h
  split_ifs at h
  · cases h
    exact SameFixed.refl s
  · exact hfrom h

lemma sameFixed_carve (zone metaArray dataBase usable rounds : Nat) : ∀ (s : State) (current : Nat),
    SameFixed s (carve zone metaArray dataBase usable rounds s current) := by
  induction rounds with
  | zero => exact fun s _ => SameFixed.refl s
  | succ rounds ih =>
    intro s current
    rw [carve]
    split_ifs
    · refine SameFixed.trans ?_ (ih _ _)
      exact ⟨rfl, rfl, rfl⟩
    · exact SameFixed.refl s

lemma addRange_isDmap {debug : Bool} {fuel start stop : Nat}
    (h : s.addRange debug fuel start stop = .ok s') : s'.isDmap = s.isDmap := by
  obtain ⟨-, reserved, usable, -, -, -, rfl⟩ := addRange_ok h
  exact (sameFixed_carve _ _ _ _ _ _ _).isDmap

/-- The data pages of the new zone may be the lowest ones. -/
lemma addRange_lowestAddress {debug : Bool} {fuel start stop : Nat}
    (h : s.addRange debug fuel start stop = .ok s') {z : Zone} (hz : z.Sized)
    (hmeta : z.metaArray = start) (hstop : z.stop = stop) : s'.lowestAddress =
      if s.lowestAddress = 0 ∨ z.dataBase < s.lowestAddress then z.dataBase
      else s.lowestAddress := by
  obtain ⟨hal, reserved, usable, rfl, -, hreserve, rfl⟩ := addRange_ok h
  have hsized : (zoneOf start reserved usable).Sized := ⟨reserved, hal, hreserve, rfl⟩
  obtain rfl : z = zoneOf start reserved usable :=
    hz.eq hsized hmeta (hstop.trans (zoneOf_stop hal).symm)
  rw [(sameFixed_carve _ _ _ _ _ _ _).lowestAddress, addZone, zoneOf_dataBase hal]

end State

lemma Reach.isDmap {R : List Region} {A : List Allocation} {s : State} (h : Reach R A s) :
    s.isDmap = false := by
  induction h with
  | new m => rfl
  | addRange _ _ _ hs ih => exact (addRange_isDmap hs).trans ih
  | alloc order _ ih => exact (sameFixed_allocPages _ order).isDmap.trans ih
  | free _ _ hs ih => exact (sameFixed_freePages hs).isDmap.trans ih
  | write _ _ ih => exact ih

/-! ### Calls and their answers -/

inductive Call where
  | allocPages (order : Nat)
  | freePages (addr : Nat)
  | overlappingRange (start stop : Nat)
  | maxAddress
  | minAddress

inductive Answer where
  | addr (a : Nat)
  | range (r : Option (Nat × Nat))
  | done

def Call.toDmap : Call → Call
  | .freePages addr => .freePages (physAddrToDmap addr)
  | c               => c

/-- The answer after the transition. Ranges are physical. -/
def Answer.toDmap : Answer → Answer
  | .addr a => .addr (Pm.toDmap a)
  | a       => a

def State.call (debug : Bool) (fuel : Nat) (s : State) : Call → Except Panic (Answer × State)
  | .allocPages order            =>
    .ok (.addr (s.allocPages order).1, (s.allocPages order).2)
  | .freePages addr              => (s.freePages debug fuel addr).map fun s' => (.done, s')
  | .overlappingRange start stop =>
    (s.overlappingRange debug fuel start stop).map fun r => (.range r, s)
  | .maxAddress                  => (s.maxAddress debug fuel).map fun a => (.addr a, s)
  | .minAddress                  => .ok (.addr s.minAddress, s)

/-- A client frees physical addresses, but not a later page of a block in use. -/
def Call.Allowed (A : List Allocation) : Call → Prop
  | .freePages addr => addr ≠ 0 ∧ addr < 2 ^ 48 ∧ ¬∃ c ∈ A, c.LaterPage addr
  | _               => True

/-- The blocks in use after the call. -/
def Call.after (A : List Allocation) : Call → Answer → List Allocation
  | .allocPages order, .addr a => granted a order A
  | .freePages addr,   _       => A.filter (·.addr != addr)
  | _,                 _       => A

/-- The two runs, one before and one after the transition. -/
inductive Paired (debug : Bool) (fuel : Nat) (A : List Allocation) (s t : State) :
    List Allocation → State → State → Prop
  | start : Paired debug fuel A s t A s t
  | call {A' : List Allocation} {s' s'' t' t'' : State} {c : Call} {a b : Answer}
      (h : Paired debug fuel A s t A' s' t') (hc : c.Allowed A')
      (hs : s'.call debug fuel c = .ok (a, s'')) (ht : t'.call debug fuel c.toDmap = .ok (b, t'')) :
      Paired debug fuel A s t (c.after A' a) s'' t''

/-- Both calls return, with corresponding answers, or both fail the same check. -/
inductive Agree : Except Panic (Answer × State) → Except Panic (Answer × State) → Prop
  | ok (a : Answer) (s t : State) : Agree (.ok (a, s)) (.ok (a.toDmap, t))
  | error {e : Panic} (he : e ≠ .diverges) : Agree (.error e) (.error e)

/-- The header of the zone with all addresses replaced by their images. -/
def Zone.image (z : Zone) : Zone where
  addr := physAddrToDmap z.addr
  metaArray := physAddrToDmap z.metaArray
  first := z.first + dmapPages
  totalPages := z.totalPages

/-- The zones, the meta arrays and the lists of `t` are the images of those of `s`. -/
structure Image (s t : State) : Prop where
  zones : ∃ zs, ZoneChain s.mem s.zoneHead zs ∧ (∀ z ∈ zs, z.addr ≠ 0) ∧
    ZoneChain t.mem t.zoneHead (zs.map Zone.image) ∧
    ∀ z ∈ zs, ∀ i < z.totalPages, t.mem (z.image.metaArray + i) = s.mem (z.metaArray + i)
  lists : ∀ k < maxOrder, ∃ l, IsList s.mem (s.freeArea k) l ∧
    IsList t.mem (t.freeArea k) (l.map physAddrToDmap) ∧
    ∀ x ∈ l, blockZone t.mem (physAddrToDmap x) = physAddrToDmap (blockZone s.mem x) ∧
      blockPageIndex t.mem (physAddrToDmap x) = blockPageIndex s.mem x
  totalPages : t.totalPages = s.totalPages
  allocatedPages : t.allocatedPages = s.allocatedPages
  lowestAddress : t.lowestAddress = toDmap s.lowestAddress

/-- Whatever is called from `s` and `t` on, the states correspond and the next call agrees. -/
def Simulates (debug : Bool) (fuel : Nat) (A : List Allocation) (s t : State) : Prop :=
  ∀ A' s' t', Paired debug fuel A s t A' s' t' → Image s' t' ∧
    ∀ c : Call, c.Allowed A' → Agree (s'.call debug fuel c) (t'.call debug fuel c.toDmap)

/-! ### States with the same layout -/

/-- The layout of `s`, moved to the direct map, is the layout of `t`. -/
structure Twin (R : List Region) (A : List Allocation) (s t : State) (L : Layout) : Prop where
  tracks : Tracks R A s L
  inv : t.Inv L.toDmap
  totalPages : t.totalPages = s.totalPages
  allocatedPages : t.allocatedPages = s.allocatedPages
  lowestAddress : t.lowestAddress = toDmap s.lowestAddress

/-- No range starts at 0 and all end before `2 ^ 48`. -/
def InsideLow (R : List Region) : Prop := ∀ r ∈ R, r.start ≠ 0 ∧ r.stop < 2 ^ 48

section Twin

variable {R : List Region} {A : List Allocation} {s t : State} {L : Layout} {fuel : Nat}

lemma Layout.owner_toDmap {z : Zone} {i : Nat} {b : Block} (h : L.owner (z.first + i) = some b) :
    L.toDmap.owner (z.toDmap.first + i) = some (b.shift dmapPages) := by
  rw [show z.toDmap.first + i = z.first + i + dmapPages from add_right_comm _ _ _]
  exact owner_shift_add_iff.2 h

lemma Layout.owner_toDmap_start {z : Zone} {i o : Nat} {f : Bool}
    (h : L.owner (z.first + i) = some ⟨z.first + i, o, f⟩) :
    L.toDmap.owner (z.toDmap.first + i) = some ⟨z.toDmap.first + i, o, f⟩ := by
  have hown := owner_toDmap h
  rwa [shift_mk, show z.first + i + dmapPages = z.toDmap.first + i from
    add_right_comm _ _ _] at hown

lemma Zone.page_toDmap (z : Zone) (i : Nat) :
    (z.first + i) * pageSize + dmapStart = (z.toDmap.first + i) * pageSize := by
  rw [← dmapPages_mul, ← add_mul, add_right_comm]
  rfl

lemma Layout.Refuses.toDmap {addr : Nat} {e : Panic} (h : L.Refuses addr e) :
    L.toDmap.Refuses (addr + dmapStart) e := by
  cases h with
  | notOwned hout =>
    refine .notOwned fun y hy hin => ?_
    obtain ⟨z, hz, rfl⟩ := List.mem_map.1 hy
    rw [z.toDmap_dataBase, z.toDmap_stop] at hin
    exact hout z hz ⟨Nat.le_of_add_le_add_right hin.1, Nat.lt_of_add_lt_add_right hin.2⟩
  | @notPageAligned z hz hin hoff =>
    refine .notPageAligned (List.mem_map_of_mem hz) ?_ ?_
    · rw [z.toDmap_dataBase, z.toDmap_stop]
      exact ⟨Nat.add_le_add_right hin.1 _, Nat.add_lt_add_right hin.2 _⟩
    · rwa [← dmapPages_mul, Nat.add_mul_mod_self_right]
  | @doubleFree z i b hz hi haddr hown hfree =>
    refine .doubleFree (List.mem_map_of_mem hz) hi ?_ (owner_toDmap hown) hfree
    rw [haddr, z.page_toDmap]

lemma Layout.length_toDmap (L : Layout) : L.toDmap.zones.length = L.zones.length :=
  List.length_map _

lemma Tracks.region_mem (h : Tracks R A s L) {z : Zone} (hz : z ∈ L.zones) : z.region ∈ R := by
  rw [← h.regions]
  exact List.mem_map_of_mem hz

lemma Tracks.insideLow (h : Tracks R A s L) (hR : InsideLow R) :
    ∀ z ∈ L.zones, z.metaArray ≠ 0 ∧ z.stop < 2 ^ 48 :=
  fun _ hz => hR _ (h.region_mem hz)

lemma Zone.image_eq_toDmap {z : Zone} (hz : z.Wf) (hmeta : z.metaArray ≠ 0)
    (hlow : z.stop < 2 ^ 48) : z.image = z.toDmap := by
  obtain ⟨hlt, hne, haddr, -⟩ := hz.low hlow.le
  rw [image, toDmap, toDmap_of_lt hmeta (by omega), physAddrToDmap_of_lt (by omega),
    physAddrToDmap_of_lt (by omega)]

lemma State.Inv.lists_toDmap (hI : s.Inv L) (hlow : ∀ z ∈ L.zones, z.stop ≤ 2 ^ 48) (k : Nat) :
    L.toDmap.lists k = (L.lists k).map physAddrToDmap := by
  refine List.map_congr_left fun x hx => ?_
  obtain ⟨p, -, hlt⟩ := (hI.lowNodes hlow).page k x hx
  rw [physAddrToDmap_of_lt hlt, dmapPages_mul]

lemma Twin.image (h : Twin R A s t L) (hR : InsideLow R) : Image s t where
  zones := by
    have hlow := h.tracks.insideLow hR
    have hmap := List.map_congr_left fun z hz =>
        Zone.image_eq_toDmap (h.tracks.inv.wf z hz) (hlow z hz).1 (hlow z hz).2
    refine ⟨L.zones, h.tracks.inv.chain, fun z hz => h.tracks.inv.zone_addr_ne_zero hz, ?_, ?_⟩
    · rw [hmap]
      exact h.inv.chain
    · intro z hz i hi
      rw [Zone.image_eq_toDmap (h.tracks.inv.wf z hz) (hlow z hz).1 (hlow z hz).2]
      cases hown : L.owner (z.first + i) with
      | none =>
        exact absurd ⟨⟨z, hz, Nat.le_add_right _ _, Nat.add_lt_add_left hi _⟩, hown⟩
          (h.tracks.full (z.first + i))
      | some b =>
        rw [h.tracks.inv.metas z hz i hi b hown]
        exact (h.inv.metas z.toDmap (List.mem_map_of_mem hz) i hi _ (owner_toDmap hown)).trans
          byte_shift
  lists := by
    intro k hk
    have hlow := h.tracks.insideLow hR
    have hlists := h.tracks.inv.lists_toDmap (fun z hz => (hlow z hz).2.le) k
    refine ⟨L.lists k, h.tracks.inv.lists k hk, ?_, fun x hx => ?_⟩
    · rw [← hlists]
      exact h.inv.lists k hk
    · obtain ⟨z, hz, i, hi, rfl, hown, -, hzone, hindex⟩ := h.tracks.inv.exists_node hx
      have hnode := h.inv.nodes z.toDmap (List.mem_map_of_mem hz) i hi k (owner_toDmap_start hown)
      have hnodes := h.tracks.inv.lowNodes fun z hz => (hlow z hz).2.le
      obtain ⟨-, -, hxlt⟩ := hnodes.page k _ hx
      obtain ⟨-, -, haddr, -⟩ := (h.tracks.inv.wf z hz).low (hlow z hz).2.le
      rw [show z.toDmap.first + i = z.first + i + dmapPages from add_right_comm _ _ _,
        add_mul, dmapPages_mul, ← physAddrToDmap_of_lt hxlt] at hnode
      rw [hnode.1, hnode.2, hzone, hindex, physAddrToDmap_of_lt (by omega)]
      exact ⟨rfl, rfl⟩
  totalPages := h.totalPages
  allocatedPages := h.allocatedPages
  lowestAddress := h.lowestAddress

/-! ### `alloc_pages` and `free_pages` -/

lemma Twin.alloc (h : Twin R A s t L) (hR : InsideLow R) (order : Nat) :
    (t.allocPages order).1 = toDmap (s.allocPages order).1 ∧
    ∃ L', Twin R (granted (s.allocPages order).1 order A) (s.allocPages order).2
      (t.allocPages order).2 L' := by
  have hlow := h.tracks.insideLow hR
  have hfixed := sameFixed_allocPages s order
  have hfixed' := sameFixed_allocPages t order
  have hshift : L.toDmap.alloc order =
      (L.alloc order).map fun r => (r.1 + dmapPages, r.2.toDmap) := shift_alloc
  have hcases := h.inv.allocPages (shift_full movesPages_toDmap h.tracks.full) order
  rcases h.tracks.inv.allocPages h.tracks.full order with
    ⟨hnone, hs⟩ | ⟨p, L', s', hsome, hs, hal⟩
  · rw [hshift, hnone] at hcases
    rcases hcases with ⟨-, ht⟩ | ⟨p, L', t', hsome, -⟩
    · rw [hs, ht, granted, if_pos rfl]
      exact ⟨rfl, L, h⟩
    · cases hsome
  · rw [hshift, hsome] at hcases
    rcases hcases with ⟨hnone, -⟩ | ⟨p', L'', t', hsome', ht, hal'⟩
    · cases hnone
    · cases hsome'
      rcases h.tracks.alloc order with ⟨hnone, -⟩ | ⟨q, L'', hsome', hq, hne, htracks⟩
      · rw [hnone] at hsome
        cases hsome
      rw [hsome] at hsome'
      cases hsome'
      obtain ⟨z, hz, hfits⟩ := hal.fits
      have hlt : p * pageSize < 2 ^ 48 := by
        have hpage := (hfits.hasPage (start_mem_span _)).2
        exact (Nat.mul_lt_mul_of_pos_right hpage (by decide)).trans (hlow z hz).2
      rw [hs] at htracks hfixed ⊢
      rw [ht] at hfixed' ⊢
      rw [granted, if_neg hne]
      refine ⟨?_, L', htracks, hal'.inv, ?_, ?_, ?_⟩
      · rw [toDmap_of_lt hne hlt, add_mul, dmapPages_mul]
      · rw [hfixed'.totalPages, hfixed.totalPages, h.totalPages]
      · rw [hal'.allocated, hal.allocated, h.allocatedPages]
      · rw [hfixed'.lowestAddress, hfixed.lowestAddress, h.lowestAddress]

lemma Tracks.filter_eq_erase (h : Tracks R A s L) {a : Allocation} (ha : a ∈ A) :
    A.filter (·.addr != a.addr) = A.erase a := by
  rw [h.nodup.erase_eq_filter]
  refine List.filter_congr fun c hc => ?_
  rw [Bool.eq_iff_iff, bne_iff_ne, bne_iff_ne]
  refine not_congr ⟨fun haddr => ?_, congrArg _⟩
  obtain ⟨p, hp, hlive⟩ := (h.live a).1 ha
  obtain ⟨q, hq, hlive'⟩ := (h.live c).1 hc
  obtain rfl := eq_of_mul_pageSize (hp.symm.trans (haddr.symm.trans hq))
  rw [Layout.Live] at hlive hlive'
  rw [hlive] at hlive'
  obtain ⟨addr, order⟩ := a
  obtain ⟨addr', order'⟩ := c
  cases hlive'
  exact congrArg (Allocation.mk · order) haddr

lemma Twin.stop_lt (h : Twin R A s t L) (hR : InsideLow R) :
    ∀ y ∈ L.toDmap.zones, y.stop < 2 ^ 64 := by
  intro y hy
  obtain ⟨z, hz, rfl⟩ := List.mem_map.1 hy
  have hlt := (h.tracks.insideLow hR z hz).2
  rw [z.toDmap_stop, dmapStart_eq]
  omega

/-- Either the address is that of a block in use and both calls return, or both fail a check. -/
lemma Twin.free (h : Twin R A s t L) (hR : InsideLow R) (debug : Bool)
    (hfuel : L.zones.length < fuel) {addr : Nat} (hc : (Call.freePages addr).Allowed A) :
    (∃ s' t' L', s.freePages debug fuel addr = .ok s' ∧
      t.freePages debug fuel (physAddrToDmap addr) = .ok t' ∧
      Twin R (A.filter (·.addr != addr)) s' t' L') ∨
    ∃ e, e ≠ .diverges ∧ s.freePages debug fuel addr = .error e ∧
      t.freePages debug fuel (physAddrToDmap addr) = .error e := by
  obtain ⟨hne, hlt, hlater⟩ := hc
  have hI := h.tracks.inv
  have hstop' := h.stop_lt hR
  have hne' : addr + dmapStart ≠ 0 := Nat.ne_of_gt (Nat.add_pos_left (Nat.pos_of_ne_zero hne) _)
  have hfuel' : L.toDmap.zones.length < fuel := by
    rw [L.length_toDmap]
    exact hfuel
  rw [physAddrToDmap_of_lt hlt]
  rcases h.tracks.full.inUse_or_refuses addr with
    ⟨z, hz, i, hi, rfl, start, order, hown⟩ | ⟨e, hrefuses⟩
  · -- the page is the first one of its block
    obtain ⟨hstart, hend⟩ := mem_span.1 (hI.consistent.mem hown)
    dsimp only at hstart hend
    have hmem : (⟨start * pageSize, order⟩ : Allocation) ∈ A :=
      (h.tracks.live _).2 ⟨start, rfl, hI.owner_start hown⟩
    have heq : start = z.first + i := by
      by_contra hstart'
      refine hlater ⟨_, hmem, z.first + i - start, by omega, by dsimp only; omega, ?_⟩
      rw [← add_mul, Nat.add_sub_cancel' hstart]
    subst heq
    have hz' : z.toDmap ∈ L.toDmap.zones := List.mem_map_of_mem hz
    obtain ⟨s', hs', hfreed⟩ := hI.freePages h.tracks.full hz hi (h.tracks.lt z hz) hown
      (fun _ : debug = true => h.tracks.lt) hfuel
    obtain ⟨t', ht', hfreed'⟩ := h.inv.freePages (shift_full movesPages_toDmap h.tracks.full) hz'
      hi (hstop' _ hz') (owner_toDmap_start hown) (fun _ : debug = true => hstop') hfuel'
    obtain ⟨s'', hs'', htracks⟩ := h.tracks.free_page debug hfuel hz hi hown
    rw [hs'] at hs''
    cases hs''
    have hfixed := sameFixed_freePages hs'
    have hfixed' := sameFixed_freePages ht'
    refine .inl ⟨s', t', L.free z (z.first + i) order, hs', ?_, ?_, ?_, ?_, ?_, ?_⟩
    · rw [z.page_toDmap]
      exact ht'
    · rw [h.tracks.filter_eq_erase hmem]
      exact htracks
    · have hlayout := shift_free movesPages_toDmap (L := L) (z := z) (o := order)
        (Nat.le_add_right _ i)
      rw [show z.first + i + dmapPages = z.toDmap.first + i from
        add_right_comm _ _ _] at hlayout
      rw [Layout.toDmap, ← hlayout]
      exact hfreed'.inv
    · rw [hfixed'.totalPages, hfixed.totalPages, h.totalPages]
    · rw [hfreed'.allocated, hfreed.allocated, h.allocatedPages]
    · rw [hfixed'.lowestAddress, hfixed.lowestAddress, h.lowestAddress]
  · exact .inr ⟨e, hrefuses.ne.1, hI.freePages_refused h.tracks.lt hne hrefuses debug hfuel,
      h.inv.freePages_refused hstop' hne' hrefuses.toDmap debug hfuel'⟩

end Twin

/-! ### Queries -/

/-- The physical range that is reported for the zone. -/
def Zone.physRange (z : Zone) : Nat × Nat :=
  (dmapAddrToPhys z.metaArray, dmapAddrToPhys (z.stop % 2 ^ 64))

def Zone.maxStop (max : Nat) (z : Zone) : Nat :=
  if max < z.stop % 2 ^ 64 then z.stop % 2 ^ 64 else max

section Queries

variable {debug : Bool} {m : Mem} {z : Zone} {zs : List Zone}

lemma State.overlappingFrom_eq {start stop : Nat} (hne : ∀ z ∈ zs, dmapAddrToPhys z.addr ≠ 0)
    (hend : EndsFit debug zs) : ∀ {ptr fuel : Nat}, ZoneChain m ptr zs → zs.length < fuel →
      overlappingFrom debug m start stop fuel ptr =
        .ok ((zs.map Zone.physRange).find? fun r => start < r.2 ∧ r.1 < stop) := by
  induction zs with
  | nil =>
    intro ptr fuel hchain hfuel
    obtain ⟨fuel, rfl⟩ := Nat.exists_eq_succ_of_ne_zero hfuel.ne'
    obtain rfl : ptr = 0 := hchain
    rfl
  | cons z zs ih =>
    intro ptr fuel hchain hfuel
    obtain ⟨fuel, rfl⟩ := Nat.exists_eq_succ_of_ne_zero (Nat.zero_lt_of_lt hfuel).ne'
    obtain ⟨rfl, hmeta, hdata, htotal, hrest⟩ := hchain
    obtain ⟨hz, hne⟩ := List.forall_mem_cons.1 hne
    obtain ⟨hstop, hend⟩ := hend.of_cons
    rw [overlappingFrom, if_pos hz, zoneEnd_eq hdata htotal hstop, pure_bind]
    simp only [hmeta, List.map_cons, List.find?_cons]
    by_cases hin : start < z.physRange.2 ∧ z.physRange.1 < stop
    · rw [decide_eq_true hin]
      exact if_pos hin
    · rw [decide_eq_false hin]
      refine (if_neg hin).trans ?_
      exact ih hne hend hrest (by simpa using hfuel)

lemma State.maxAddressFrom_eq (hne : ∀ z ∈ zs, z.addr ≠ 0) (hend : EndsFit debug zs) :
    ∀ {ptr fuel max : Nat}, ZoneChain m ptr zs → zs.length < fuel →
      maxAddressFrom debug m fuel ptr max = .ok (zs.foldl Zone.maxStop max) := by
  induction zs with
  | nil =>
    intro ptr fuel max hchain hfuel
    obtain ⟨fuel, rfl⟩ := Nat.exists_eq_succ_of_ne_zero hfuel.ne'
    obtain rfl : ptr = 0 := hchain
    rfl
  | cons z zs ih =>
    intro ptr fuel max hchain hfuel
    obtain ⟨fuel, rfl⟩ := Nat.exists_eq_succ_of_ne_zero (Nat.zero_lt_of_lt hfuel).ne'
    obtain ⟨rfl, -, hdata, htotal, hrest⟩ := hchain
    obtain ⟨hz, hne⟩ := List.forall_mem_cons.1 hne
    obtain ⟨hstop, hend⟩ := hend.of_cons
    rw [maxAddressFrom, if_neg hz, zoneEnd_eq hdata htotal hstop, pure_bind]
    exact ih hne hend hrest (by simpa using hfuel)

lemma Zone.physRange_toDmap (hz : z.Wf) (hlow : z.stop < 2 ^ 48) :
    z.toDmap.physRange = z.physRange := by
  obtain ⟨hlt, -⟩ := hz.low hlow.le
  have hstop : (z.stop + dmapStart) % 2 ^ 64 = z.stop + dmapStart := by
    rw [dmapStart_eq]
    omega
  rw [physRange, physRange, z.toDmap_stop, hstop, dmapAddrToPhys_add hlow, toDmap,
    dmapAddrToPhys_toDmap (by omega), dmapAddrToPhys_of_lt (show z.metaArray < 2 ^ 48 by omega),
    Nat.mod_eq_of_lt (by omega), dmapAddrToPhys_of_lt hlow]

/-- The order of addresses below `2 ^ 48` stays. -/
lemma foldl_maxStop_toDmap (hwf : ∀ z ∈ zs, z.Wf) (hlow : ∀ z ∈ zs, z.stop < 2 ^ 48) :
    ∀ {max : Nat}, max < 2 ^ 48 →
      (zs.map Zone.toDmap).foldl Zone.maxStop (toDmap max) =
        toDmap (zs.foldl Zone.maxStop max) := by
  induction zs with
  | nil => exact fun _ => rfl
  | cons z zs ih =>
    intro max hmax
    obtain ⟨hz, hwf⟩ := List.forall_mem_cons.1 hwf
    obtain ⟨hzlow, hlow⟩ := List.forall_mem_cons.1 hlow
    have hpos : z.stop ≠ 0 := by
      have := z.dataBase_le_stop
      have := hz.header
      rw [zoneSize] at this
      omega
    have hmod : (z.stop + dmapStart) % 2 ^ 64 = z.stop + dmapStart := by
      rw [dmapStart_eq]
      omega
    have hlt : toDmap max < z.stop + dmapStart ↔ max < z.stop := by
      by_cases hzero : max = 0
      · rw [hzero, toDmap_zero]
        omega
      · rw [toDmap_of_lt hzero hmax]
        omega
    have hstep : z.toDmap.maxStop (toDmap max) = toDmap (z.maxStop max) := by
      rw [Zone.maxStop, Zone.maxStop, z.toDmap_stop, hmod, Nat.mod_eq_of_lt (by omega)]
      simp only [hlt]
      split_ifs
      · exact (toDmap_of_lt hpos hzlow).symm
      · rfl
    have hnext : z.maxStop max < 2 ^ 48 := by
      rw [Zone.maxStop, Nat.mod_eq_of_lt (by omega)]
      split_ifs
      · exact hzlow
      · exact hmax
    rw [List.map_cons, List.foldl_cons, List.foldl_cons, hstep]
    exact ih hwf hlow hnext

end Queries

/-! ### Runs -/

section Runs

variable {R : List Region} {A : List Allocation} {s t : State} {L : Layout} {debug : Bool}
  {fuel : Nat}

lemma Tracks.zones_length (h : Tracks R A s L) : L.zones.length = R.length := by
  rw [← h.regions, List.length_map]

section

variable (h : Twin R A s t L) (hR : InsideLow R) (hfuel : R.length < fuel)

include h hR hfuel

lemma Twin.overlappingRange (debug : Bool)
    (start stop : Nat) : ∃ r, s.overlappingRange debug fuel start stop = .ok r ∧
      t.overlappingRange debug fuel start stop = .ok r := by
  have hlow := h.tracks.insideLow hR
  have hwf := h.tracks.inv.wf
  rw [← h.tracks.zones_length] at hfuel
  rw [overlappingRange, overlappingRange]
  split_ifs
  · exact ⟨none, rfl, rfl⟩
  · refine ⟨_, overlappingFrom_eq ?_ (fun _ => h.tracks.lt) h.tracks.inv.chain hfuel, ?_⟩
    · intro z hz
      obtain ⟨-, hne, haddr, -⟩ := (hwf z hz).low (hlow z hz).2.le
      rw [dmapAddrToPhys_of_lt (by omega)]
      exact hne
    · have hrange : (L.zones.map Zone.toDmap).map Zone.physRange = L.zones.map Zone.physRange := by
        rw [List.map_map]
        exact List.map_congr_left fun z hz => Zone.physRange_toDmap (hwf z hz) (hlow z hz).2
      rw [← hrange]
      refine overlappingFrom_eq ?_ (fun _ => h.stop_lt hR) h.inv.chain ?_
      · intro y hy
        obtain ⟨z, hz, rfl⟩ := List.mem_map.1 hy
        obtain ⟨-, hne, haddr, -⟩ := (hwf z hz).low (hlow z hz).2.le
        rw [show z.toDmap.addr = z.addr + dmapStart from rfl, dmapAddrToPhys_add (by omega)]
        exact hne
      · rw [L.length_toDmap]
        exact hfuel

lemma Twin.maxAddress (debug : Bool) :
    ∃ a, s.maxAddress debug fuel = .ok a ∧ t.maxAddress debug fuel = .ok (toDmap a) := by
  have hlow := h.tracks.insideLow hR
  rw [← h.tracks.zones_length] at hfuel
  refine ⟨_, maxAddressFrom_eq (fun z hz => h.tracks.inv.zone_addr_ne_zero hz)
    (fun _ => h.tracks.lt) h.tracks.inv.chain hfuel, ?_⟩
  rw [← foldl_maxStop_toDmap h.tracks.inv.wf (fun z hz => (hlow z hz).2) (by decide), toDmap_zero]
  refine maxAddressFrom_eq (fun y hy => h.inv.zone_addr_ne_zero hy) (fun _ => h.stop_lt hR)
    h.inv.chain ?_
  rw [L.length_toDmap]
  exact hfuel

lemma Twin.call {c : Call}
    (hc : c.Allowed A) : Agree (s.call debug fuel c) (t.call debug fuel c.toDmap) ∧
      ∀ {a b : Answer} {s' t' : State}, s.call debug fuel c = .ok (a, s') →
        t.call debug fuel c.toDmap = .ok (b, t') → ∃ L', Twin R (c.after A a) s' t' L' := by
  cases c with
  | allocPages order =>
    obtain ⟨haddr, L', hL'⟩ := h.alloc hR order
    constructor
    · simp only [State.call, Call.toDmap, haddr]
      exact .ok _ _ _
    · intro a b s' t' hs ht
      cases hs
      cases ht
      exact ⟨L', hL'⟩
  | freePages addr =>
    have hzones := hfuel
    rw [← h.tracks.zones_length] at hzones
    simp only [State.call, Call.toDmap]
    rcases h.free hR debug hzones hc with ⟨s', t', L', hs, ht, hL'⟩ | ⟨e, he, hs, ht⟩
    · rw [hs, ht]
      refine ⟨.ok .done _ _, fun hs' ht' => ?_⟩
      cases hs'
      cases ht'
      exact ⟨L', hL'⟩
    · rw [hs, ht]
      refine ⟨.error he, fun hs' _ => ?_⟩
      cases hs'
  | overlappingRange start stop =>
    obtain ⟨r, hs, ht⟩ := h.overlappingRange hR hfuel debug start stop
    simp only [State.call, Call.toDmap, hs, ht]
    refine ⟨.ok (.range r) _ _, fun hs' ht' => ?_⟩
    cases hs'
    cases ht'
    exact ⟨L, h⟩
  | maxAddress =>
    obtain ⟨a, hs, ht⟩ := h.maxAddress hR hfuel debug
    simp only [State.call, Call.toDmap, hs, ht]
    refine ⟨.ok (.addr a) _ _, fun hs' ht' => ?_⟩
    cases hs'
    cases ht'
    exact ⟨L, h⟩
  | minAddress =>
    simp only [State.call, Call.toDmap, State.minAddress, h.lowestAddress]
    refine ⟨.ok (.addr _) _ _, fun hs' ht' => ?_⟩
    cases hs'
    cases ht'
    exact ⟨L, h⟩

lemma Twin.simulates : Simulates debug fuel A s t := by
  have hpaired : ∀ A' s' t', Paired debug fuel A s t A' s' t' → ∃ L', Twin R A' s' t' L' := by
    intro A' s' t' hrun
    induction hrun with
    | start => exact ⟨L, h⟩
    | call _ hc hs ht ih =>
      obtain ⟨L', hL'⟩ := ih
      exact (hL'.call hR hfuel hc).2 hs ht
  intro A' s' t' hrun
  obtain ⟨L', hL'⟩ := hpaired A' s' t' hrun
  exact ⟨hL'.image hR, fun c hc => (hL'.call hR hfuel hc).1⟩

end

/-! ### Where the simulation fails -/

lemma ZoneChain.unique {m : Mem} {zs zs' : List Zone} (hne : ∀ z ∈ zs, z.addr ≠ 0)
    (hne' : ∀ z ∈ zs', z.addr ≠ 0) :
    ∀ {p : Nat}, ZoneChain m p zs → ZoneChain m p zs' → zs = zs' := by
  induction zs generalizing zs' with
  | nil =>
    intro p h h'
    cases zs' with
    | nil => rfl
    | cons y zs' => exact absurd (h'.1.symm.trans h) (hne' y (.head _))
  | cons z zs ih =>
    intro p h h'
    cases zs' with
    | nil => exact absurd (h.1.symm.trans h') (hne z (.head _))
    | cons y zs' =>
      obtain ⟨rfl, hmeta, hdata, htotal, hrest⟩ := h
      obtain ⟨haddr, hmeta', hdata', htotal', hrest'⟩ := h'
      rw [← haddr] at hmeta' hdata' htotal' hrest'
      have heq : z = y := by
        obtain ⟨addr, metaArray, first, totalPages⟩ := z
        obtain ⟨addr', metaArray', first', totalPages'⟩ := y
        rw [Zone.mk.injEq]
        exact ⟨haddr, hmeta.symm.trans hmeta', eq_of_mul_pageSize (hdata.symm.trans hdata'),
          htotal.symm.trans htotal'⟩
      rw [heq, ih (fun x hx => hne x (.tail z hx)) (fun x hx => hne' x (.tail y hx)) hrest hrest']

/-- The meta array at the address 0 is not moved. -/
lemma Tracks.not_image (h : Tracks R A s L) (hmoved : State.Moved s L t)
    (hlow : ∀ z ∈ L.zones, z.stop ≤ 2 ^ 48) {z : Zone} (hz : z ∈ L.zones)
    (hmeta : z.metaArray = 0) : ¬Image s t := by
  intro himage
  have haddr : ∀ y ∈ L.zones, y.addr + dmapStart ≠ 0 := fun y hy =>
    Nat.ne_of_gt (Nat.add_pos_left (Nat.pos_of_ne_zero (h.inv.zone_addr_ne_zero hy)) _)
  obtain ⟨zs, hchain, hne, hchain', -⟩ := himage.zones
  obtain rfl := ZoneChain.unique hne (fun y hy => h.inv.zone_addr_ne_zero hy) hchain h.inv.chain
  have hmap : L.zones.map Zone.image = L.zones.map Zone.toDmap := by
    refine ZoneChain.unique ?_ ?_ hchain' hmoved.chain
    · intro x hx
      obtain ⟨y, hy, rfl⟩ := List.mem_map.1 hx
      obtain ⟨-, -, hlt, -⟩ := (h.inv.wf y hy).low (hlow y hy)
      rw [Zone.image, physAddrToDmap_of_lt (by omega)]
      exact haddr y hy
    · intro x hx
      obtain ⟨y, hy, rfl⟩ := List.mem_map.1 hx
      exact haddr y hy
  have hzero : physAddrToDmap z.metaArray = toDmap z.metaArray :=
    congrArg Zone.metaArray (List.map_inj_left.1 hmap z hz)
  rw [hmeta] at hzero
  exact absurd hzero (by decide)

/-- The first page of a zone is not a later page of a block. -/
lemma Tracks.not_laterPage_dataBase (h : Tracks R A s L) {z : Zone} (hz : z ∈ L.zones) :
    ¬∃ c ∈ A, c.LaterPage z.dataBase := by
  rintro ⟨c, hc, j, hpos, hj, haddr⟩
  obtain ⟨p, -, hp, hown⟩ := h.owner_page hc hj haddr
  have hpage := eq_of_mul_pageSize hp
  have hfirst : z.HasPage (p + j) := by
    rw [← hpage]
    exact ⟨Nat.le_refl _, Nat.lt_add_of_pos_right (h.inv.wf z hz).pos⟩
  have hle := (h.inv.fitsIn hz hfirst hown).first_le
  dsimp only at hle
  omega

section

variable (h : Tracks R A s L) (hmoved : State.Moved s L t)

include h hmoved

/-- The pages of a zone that ends at `2 ^ 48` are not found after the transition. -/
lemma Tracks.not_agree
    (hlow : ∀ z ∈ L.zones, z.stop ≤ 2 ^ 48) {z : Zone} (hz : z ∈ L.zones)
    (hstop : z.stop = 2 ^ 48) (hfuel : L.zones.length < fuel) :
    (Call.freePages z.dataBase).Allowed A ∧
    ¬Agree (s.call debug fuel (.freePages z.dataBase))
      (t.call debug fuel (Call.freePages z.dataBase).toDmap) := by
  have hpos := (h.inv.wf z hz).pos
  obtain ⟨-, hne, haddr, hlt⟩ := (h.inv.wf z hz).low (hlow z hz)
  have hpage : z.HasPage z.first := ⟨Nat.le_refl _, Nat.lt_add_of_pos_right hpos⟩
  have hnull : z.dataBase ≠ 0 := Nat.ne_of_gt (h.inv.page_bounds hz hpage).1
  refine ⟨⟨hnull, hlt, h.not_laterPage_dataBase hz⟩, ?_⟩
  -- before the transition the zone is found
  have hs : ∀ e, s.freePages debug fuel z.dataBase = .error e → e = .doubleFree := by
    intro e he
    rcases h.full.inUse_or_refuses z.dataBase with
      ⟨y, hy, i, hi, haddr, start, order, hown⟩ | ⟨e', hrefuses⟩
    · obtain ⟨s', hs'⟩ := h.freePages_inUse debug hnull hy hi haddr hown hfuel
      rw [hs'] at he
      cases he
    · rw [h.inv.freePages_refused h.lt hnull hrefuses debug hfuel] at he
      cases he
      cases hrefuses with
      | notOwned hout => exact absurd ⟨le_rfl, by omega⟩ (hout z hz)
      | notPageAligned _ _ hoff => exact absurd (Nat.mul_mod_left _ _) hoff
      | doubleFree => rfl
  have ht : ∃ e ≠ .doubleFree, t.freePages debug fuel (z.dataBase + dmapStart) = .error e := by
    rcases freePages_or debug fuel t (z.dataBase + dmapStart) with hover | heq
    · exact ⟨.overflow, by simp, hover⟩
    refine ⟨.notOwned, by simp, heq.trans ?_⟩
    have hfrom := (h.inv.toDmap hmoved hlow).freeFrom_wrapped (List.mem_map_of_mem hz)
      (by rw [z.toDmap_stop, hstop]; decide)
      ((hasPage_shift movesPages_toDmap).2 hpage) (by rwa [L.length_toDmap])
    rw [add_mul, dmapPages_mul] at hfrom
    rw [freePages, if_neg (Nat.add_pos_left (Nat.pos_of_ne_zero hnull) _).ne']
    exact hfrom
  obtain ⟨e, he, ht⟩ := ht
  simp only [call, Call.toDmap]
  rw [physAddrToDmap_of_lt hlt, ht]
  intro hagree
  cases hr : s.freePages debug fuel z.dataBase with
  | ok s' =>
    rw [hr] at hagree
    cases hagree
  | error e =>
    rw [hr] at hagree
    cases hagree
    exact he (hs _ hr)

lemma Tracks.not_simulates
    (hlow : ∀ r ∈ R, r.stop ≤ 2 ^ 48) (hfuel : L.zones.length < fuel) {r : Region} (hr : r ∈ R)
    (hbad : r.start = 0 ∨ r.stop = 2 ^ 48) : ¬Simulates debug fuel A s t := by
  intro hsim
  obtain ⟨himage, hagree⟩ := hsim A s t .start
  have hlow' : ∀ z ∈ L.zones, z.stop ≤ 2 ^ 48 := fun z hz => hlow _ (h.region_mem hz)
  rw [← h.regions] at hr
  obtain ⟨z, hz, rfl⟩ := List.mem_map.1 hr
  rcases hbad with hmeta | hstop
  · exact h.not_image hmoved hlow' hz hmeta himage
  · obtain ⟨hallowed, hnot⟩ := h.not_agree hmoved hlow' hz hstop hfuel
    exact hnot (hagree _ hallowed)

lemma Tracks.twin (hR : InsideLow R) :
    Twin R A s t L where
  tracks := h
  inv := h.inv.toDmap hmoved fun z hz => (h.insideLow hR z hz).2.le
  totalPages := hmoved.totalPages
  allocatedPages := hmoved.allocatedPages
  lowestAddress := hmoved.lowestAddress

end

/-- The transition returns from every state of a run. -/
lemma Reach.transition (h : Reach R A s) (hlow : ∀ r ∈ R, r.stop ≤ 2 ^ 48) (debug : Bool) :
    ∃ L n, Tracks R A s L ∧ ∀ fuel ≥ n, L.zones.length < fuel ∧
      ∃ t, s.transitionDmap debug fuel = .ok t ∧ State.Moved s L t := by
  obtain ⟨L, hL⟩ := h.exists_layout
  refine ⟨L, L.zones.length + (Finset.range maxOrder).sup (fun k => (L.lists k).length) + 1, hL,
    fun fuel hfuel => ⟨by omega, ?_⟩⟩
  refine hL.inv.transitionDmap (fun z hz => hlow _ (hL.region_mem hz)) h.isDmap (by omega) ?_
  intro k hk
  have hle := Finset.le_sup (f := fun k => (L.lists k).length) (Finset.mem_range.2 hk)
  omega

end Runs

/-- In every state of a run over ranges below `2 ^ 48` the transition returns, and it is a
simulation unless a range starts at the address 0 or ends at `2 ^ 48`. -/
theorem Reach.simulates_iff {R : List Region} {A : List Allocation} {s : State} (h : Reach R A s)
    (hlow : ∀ r ∈ R, r.stop ≤ 2 ^ 48) (debug : Bool) :
    ∃ n, ∀ fuel ≥ n, ∃ t, s.transitionDmap debug fuel = .ok t ∧
      (Simulates debug fuel A s t ↔ ∀ r ∈ R, r.start ≠ 0 ∧ r.stop ≠ 2 ^ 48) := by
  obtain ⟨L, n, hL, hn⟩ := h.transition hlow debug
  refine ⟨n, fun fuel hfuel => ?_⟩
  obtain ⟨hzones, t, ht, hmoved⟩ := hn fuel hfuel
  refine ⟨t, ht, fun hsim r hr => ?_, fun hR => ?_⟩
  · by_contra hbad
    refine hL.not_simulates hmoved hlow hzones hr ?_ hsim
    by_contra hgood
    exact hbad (not_or.1 hgood)
  · have hR' : InsideLow R := fun r hr =>
      ⟨(hR r hr).1, lt_of_le_of_ne (hlow r hr) (hR r hr).2⟩
    rw [hL.zones_length] at hzones
    exact (hL.twin hmoved hR').simulates hR' hzones

/-- One page is allocated, in a range that neither starts at 0 nor ends at `2 ^ 48`. -/
theorem Reach.simulates_of_alloc : ∃ s, Reach [⟨pageSize, 4 * pageSize⟩] [⟨2 * pageSize, 0⟩] s ∧
    ∃ n, ∀ fuel ≥ n, ∃ t, s.transitionDmap true fuel = .ok t ∧
      Simulates true fuel [⟨2 * pageSize, 0⟩] s t := by
  obtain ⟨s, hreach⟩ := reach_alloc_page
  have hlow : ∀ r ∈ [(⟨pageSize, 4 * pageSize⟩ : Region)], r.stop ≤ 2 ^ 48 :=
    List.forall_mem_singleton.2 (by decide)
  obtain ⟨n, hn⟩ := Reach.simulates_iff hreach hlow true
  refine ⟨s, hreach, n, fun fuel hfuel => ?_⟩
  obtain ⟨t, ht, hiff⟩ := hn fuel hfuel
  exact ⟨t, ht, hiff.2 (List.forall_mem_singleton.2 (by decide))⟩

lemma reach_three_pages {start : Nat} (hal : pageSize ∣ start)
    (hlow : start + 3 * pageSize ≤ 2 ^ 48) : ∃ s, Reach [⟨start, start + 3 * pageSize⟩] [] s := by
  have hlt : start < 2 ^ 48 := by
    rw [pageSize_eq] at hlow
    omega
  have hadd : ∃ s, (⟨.new, fun _ => 0⟩ : State).addRange true 3 start (start + 3 * pageSize) =
      .ok s := addRange_of_reserve hal (fun _ => isKernelAddress_of_lt hlt) (by decide)
        (show reservedPages 3 3 0 = .ok 1 from rfl)
  obtain ⟨s, hs⟩ := hadd
  exact ⟨s, Reach.addRange (.new _) (hlow.trans_lt (by decide)) (by simp) hs⟩

lemma reach_not_simulates {start : Nat} (hal : pageSize ∣ start)
    (hlow : start + 3 * pageSize ≤ 2 ^ 48)
    (hbad : start = 0 ∨ start + 3 * pageSize = 2 ^ 48) :
    ∃ s n, Reach [⟨start, start + 3 * pageSize⟩] [] s ∧ ∀ fuel ≥ n, ∃ t,
      s.transitionDmap true fuel = .ok t ∧ ¬Simulates true fuel [] s t := by
  obtain ⟨s, hreach⟩ := reach_three_pages hal hlow
  have hlow' : ∀ r ∈ [(⟨start, start + 3 * pageSize⟩ : Region)], r.stop ≤ 2 ^ 48 :=
    List.forall_mem_singleton.2 hlow
  obtain ⟨L, n, hL, hn⟩ := hreach.transition hlow' true
  refine ⟨s, n, hreach, fun fuel hfuel => ?_⟩
  obtain ⟨hzones, t, ht, hmoved⟩ := hn fuel hfuel
  exact ⟨t, ht, hL.not_simulates hmoved hlow' hzones (.head _) hbad⟩

/-- Three pages at the address 0 and three pages before `2 ^ 48`. -/
theorem Reach.not_simulates_three_pages :
    (∃ s n, Reach [⟨0, 3 * pageSize⟩] [] s ∧ ∀ fuel ≥ n, ∃ t,
      s.transitionDmap true fuel = .ok t ∧ ¬Simulates true fuel [] s t) ∧
    ∃ s n, Reach [⟨2 ^ 48 - 3 * pageSize, 2 ^ 48⟩] [] s ∧ ∀ fuel ≥ n, ∃ t,
      s.transitionDmap true fuel = .ok t ∧ ¬Simulates true fuel [] s t := by
  have hzero := reach_not_simulates (Nat.dvd_zero pageSize) (by decide) (.inl rfl)
  have hlast := reach_not_simulates (show pageSize ∣ 2 ^ 48 - 3 * pageSize by decide) (by decide)
    (.inr (by decide))
  exact ⟨hzero, hlast⟩

end Mars.Pm
