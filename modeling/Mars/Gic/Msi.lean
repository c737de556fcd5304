import Mars.Gic.LowestFirst
import Mathlib.Logic.Function.Basic

/-!
# Message-signalled interrupts

Embedding of the MSI part of `klib/src/interrupt/gicv3/mod.rs`. An event of a device is mapped to
an LPI in three places: the map from events to LPIs, the map from LPIs back to events, and the
allocator. A device is registered while it has an interrupt translation table.

Of the commands for the ITS there is only the outcome of the one that maps an event; they leave
nothing behind here. Each call holds the locks of what it changes to its end.
-/

namespace Mars.Gic

open Function LpiAllocator

inductive InterruptError where
  | invalidInterruptId
  | notSupported
  | msiNotSupported
  | outOfMemory
  | noAvailableLpi
  | lpiAlreadyUsed
  | commandQueueFull
  | hardwareStalled
  | commandTimeout
deriving DecidableEq, Repr

/-- How `push_cmd` ends. -/
inductive PushOutcome where
  | ok
  | full
  | stalled
  | timeout

def PushOutcome.result : PushOutcome → Except InterruptError Unit
  | .ok      => .ok ()
  | .full    => .error .commandQueueFull
  | .stalled => .error .hardwareStalled
  | .timeout => .error .commandTimeout

/-- `IttAllocation`: where the table of a device is and how long it is. -/
structure IttAllocation where
  ptr : Nat
  size : Nat

/-- The fields of `GicV3` that the MSI calls use. Device, event and interrupt ids are `u32`;
`H` is the type of interrupt handlers. -/
structure GicV3 (H : Type) where
  /-- There is an ITS. -/
  its : Bool
  /-- The field `ITTEntrySize` of the type register of the ITS. -/
  ittEntrySize : Nat
  deviceItts : Nat → Option IttAllocation
  lpiHandlers : Nat → Option H
  lpiAlloc : LpiAllocator
  lpiToEvent : Nat → Option (Nat × Nat × Nat)
  eventMappings : Nat × Nat → Option Nat

def LPI_START : Nat := 8192

def MAX_LPI_ID : Nat := 2 ^ 15 - 1

namespace GicV3

variable {H : Type}

/-- `GicV3::new` with an ITS. -/
def new (ittEntrySize : Nat) : GicV3 H :=
  { its := true
    ittEntrySize := ittEntrySize
    deviceItts := fun _ => none
    lpiHandlers := fun _ => none
    lpiAlloc := .new LPI_START MAX_LPI_ID
    lpiToEvent := fun _ => none
    eventMappings := fun _ => none }

/-- `itt_size`, in a `usize`. -/
def ittSize (s : GicV3 H) (numEventsLog2 : Nat) : Nat :=
  let bytes := 2 ^ numEventsLog2 * (s.ittEntrySize + 1) % 2 ^ 64
  (bytes + 255) / 256 * 256 % 2 ^ 64

/-- `msi_register_device`. The memory for the table is at `itt`, or there is none. -/
def msiRegisterDevice (s : GicV3 H) (itt : Option Nat) (deviceId numEventsLog2 : Nat) :
    Except InterruptError Unit × GicV3 H :=
  if !s.its then (.error .msiNotSupported, s)
  else
    let ittSize := s.ittSize numEventsLog2
    -- `Layout::from_size_align`
    if 2 ^ 63 - 256 < ittSize then (.error .outOfMemory, s)
    else
      match itt with
      | none     => (.error .notSupported, s)
      | some ptr =>
        (.ok (), { s with
          deviceItts := update s.deviceItts deviceId (some ⟨ptr, ittSize⟩) })

def msiUnregisterDevice (s : GicV3 H) (deviceId : Nat) : Except InterruptError Unit × GicV3 H :=
  (.ok (), { s with deviceItts := update s.deviceItts deviceId none })

/-- `msi_map_event` once the id `lpi` has been taken from the allocator, which is `alloc` now, with
the outcome of its command. -/
def mapLpi (s : GicV3 H) (o : PushOutcome) (deviceId eventId lpi icid : Nat)
    (alloc : LpiAllocator) : Except InterruptError Nat × GicV3 H :=
  if s.its then
    match o.result with
    | .error e => (.error e, { s with lpiAlloc := alloc })
    | .ok _    =>
      (.ok lpi, { s with
        lpiAlloc := alloc
        eventMappings := update s.eventMappings (deviceId, eventId) (some lpi)
        lpiToEvent := update s.lpiToEvent lpi (some (deviceId, eventId, icid)) })
  else (.error .msiNotSupported, { s with lpiAlloc := alloc.free lpi })

/-- `msi_map_event` with the outcome of its command. -/
def msiMapEvent (s : GicV3 H) (o : PushOutcome) (deviceId eventId : Nat) (lpiId : Option Nat)
    (cpu : Nat) : Except InterruptError Nat × GicV3 H :=
  match lpiId with
  | some id =>
    match s.lpiAlloc.reserve id with
    | none       => (.error .lpiAlreadyUsed, s)
    | some alloc => s.mapLpi o deviceId eventId id cpu alloc
  | none =>
    match s.lpiAlloc.alloc with
    | (none, alloc)     => (.error .noAvailableLpi, { s with lpiAlloc := alloc })
    | (some lpi, alloc) => s.mapLpi o deviceId eventId lpi cpu alloc

def msiUnmapEvent (s : GicV3 H) (deviceId eventId : Nat) : Except InterruptError Unit × GicV3 H :=
  if !s.its then (.ok (), s)
  else
    match s.eventMappings (deviceId, eventId) with
    | none     => (.ok (), s)
    | some lpi =>
      (.ok (), { s with
        eventMappings := update s.eventMappings (deviceId, eventId) none
        lpiToEvent := update s.lpiToEvent lpi none
        lpiAlloc := s.lpiAlloc.free lpi
        lpiHandlers := update s.lpiHandlers lpi none })

/-! ### Histories of calls -/

/-- The calls, with the memory the allocator returns for a table. The commands succeed. -/
inductive Call where
  | register (itt : Option Nat) (deviceId numEventsLog2 : Nat)
  | unregister (deviceId : Nat)
  | map (deviceId eventId : Nat) (lpiId : Option Nat) (cpu : Nat)
  | unmap (deviceId eventId : Nat)

def Call.run (s : GicV3 H) : Call → GicV3 H
  | .register itt d n => (s.msiRegisterDevice itt d n).2
  | .unregister d     => (s.msiUnregisterDevice d).2
  | .map d e lpi cpu  => (s.msiMapEvent .ok d e lpi cpu).2
  | .unmap d e        => (s.msiUnmapEvent d e).2

structure Exact (s : GicV3 H) : Prop where
  inverse : ∀ d e l, s.eventMappings (d, e) = some l ↔ ∃ icid, s.lpiToEvent l = some (d, e, icid)
  used : ∀ l, s.lpiAlloc.Used l ↔ ∃ k, s.eventMappings k = some l
  registered : ∀ d e l, s.eventMappings (d, e) = some l → (s.deviceItts d).isSome = true

/-- The id that is asked for is free, or there is a free one if none is asked for. -/
def Obtains (s : GicV3 H) (lpiId : Option Nat) : Prop :=
  ∃ l, (lpiId = none ∨ lpiId = some l) ∧ s.lpiAlloc.contains l ∧ ¬s.lpiAlloc.Used l

/-- Events are mapped for registered devices and one time only, and a device is unregistered
after all its events have been unmapped. -/
def Call.Orderly (s : GicV3 H) : Call → Prop
  | .map d e lpi _ => s.Obtains lpi →
      s.eventMappings (d, e) = none ∧ (s.deviceItts d).isSome = true
  | .unregister d => ∀ e, s.eventMappings (d, e) = none
  | _             => True

variable {s : GicV3 H}

/-! ### What a call changes -/

/-- `msi_map_event` obtains no id and changes no mark, or goes on with an id that was free. -/
lemma msiMapEvent_spec (h : s.lpiAlloc.HintInv) (o : PushOutcome) (d e : Nat) (lpi : Option Nat)
    (cpu : Nat) :
    (¬ s.Obtains lpi ∧ ∃ err a, s.msiMapEvent o d e lpi cpu =
        (.error err, { s with lpiAlloc := a }) ∧ a.HintInv ∧ ∀ l, a.Used l ↔ s.lpiAlloc.Used l) ∨
      s.Obtains lpi ∧ ∃ l a, s.msiMapEvent o d e lpi cpu = s.mapLpi o d e l cpu a ∧ a.HintInv ∧
        ¬ s.lpiAlloc.Used l ∧ s.lpiAlloc.Marks l true a := by
  unfold msiMapEvent
  cases lpi with
  | some id =>
    have hobtains : s.Obtains (some id) ↔ (s.lpiAlloc.reserve id).isSome := by
      rw [h.reserve_isSome, Obtains]
      simp
    rw [hobtains]
    cases hres : s.lpiAlloc.reserve id with
    | none =>
      exact .inl ⟨by simp, .lpiAlreadyUsed, s.lpiAlloc, by simp [hres], h, fun _ => Iff.rfl⟩
    | some a =>
      obtain ⟨hfree, hmarks⟩ := reserve_spec h.toWf hres
      exact .inr ⟨rfl, id, a, by simp [hres], h.reserve hres, hfree, hmarks⟩
  | none =>
    rcases halloc : s.lpiAlloc.alloc with ⟨r, a⟩
    obtain ⟨hinv, ⟨rfl, hall, hsame⟩ | ⟨id, rfl, hin, hfree, hmarks⟩⟩ := h.alloc_spec halloc
    · refine .inl ⟨?_, _, a, rfl, hinv, hsame⟩
      rintro ⟨l, -, hl, hfree⟩
      exact hfree (hall l hl)
    · exact .inr ⟨⟨id, .inl rfl, hin, hfree⟩, id, a, rfl, hinv, hfree, hmarks⟩

lemma mapLpi_ok (hits : s.its = true) (d e l cpu : Nat) (a : LpiAllocator) :
    s.mapLpi .ok d e l cpu a = (.ok l, { s with
      lpiAlloc := a
      eventMappings := update s.eventMappings (d, e) (some l)
      lpiToEvent := update s.lpiToEvent l (some (d, e, cpu)) }) := if_pos hits

/-- `msi_register_device` fails and changes nothing, or gives the device a table. -/
lemma msiRegisterDevice_spec (s : GicV3 H) (itt : Option Nat) (d n : Nat) :
    (s.msiRegisterDevice itt d n).2 = s ∨ ∃ i, (s.msiRegisterDevice itt d n).2 =
      { s with deviceItts := update s.deviceItts d (some i) } := by
  unfold msiRegisterDevice
  dsimp only
  split
  · exact .inl rfl
  split
  · exact .inl rfl
  cases itt with
  | none => exact .inl rfl
  | some ptr => exact .inr ⟨_, rfl⟩

lemma msiUnmapEvent_spec (hits : s.its = true) (d e : Nat) :
    (s.msiUnmapEvent d e).2 = s ∨ ∃ l, s.eventMappings (d, e) = some l ∧
      (s.msiUnmapEvent d e).2 = { s with
        eventMappings := update s.eventMappings (d, e) none
        lpiToEvent := update s.lpiToEvent l none
        lpiAlloc := s.lpiAlloc.free l
        lpiHandlers := update s.lpiHandlers l none } := by
  rw [msiUnmapEvent, hits]
  cases hl : s.eventMappings (d, e) with
  | none => exact .inl rfl
  | some l => exact .inr ⟨l, rfl, rfl⟩

lemma Exact.map (hx : s.Exact) {d e l cpu : Nat} {a : LpiAllocator}
    (hnone : s.eventMappings (d, e) = none) (hreg : (s.deviceItts d).isSome = true)
    (hfree : ¬ s.lpiAlloc.Used l) (hmarks : s.lpiAlloc.Marks l true a) :
    ({ s with
      lpiAlloc := a
      eventMappings := update s.eventMappings (d, e) (some l)
      lpiToEvent := update s.lpiToEvent l (some (d, e, cpu)) } : GicV3 H).Exact := by
  -- the id was in no map before
  have hunmapped : ∀ k, s.eventMappings k ≠ some l := fun k hk => hfree ((hx.used l).mpr ⟨k, hk⟩)
  refine ⟨?_, ?_, ?_⟩
  · intro d' e' l'
    by_cases hk : (d', e') = (d, e)
    · obtain ⟨rfl, rfl⟩ := Prod.mk.inj hk
      simp only [update_self, Option.some.injEq]
      constructor
      · rintro rfl
        exact ⟨cpu, update_self ..⟩
      · rintro ⟨icid, hl⟩
        by_contra hne
        rw [update_of_ne (Ne.symm hne)] at hl
        rw [(hx.inverse _ _ _).mpr ⟨icid, hl⟩] at hnone
        cases hnone
    · simp only [update_of_ne hk]
      rw [hx.inverse]
      by_cases hl : l' = l
      · subst hl
        simp only [update_self, Option.some.injEq, Prod.mk.injEq]
        constructor
        · rintro ⟨icid, hl⟩
          exact absurd ((hx.inverse _ _ _).mpr ⟨icid, hl⟩) (hunmapped _)
        · rintro ⟨icid, hd, he, -⟩
          exact absurd (by rw [hd, he]) hk
      · simp only [update_of_ne hl]
  · intro l'
    rw [hmarks.used]
    split_ifs with hl
    · refine iff_of_true rfl ⟨(d, e), ?_⟩
      rw [hl]
      exact update_self ..
    · rw [hx.used]
      constructor
      · rintro ⟨k, hk⟩
        refine ⟨k, ?_⟩
        have hne : k ≠ (d, e) := by
          rintro rfl
          rw [hnone] at hk
          cases hk
        exact (update_of_ne hne ..).trans hk
      · rintro ⟨k, hk⟩
        by_cases hkd : k = (d, e)
        · rw [hkd] at hk
          simp only [update_self, Option.some.injEq] at hk
          exact absurd hk.symm hl
        · exact ⟨k, (update_of_ne hkd ..).symm.trans hk⟩
  · intro d' e' l' h
    by_cases hk : (d', e') = (d, e)
    · rw [(Prod.mk.inj hk).1]
      exact hreg
    · exact hx.registered d' e' l' ((update_of_ne hk ..).symm.trans h)

lemma Exact.injective (hx : s.Exact) {k k' : Nat × Nat} {l : Nat}
    (hk : s.eventMappings k = some l) (hk' : s.eventMappings k' = some l) : k = k' := by
  obtain ⟨icid, h⟩ := (hx.inverse k.1 k.2 l).mp hk
  obtain ⟨icid', h'⟩ := (hx.inverse k'.1 k'.2 l).mp hk'
  rw [h] at h'
  obtain ⟨h₁, h₂, -⟩ : k.1 = k'.1 ∧ k.2 = k'.2 ∧ icid = icid' := by simpa using h'
  exact Prod.ext h₁ h₂

lemma Exact.unmap (hx : s.Exact) (hwf : s.lpiAlloc.Wf) {d e l : Nat}
    (hl : s.eventMappings (d, e) = some l) (handlers : Nat → Option H) :
    ({ s with
      eventMappings := update s.eventMappings (d, e) none
      lpiToEvent := update s.lpiToEvent l none
      lpiAlloc := s.lpiAlloc.free l
      lpiHandlers := handlers } : GicV3 H).Exact := by
  refine ⟨?_, ?_, ?_⟩
  · intro d' e' l'
    by_cases hl' : l' = l
    · subst hl'
      simp only [update_self, reduceCtorEq, exists_const, iff_false]
      intro h
      by_cases hk : (d', e') = (d, e)
      · rw [hk, update_self] at h
        cases h
      · rw [update_of_ne hk] at h
        exact hk (hx.injective h hl)
    · simp only [update_of_ne hl']
      rw [← hx.inverse]
      by_cases hk : (d', e') = (d, e)
      · rw [hk, update_self, hl]
        simpa using Ne.symm hl'
      · rw [update_of_ne hk]
  · intro l'
    rw [(free_spec hwf l).used]
    split_ifs with hl'
    · subst hl'
      refine iff_of_false (by simp) ?_
      rintro ⟨k, hk⟩
      by_cases hkd : k = (d, e)
      · simp [hkd] at hk
      · exact hkd (hx.injective ((update_of_ne hkd ..).symm.trans hk) hl)
    · rw [hx.used]
      refine exists_congr fun k => ?_
      by_cases hkd : k = (d, e)
      · simp [hkd, hl, Ne.symm hl']
      · simp only [update_of_ne hkd]
  · intro d' e' l' h
    dsimp only at h
    by_cases hk : (d', e') = (d, e)
    · rw [hk, update_self] at h
      cases h
    · exact hx.registered d' e' l' ((update_of_ne hk ..).symm.trans h)

/-- The allocator has a bit for every id and the ITS stays. -/
structure Wf (s : GicV3 H) : Prop where
  lpiAlloc : s.lpiAlloc.HintInv
  its : s.its = true

lemma Wf.run (h : s.Wf) (c : Call) : (c.run s).Wf := by
  obtain ⟨hinv, hits⟩ := h
  cases c with
  | register itt d n =>
    rw [Call.run]
    obtain heq | ⟨i, heq⟩ := s.msiRegisterDevice_spec itt d n
    · rw [heq]
      exact ⟨hinv, hits⟩
    · rw [heq]
      exact ⟨hinv, hits⟩
  | unregister d => exact ⟨hinv, hits⟩
  | map d e lpi cpu =>
    rw [Call.run]
    obtain ⟨-, err, a, heq, ha, -⟩ | ⟨-, l, a, heq, ha, -⟩ :=
      msiMapEvent_spec hinv .ok d e lpi cpu
    · rw [heq]
      exact ⟨ha, hits⟩
    · rw [heq, mapLpi_ok hits]
      exact ⟨ha, hits⟩
  | unmap d e =>
    rw [Call.run]
    obtain heq | ⟨l, -, heq⟩ := msiUnmapEvent_spec hits d e
    · rw [heq]
      exact ⟨hinv, hits⟩
    · rw [heq]
      exact ⟨hinv.free l, hits⟩

/-- Mapping an event keeps the bookkeeping exact exactly when the device is registered and the
event is not mapped yet. -/
lemma Exact.map_iff (hx : s.Exact) (h : s.Wf) (d e : Nat) (lpi : Option Nat) (cpu : Nat) :
    (s.msiMapEvent .ok d e lpi cpu).2.Exact ↔ Call.Orderly s (.map d e lpi cpu) := by
  obtain ⟨hnot, err, a, heq, -, hsame⟩ | ⟨hobtains, l, a, heq, -, hfree, hmarks⟩ :=
    msiMapEvent_spec h.lpiAlloc .ok d e lpi cpu
  · rw [heq]
    exact iff_of_true ⟨hx.inverse, fun l => (hsame l).trans (hx.used l), hx.registered⟩
      fun hobtains => absurd hobtains hnot
  · rw [heq, mapLpi_ok h.its]
    constructor
    · intro hx' _
      refine ⟨?_, hx'.registered d e l (update_self ..)⟩
      by_contra hsome
      obtain ⟨l₀, hl₀⟩ := Option.ne_none_iff_exists'.mp hsome
      -- the old id still leads to the event
      have hne : l₀ ≠ l := by
        rintro rfl
        exact hfree ((hx.used l₀).mpr ⟨_, hl₀⟩)
      obtain ⟨icid, hback⟩ := (hx.inverse d e l₀).mp hl₀
      have hold := (hx'.inverse d e l₀).mpr ⟨icid, (update_of_ne hne ..).trans hback⟩
      dsimp only at hold
      rw [update_self] at hold
      exact hne (Option.some.inj hold).symm
    · intro horderly
      obtain ⟨hnone, hreg⟩ := horderly hobtains
      exact hx.map hnone hreg hfree hmarks

lemma Exact.unregister_iff (hx : s.Exact) (d : Nat) :
    (s.msiUnregisterDevice d).2.Exact ↔ Call.Orderly s (.unregister d) := by
  constructor
  · intro hx' e
    by_contra hsome
    obtain ⟨l, hl⟩ := Option.ne_none_iff_exists'.mp hsome
    have hreg := hx'.registered d e l hl
    simp [msiUnregisterDevice] at hreg
  · intro hnone
    refine ⟨hx.inverse, hx.used, ?_⟩
    intro d' e l h
    have hne : d' ≠ d := by
      rintro rfl
      have hnone' := hnone e
      rw [show s.eventMappings (d', e) = some l from h] at hnone'
      cases hnone'
    exact (congrArg Option.isSome (update_of_ne hne ..)).trans (hx.registered d' e l h)

/-- One call keeps the bookkeeping exact exactly when it is orderly. -/
lemma Exact.run_iff (hx : s.Exact) (h : s.Wf) (c : Call) : (c.run s).Exact ↔ c.Orderly s := by
  cases c with
  | register itt d n =>
    refine iff_of_true ?_ trivial
    rw [Call.run]
    obtain heq | ⟨i, heq⟩ := s.msiRegisterDevice_spec itt d n
    · rw [heq]
      exact hx
    · rw [heq]
      refine ⟨hx.inverse, hx.used, ?_⟩
      intro d' e l hl
      dsimp only
      by_cases hd : d' = d
      · rw [hd, update_self]
        rfl
      · rw [update_of_ne hd]
        exact hx.registered d' e l hl
  | unregister d => exact hx.unregister_iff d
  | map d e lpi cpu => exact hx.map_iff h d e lpi cpu
  | unmap d e =>
    refine iff_of_true ?_ trivial
    rw [Call.run]
    obtain heq | ⟨l, hl, heq⟩ := msiUnmapEvent_spec h.its d e
    · rw [heq]
      exact hx
    · rw [heq]
      exact hx.unmap h.lpiAlloc.toWf hl _

/-! ### Runs -/

inductive Ordered (ittEntrySize : Nat) : GicV3 H → Prop where
  | new : Ordered ittEntrySize (GicV3.new ittEntrySize)
  | call {s : GicV3 H} (c : Call) (h : Ordered ittEntrySize s) (hc : c.Orderly s) :
      Ordered ittEntrySize (c.run s)

lemma wf_new (ittEntrySize : Nat) : (new ittEntrySize : GicV3 H).Wf :=
  ⟨hintInv_new (by decide), rfl⟩

lemma exact_new (ittEntrySize : Nat) : (new ittEntrySize : GicV3 H).Exact where
  inverse d e l := by simp [new]
  used l := iff_of_false (not_used_new _ _) (by simp [new])
  registered d e l h := by cases h

lemma Ordered.inv {n : Nat} (h : Ordered n s) : s.Wf ∧ s.Exact := by
  induction h with
  | new => exact ⟨wf_new n, exact_new n⟩
  | call c _ hc ih => exact ⟨ih.1.run c, (ih.2.run_iff ih.1 c).mpr hc⟩

/-- After any history of calls that maps events of registered devices once and unregisters
devices without mapped events, the two maps are inverse to each other, exactly the mapped LPIs
are in use, and no event of an unregistered device is left. The next call keeps this exactly when
it keeps to that order. -/
theorem Ordered.bookkeeping {n : Nat} (h : Ordered n s) :
    (∀ d e l, s.eventMappings (d, e) = some l ↔ ∃ icid, s.lpiToEvent l = some (d, e, icid)) ∧
      (∀ l, s.lpiAlloc.Used l ↔ ∃ k, s.eventMappings k = some l) ∧
      (∀ d e l, s.eventMappings (d, e) = some l → (s.deviceItts d).isSome = true) ∧
      ∀ c : Call, (c.run s).Exact ↔ c.Orderly s := by
  obtain ⟨hwf, hx⟩ := h.inv
  exact ⟨hx.inverse, hx.used, hx.registered, hx.run_iff hwf⟩

def runAll (s : GicV3 H) (calls : List Call) : GicV3 H := calls.foldl Call.run s

def mappedOnce : GicV3 Unit := (new 7).runAll [.register (some 4096) 1 0, .map 1 0 (some 8192) 0]

lemma ordered_mappedOnce : Ordered 7 mappedOnce :=
  .call (.map 1 0 (some 8192) 0) (.call (.register (some 4096) 1 0) .new trivial)
    fun _ => ⟨rfl, rfl⟩

/-- The event and its LPI lead to each other, and mapping the event again is not orderly. -/
theorem mappedOnce_bookkeeping : (∃ icid, mappedOnce.lpiToEvent 8192 = some (1, 0, icid)) ∧
    ¬ (Call.run mappedOnce (.map 1 0 (some 8193) 0)).Exact := by
  have hmapped : mappedOnce.eventMappings (1, 0) = some 8192 := by decide +kernel
  have hobtains : mappedOnce.Obtains (some 8193) := by
    refine ⟨8193, .inr rfl, by decide +kernel, ?_⟩
    rintro ⟨-, hbit⟩
    exact Bool.false_ne_true hbit
  obtain ⟨hinv, -, -, hiff⟩ := ordered_mappedOnce.bookkeeping
  refine ⟨(hinv 1 0 8192).mp hmapped, fun hx => ?_⟩
  have hnone := ((hiff _).mp hx hobtains).1
  cases hnone

/-- Mapping an event twice loses the first LPI: it is marked and leads to the event, but no event
is mapped to it. Unregistering the device leaves the event behind. -/
theorem mapped_twice_loses_lpi :
    let s : GicV3 Unit := mappedOnce.runAll [.map 1 0 none 0, .unregister 1]
    s.eventMappings (1, 0) = some 8193 ∧ s.lpiToEvent 8192 = some (1, 0, 0) ∧
      s.lpiAlloc.Used 8192 ∧ (s.deviceItts 1).isSome = false := by
  refine ⟨by decide +kernel, by decide +kernel, ⟨⟨?_, ?_⟩, ?_⟩, by decide +kernel⟩
  all_goals decide +kernel

end GicV3

end Mars.Gic
