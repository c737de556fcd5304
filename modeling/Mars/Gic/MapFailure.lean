import Mars.Gic.Msi

/-!
# Mappings that fail

`msi_map_event` takes an id from the allocator before it gives `MAPTI` to the ITS. If there is no
ITS the id goes back, but the operator `?` after the command returns with the id still taken.
-/

namespace Mars.Gic

open LpiAllocator

namespace GicV3

variable {H : Type}

/-- The ids in use and both maps are the same. -/
structure SameMappings (s s' : GicV3 H) : Prop where
  used : ∀ l, s'.lpiAlloc.Used l ↔ s.lpiAlloc.Used l
  eventMappings : s'.eventMappings = s.eventMappings
  lpiToEvent : s'.lpiToEvent = s.lpiToEvent

def NoTrace (s : GicV3 H) (res : Except InterruptError Nat × GicV3 H) : Prop :=
  ∀ err, res.1 = .error err → s.SameMappings res.2

variable {s : GicV3 H} {a : LpiAllocator} {lpi : Nat}

/-- With a taken id, the call leaves a trace if its command is refused. -/
lemma mapLpi_noTrace_iff (hwf : s.lpiAlloc.Wf) (hfree : ¬s.lpiAlloc.Used lpi)
    (hmarks : s.lpiAlloc.Marks lpi true a) (o : PushOutcome) (d e icid : Nat) :
    s.NoTrace (s.mapLpi o d e lpi icid a) ↔ (s.its = true → o = .ok) := by
  unfold mapLpi
  by_cases hits : s.its = true
  · -- the mark of the id is what a refused command leaves behind
    have htrace : ¬s.SameMappings { s with lpiAlloc := a } := by
      intro hsame
      exact hfree ((hsame.used lpi).1 ((hmarks.used lpi).2 (by simp)))
    rw [if_pos hits, forall_prop_of_true hits]
    cases o with
    | ok =>
      refine iff_of_true (fun err herr => ?_) rfl
      cases herr
    | full => exact iff_of_false (fun h => htrace (h _ rfl)) (by simp)
    | stalled => exact iff_of_false (fun h => htrace (h _ rfl)) (by simp)
    | timeout => exact iff_of_false (fun h => htrace (h _ rfl)) (by simp)
  · rw [if_neg hits]
    refine iff_of_true (fun err _ => ⟨fun l => ?_, rfl, rfl⟩) fun htrue => absurd htrue hits
    have hback := free_spec (hmarks.wf hwf) lpi
    rw [hback.used]
    split_ifs with hl
    · simpa [hl] using hfree
    · rw [hmarks.used, if_neg hl]

/-- A call that fails leaves no trace, unless it has obtained an id and the ITS refuses its
command. -/
theorem noTrace_iff (h : LpiAllocator.Reach LPI_START MAX_LPI_ID s.lpiAlloc) (o : PushOutcome)
    (d e : Nat) (lpiId : Option Nat) (cpu : Nat) :
    s.NoTrace (s.msiMapEvent o d e lpiId cpu) ↔
      (s.its = true → s.Obtains lpiId → o = .ok) := by
  obtain ⟨hinv, -⟩ := h.hintInv (by decide)
  obtain ⟨hnot, err, a, heq, -, hsame⟩ | ⟨hobtains, l, a, heq, -, hfree, hmarks⟩ :=
    msiMapEvent_spec hinv o d e lpiId cpu
  · rw [heq]
    exact iff_of_true (fun _ _ => ⟨hsame, rfl, rfl⟩) fun _ hobtains => absurd hobtains hnot
  · rw [heq, mapLpi_noTrace_iff hinv.toWf hfree hmarks]
    simp [hobtains]

theorem noTrace_outside : ∃ s : GicV3 Unit, s.its = true ∧
    (s.msiMapEvent .full 0 0 (some 0) 0).1 = .error .lpiAlreadyUsed ∧
    s.NoTrace (s.msiMapEvent .full 0 0 (some 0) 0) := by
  refine ⟨.new 0, rfl, rfl, (noTrace_iff .new .full 0 0 (some 0) 0).2 ?_⟩
  rintro - ⟨l, hl, hin, -⟩
  obtain rfl : 0 = l := by simpa using hl
  exact absurd hin.1 (by decide)

/-- The queue is full when the first event is mapped: its id stays in use. -/
theorem id_lost_when_full : ∃ s : GicV3 Unit, s.its = true ∧
    (s.msiMapEvent .full 0 0 none 0).1 = .error .commandQueueFull ∧
    ¬s.lpiAlloc.Used LPI_START ∧
    (s.msiMapEvent .full 0 0 none 0).2.lpiAlloc.Used LPI_START := by
  refine ⟨.new 0, rfl, ?_, ?_, ?_⟩
  · decide +kernel
  · exact not_used_new _ _
  · exact ⟨by decide +kernel, by decide +kernel⟩

end GicV3

end Mars.Gic
