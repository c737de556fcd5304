import Mars.Pm.ReachDmap

/-!
# The greatest address

`max_address` is computed from the zones. It is the greatest end of a zone below `2 ^ 64`: the end
of a zone at `2 ^ 64` is read as 0.
-/

namespace Mars.Pm

open Lib Lib.Bits Lib.DList Lib.Ownership Vm State

lemma foldl_maxStop_bounds (zs : List Zone) (m : Nat) :
    m ≤ zs.foldl Zone.maxStop m ∧ (∀ z ∈ zs, z.stop % 2 ^ 64 ≤ zs.foldl Zone.maxStop m) ∧
      (zs.foldl Zone.maxStop m = m ∨ ∃ z ∈ zs, zs.foldl Zone.maxStop m = z.stop % 2 ^ 64) := by
  induction zs generalizing m with
  | nil => exact ⟨Nat.le_refl _, by simp, .inl rfl⟩
  | cons z zs ih =>
    obtain ⟨hle, hmax, hattained⟩ := ih (z.maxStop m)
    have hstep : m ≤ z.maxStop m ∧ z.stop % 2 ^ 64 ≤ z.maxStop m ∧
        (z.maxStop m = m ∨ z.maxStop m = z.stop % 2 ^ 64) := by
      rw [Zone.maxStop]
      split_ifs with hlt
      · exact ⟨hlt.le, Nat.le_refl _, .inr rfl⟩
      · exact ⟨Nat.le_refl _, not_lt.1 hlt, .inl rfl⟩
    obtain ⟨hm, hz, heq⟩ := hstep
    rw [List.foldl_cons]
    refine ⟨hm.trans hle, List.forall_mem_cons.2 ⟨hz.trans hle, hmax⟩, ?_⟩
    rcases hattained with hattained | ⟨y, hy, hattained⟩
    · rw [hattained]
      rcases heq with heq | heq
      · exact .inl heq
      · exact .inr ⟨z, (.head _), heq⟩
    · exact .inr ⟨y, List.mem_cons_of_mem _ hy, hattained⟩

lemma State.maxAddress_or (debug : Bool) (fuel : Nat) (s : State) :
    s.maxAddress debug fuel = .error .overflow ∨
      s.maxAddress debug fuel = s.maxAddress false fuel := by
  have hfrom : ∀ head max, maxAddressFrom debug s.mem fuel head max = .error .overflow ∨
      maxAddressFrom debug s.mem fuel head max = maxAddressFrom false s.mem fuel head max := by
    induction fuel with
    | zero => exact fun _ _ => .inr rfl
    | succ fuel ih =>
      intro head max
      rw [maxAddressFrom, maxAddressFrom]
      by_cases hhead : head = 0
      · exact .inr (by rw [if_pos hhead, if_pos hhead])
      rw [if_neg hhead, if_neg hhead]
      rcases zoneEnd_or debug s.mem head with hover | heq
      · exact .inl (by rw [hover]; rfl)
      rw [heq]
      cases zoneEnd false s.mem head with
      | error e => exact .inr rfl
      | ok stop => exact ih _ _
  exact hfrom _ _

namespace Spans

variable {R : List Region} {A : List Allocation} {s : State} {L : Layout} {z z' : Zone}

lemma maxAddress (h : Spans R A s L) {debug : Bool} (hend : EndsFit debug L.zones) {fuel : Nat}
    (hfuel : R.length < fuel) : ∃ max, s.maxAddress debug fuel = .ok max ∧
      (∀ z ∈ L.zones, z.stop % 2 ^ 64 ≤ max) ∧
      (max = 0 ∨ ∃ z ∈ L.zones, max = z.stop % 2 ^ 64) := by
  have hlen : L.zones.length = R.length := by
    have hstops := congrArg List.length h.stops
    rwa [List.length_map, List.length_map] at hstops
  obtain ⟨-, hle, hattained⟩ := foldl_maxStop_bounds L.zones 0
  refine ⟨_, maxAddressFrom_eq (fun z hz => h.managed.inv.zone_addr_ne_zero hz) hend
    h.managed.inv.chain ?_, hle, hattained⟩
  rwa [hlen]

lemma exists_zone_of_region (h : Spans R A s L) {r : Region} (hr : r ∈ R) :
    ∃ z ∈ L.zones, z.stop = r.stop + dmapStart := by
  have hmem : r.stop + dmapStart ∈ L.zones.map Zone.stop := by
    rw [h.stops]
    exact List.mem_map_of_mem hr
  exact List.mem_map.1 hmem

lemma exists_region_of_zone (h : Spans R A s L) (hz : z ∈ L.zones) :
    ∃ r ∈ R, z.stop = r.stop + dmapStart := by
  have hmem : z.stop ∈ R.map fun r => r.stop + dmapStart := by
    rw [← h.stops]
    exact List.mem_map_of_mem hz
  obtain ⟨r, hr, hstop⟩ := List.mem_map.1 hmem
  exact ⟨r, hr, hstop.symm⟩

/-- A zone at the end of the address space is behind all others. -/
lemma stop_le_dataBase (h : Spans R A s L) (hz : z ∈ L.zones) (hstop : z.stop = 2 ^ 64)
    (hz' : z' ∈ L.zones) (hne : z' ≠ z) : z'.stop ≤ z.dataBase := by
  have hinv := h.managed.inv
  have hwf := hinv.wf z' hz'
  have hle := hwf.le
  have hlt : z'.dataBase < z'.stop := by
    have := hwf.pos
    rw [Zone.dataBase, Zone.stop, pageSize_eq]
    omega
  by_contra hnot
  refine hinv.disjoint_of_ne hz' hz hne (z'.stop - 1) (.inr ⟨?_, ?_⟩) (.inr ⟨?_, ?_⟩) <;> omega

end Spans

end Mars.Pm
