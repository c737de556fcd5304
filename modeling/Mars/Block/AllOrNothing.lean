import Mars.Block.Accounting

/-!
# An access is all or nothing

`Consumer::access` runs through the layers down to the adapter. Each layer tests its own counts
first and stores them only after the layer below has succeeded, so the outcome of the adapter,
with the flush it may need, decides for all of them.
-/

namespace Mars.Block

variable {dev : Device} {g g' : Graph}

/-- Every count between `p` and the device has moved by `d`, and no other count has. -/
structure Graph.Moved (g g' : Graph) (p : Provider) (d : Counts) : Prop where
  adapter : ∀ k, g'.adapter.counts.count k = g.adapter.counts.count k + d.count k
  below : ∀ q ∈ p.chain, ∀ k, (g'.ownCounts q).count k = (g.ownCounts q).count k + d.count k
  others : ∀ id, (∀ q ∈ p.chain, q.id? ≠ some id) → g'.parentCounts id = g.parentCounts id

lemma Graph.ownCounts_setParentCounts (g : Graph) {q : Provider} {id : Nat} (h : q.id? ≠ some id)
    (c : Counts) : (g.setParentCounts id c).ownCounts q = g.ownCounts q := by
  cases q with
  | adapter => rfl
  | partition id' parent s n =>
    have hne : id' ≠ id := by
      rintro rfl
      exact h rfl
    simp only [Graph.ownCounts, Graph.setParentCounts, Function.update_of_ne hne]

/-- The layers of a successful `access`, by induction on the chain down to the adapter. -/
lemma Provider.access_moved (hg : g.Inv dev) {p : Provider} (hp : g.Live p) {d : Counts}
    (h : p.access d g = (.ok (), g')) : g.Moved g' p d := by
  induction p generalizing g' with
  | adapter =>
    rcases ha : g.adapter.access d with ⟨r, a⟩
    rw [Provider.access_adapter, ha] at h
    cases h
    obtain ⟨-, ⟨-, hcounts, hnn⟩ | ⟨hr, -⟩⟩ := HardwareAdapter.access_spec ha
    · refine ⟨?_, ?_, fun _ _ => rfl⟩
      · intro k
        rw [hcounts]
        exact Counts.count_add (hg.own_nonneg .adapter (.inl rfl)) hnn k
      · simp [Provider.chain]
    · exact absurd rfl hr
  | partition id parent s n ih =>
    have hmem := hp.mem
    have hfresh := hg.id_notMem_chain hmem
    rcases hca : consumerAccess (g.parentCounts id) d (parent.access d) g with ⟨r, c, g₁⟩
    rw [Provider.access_partition, hca] at h
    cases h
    rcases consumerAccess_cases hca with ⟨hr, -⟩ | ⟨hin, -, rfl, hnn⟩ | ⟨e, -, hr, -⟩
    · exact absurd rfl hr
    · have hmoved := ih (hg.parent_live _ _ _ _ hmem) hin
      refine ⟨hmoved.adapter, ?_, ?_⟩
      · intro q hq k
        rcases List.mem_cons.mp hq with rfl | hq
        · have hadd := Counts.count_add (hg.own_nonneg _ hp) hnn k
          simpa [Graph.ownCounts, Graph.setParentCounts] using hadd
        · rw [Graph.ownCounts_setParentCounts _ (hfresh q hq)]
          exact hmoved.below q hq k
      · intro id' hid'
        have hne : id' ≠ id := by
          rintro rfl
          exact hid' _ (.head _) rfl
        simp only [Graph.setParentCounts, Function.update_of_ne hne]
        exact hmoved.others id' fun q hq => hid' q (.tail _ hq)
    · cases hr

/-- In every graph, for every delta and whatever the device answers: a failed `access` changes no
count, and a successful one moves those of the consumer, of the consumers of all partitions below
it and of the adapter by exactly the delta. -/
theorem Reachable.access_all_or_nothing (h : Reachable dev g) {c c' : Consumer}
    (hc : c ∈ g.consumers) {d : Counts} {r : Except BlockError Unit}
    (hacc : c.access d g = (r, c', g')) :
    c'.provider = c.provider ∧ g'.consumers = g.consumers ∧
      match r with
      | .error _ => c'.counts = c.counts ∧ g.SameCounts g'
      | .ok _    =>
        (∀ k, c'.counts.count k = c.counts.count k + d.count k) ∧ g.Moved g' c.provider d := by
  have hg := h.inv
  have hlive := hg.consumer_live c hc
  obtain ⟨hshape, ⟨rfl, rfl, hnn, -⟩ | ⟨hr, rfl, hsame⟩⟩ := Consumer.access_spec hg hlive hacc
  · have hmoved := Provider.access_moved hg hlive (Consumer.access_provider hacc)
    refine ⟨rfl, hshape.consumers, ?_, hmoved⟩
    exact fun k => Counts.count_add (hg.consumer_nonneg c hc) hnn k
  · refine ⟨rfl, hshape.consumers, ?_⟩
    cases r with
    | error e => exact ⟨rfl, hsame⟩
    | ok u => exact absurd rfl hr

/-- A writer of a partition of the device that does not flush. -/
def nestedWriter : List Op :=
  [.attach .adapter, .partition 0 7 10 50, .attach (.partition 7 .adapter 10 50),
    .access 0 ⟨0, 1, 0⟩]

lemma nestedWriter_run : ∃ (g g' : Graph) (c c' : Consumer),
    (Graph.new failingDevice).runAll nestedWriter = some g ∧ c ∈ g.consumers ∧
      g.parentCounts 7 = ⟨0, 1, 0⟩ ∧ c.access ⟨1, -1, 0⟩ g = (.error .hardwareError, c', g') :=
  ⟨_, _, ⟨.partition 7 .adapter 10 50, ⟨0, 1, 0⟩⟩, _, rfl, (.head _), rfl, rfl⟩

/-- The failing flush reaches the writer through the partition, and the counts stay. -/
theorem access_nestedWriter : ∃ (g g' : Graph) (c c' : Consumer),
    (Graph.new failingDevice).runAll nestedWriter = some g ∧ c ∈ g.consumers ∧
      g.parentCounts 7 = ⟨0, 1, 0⟩ ∧
      c.access ⟨1, -1, 0⟩ g = (.error .hardwareError, c', g') ∧
      c'.counts = c.counts ∧ g.SameCounts g' := by
  obtain ⟨g, g', c, c', hrun, hc, hcounts, hacc⟩ := nestedWriter_run
  have hnothing := (reachable_runAll hrun).access_all_or_nothing hc hacc
  exact ⟨g, g', c, c', hrun, hc, hcounts, hacc, hnothing.2.2⟩

end Mars.Block
