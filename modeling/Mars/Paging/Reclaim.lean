import Mars.Paging.Mapper

/-!
# Tables that go when pages are unmapped

`unmap_page` frees the tables that become empty. A table that covers the pages that are unmapped
one after the other is freed on the way exactly if no table below it was empty at first and no
other page is mapped below it.
-/

namespace Mars.Paging

open Function Lib.NodeTree Heap

variable {AP SH X : Type} {A : TableAllocator X} {tr : AddressTranslator}
  {S : AllocatorSpec A tr} {h h' : Heap AP SH X} {r t : UInt64} {p q : List Index} {i : Index}
  {n : TTable AP SH}

/-! ### Tables on the way to others -/

lemma Heap.tableAt_of_entryAt {e : Tte AP SH} (he : h.entryAt tr r q i = some e) :
    ∃ t, h.tableAt tr r q = some t := by
  cases ht : h.tableAt tr r q with
  | none =>
    rw [entryAt_none (nodeAt_of_follow_none ht)] at he
    cases he
  | some t => exact ⟨t, rfl⟩

lemma Heap.tableAt_congr (htables : h'.tables = h.tables) (p : List Index) :
    h'.tableAt tr r p = h.tableAt tr r p := by
  rw [Heap.tableAt, htables]

lemma Heap.entryAt_congr (htables : h'.tables = h.tables) (p : List Index) (i : Index) :
    h'.entryAt tr r p i = h.entryAt tr r p i := by
  rw [Heap.entryAt, Heap.entriesAt, htables]
  rfl

lemma Tte.child_isSome (e : Tte AP SH) : (e.child tr).isSome = e.isValid := by
  cases hv : e.isValid with
  | true => rw [Tte.child_of_valid hv]; rfl
  | false => rw [Tte.child_of_not_valid hv]; rfl

lemma Heap.tableAt_snoc_isSome (hq : h.tableAt tr r q = some t) (hn : h.tables t = some n)
    (i : Index) : (h.tableAt tr r (q ++ [i])).isSome = (n i).isValid := by
  rw [Heap.tableAt, follow_snoc_of_node hq hn, Tte.child_isSome]

lemma Heap.entryAt_isSome (hn : h.entriesAt tr r q = some n) (i : Index) :
    (h.entryAt tr r q i).isSome = (n i).isValid := by
  rw [entryAt_eq hn, Tte.valid?]
  cases (n i).isValid <;> rfl

/-! ### The fate of a table -/

/-- The table at `p` goes if the pages in `V` are unmapped: no table below it is empty, and no
other page is mapped there. -/
def Doomed (tr : AddressTranslator) (r : UInt64) (h : Heap AP SH X) (p : List Index)
    (V : List Index → Index → Prop) : Prop :=
  h.Occupied tr r (p <+: ·) [] ∧
    ∀ q i, q.length = 3 → p <+: q → (h.entryAt tr r q i).isSome → V q i

/-- Once the pages are unmapped, the table is not there any more. -/
lemma Doomed.gone (hI : h.Inv S r) (hp : p ≠ []) (hpd : p.length ≤ 3)
    (hD : Doomed tr r h p fun _ _ => False) : h.tableAt tr r p = none := by
  -- a table at or below `p` leads to a mapped page, by induction on what is left of the way
  have hpage : ∀ k q t, q.length + k = 3 → p <+: q → h.tableAt tr r q = some t → False := by
    intro k
    induction k with
    | zero =>
      intro q t hq hpq ht
      obtain ⟨m, -, hentries⟩ := hI.alive ht hq.le
      have hne : q ≠ [] := by
        rintro rfl
        cases hq
      obtain ⟨i, hi⟩ := hD.1 q m hpq hq.le hne hne hentries
      refine hD.2 q i hq hpq ?_
      rw [entryAt_isSome hentries, hi]
    | succ k ih =>
      intro q t hq hpq ht
      have hlt : q.length < 3 := by omega
      obtain ⟨m, hm, hentries⟩ := hI.alive ht hlt.le
      have hne : q ≠ [] := by
        rintro rfl
        exact hp (List.prefix_nil.1 hpq)
      obtain ⟨i, hi⟩ := hD.1 q m hpq hlt.le hne hne hentries
      rw [← tableAt_snoc_isSome ht hm] at hi
      obtain ⟨u, hu⟩ := Option.isSome_iff_exists.1 hi
      refine ih (q ++ [i]) u ?_ (hpq.trans (List.prefix_append q [i])) hu
      rw [List.length_append, List.length_singleton]
      omega
  cases ht : h.tableAt tr r p with
  | none => rfl
  | some t => exact (hpage (3 - p.length) p t (by omega) List.prefix_rfl ht).elim

variable {V V' : List Index → Index → Prop} {va : UInt64}

lemma Doomed.congr (hD : Doomed tr r h p V) (htables : h'.tables = h.tables) :
    Doomed tr r h' p V := by
  unfold Doomed Heap.Occupied Heap.entriesAt at *
  simp only [entryAt_congr htables, htables]
  exact hD

lemma Doomed.unmaps (hD : Doomed tr r h p V) (hunmaps : h.Unmaps S r va h')
    (hV : ∀ q i, V q i → ¬ (q = pathOf va ∧ i = calculateIndex va 3) → V' q i) :
    Doomed tr r h' p V' := by
  refine ⟨hunmaps.occupied _ hD.1, ?_⟩
  intro q i hq hpq hentry
  rw [hunmaps.entryAt q i hq] at hentry
  split_ifs at hentry with hva
  · cases hentry
  · exact hV q i (hD.2 q i hq hpq hentry) hva

lemma Heap.not_prefix_of_empty (ht : h.tableAt tr r q = some t)
    (hn : h.tables t = some n) (hempty : ∀ i, (n i).isValid = false) (hq : q <+: pathOf va)
    (hentry : (h.entryAt tr r (pathOf va) (calculateIndex va 3)).isSome) : False := by
  obtain ⟨q', hq'⟩ := hq
  cases q' with
  | nil =>
    rw [List.append_nil] at hq'
    rw [← hq', entryAt_isSome ((nodeAt_of_follow ht).trans hn), hempty] at hentry
    cases hentry
  | cons j q' =>
    obtain ⟨e, he⟩ := Option.isSome_iff_exists.1 hentry
    obtain ⟨u, hu⟩ := tableAt_of_entryAt he
    have hpre : q ++ [j] <+: pathOf va := ⟨q', by rw [← hq', List.append_assoc]; rfl⟩
    obtain ⟨v, hv⟩ := tableAt_of_prefix hpre hu
    have hsome := tableAt_snoc_isSome ht hn j
    rw [hv, hempty] at hsome
    cases hsome

/-- An empty table stays, and it stays empty. -/
lemma Heap.Unmaps.empty_stays (hunmaps : h.Unmaps S r va h') (hq : q.length ≤ 3)
    (ht : h.tableAt tr r q = some t) (hn : h.tables t = some n)
    (hempty : ∀ i, (n i).isValid = false) :
    ∃ m, h'.tableAt tr r q = some t ∧ h'.entriesAt tr r q = some m ∧
      ∀ i, (m i).isValid = false := by
  cases ht' : h'.tableAt tr r q with
  | none =>
    obtain ⟨hpre, hentry⟩ := hunmaps.removed q t hq ht ht'
    exact (not_prefix_of_empty ht hn hempty hpre hentry).elim
  | some u =>
    obtain ⟨hu, -⟩ := hunmaps.shrinks q u hq ht'
    obtain rfl : t = u := Option.some.inj (ht.symm.trans hu)
    obtain ⟨m, hm, hentries⟩ := hunmaps.inv.alive ht' hq
    refine ⟨m, rfl, hentries, ?_⟩
    intro i
    rcases Nat.lt_or_eq_of_le hq with hlt | heq
    · -- a table below would have been there before
      rw [← tableAt_snoc_isSome ht' hm, Option.isSome_eq_false_iff, Option.isNone_iff_eq_none]
      cases hv : h'.tableAt tr r (q ++ [i]) with
      | none => rfl
      | some v =>
        obtain ⟨hv', -⟩ := hunmaps.shrinks _ v (length_snoc_le hlt i) hv
        have hsome := tableAt_snoc_isSome ht hn i
        rw [hv', hempty] at hsome
        cases hsome
    · have hentry := hunmaps.entryAt q i heq
      have hold : h.entryAt tr r q i = none := by
        rw [entryAt_eq ((nodeAt_of_follow ht).trans hn), Tte.valid?, hempty]
        rfl
      rw [hold, ite_self] at hentry
      rw [← entryAt_isSome hentries, hentry]
      rfl

/-- A table that is not doomed stays, and it is not doomed later. -/
lemma not_doomed_unmaps (hD : ¬ Doomed tr r h p V) (hunmaps : h.Unmaps S r va h')
    (hV : ∀ q i, V' q i → V q i) (hva : V (pathOf va) (calculateIndex va 3)) :
    (∃ t, h'.tableAt tr r p = some t) ∧ ¬ Doomed tr r h' p V' := by
  by_cases hocc : h.Occupied tr r (p <+: ·) []
  · -- a page outside of `V` is mapped below `p`
    have hpages : ¬ ∀ q i, q.length = 3 → p <+: q → (h.entryAt tr r q i).isSome → V q i :=
      fun hall => hD ⟨hocc, hall⟩
    push Not at hpages
    obtain ⟨q, i, hq, hpq, hentry, hnot⟩ := hpages
    have hne : ¬ (q = pathOf va ∧ i = calculateIndex va 3) := by
      rintro ⟨rfl, rfl⟩
      exact hnot hva
    have hentry' : (h'.entryAt tr r q i).isSome := by
      rw [hunmaps.entryAt q i hq, if_neg hne]
      exact hentry
    constructor
    · obtain ⟨e, he⟩ := Option.isSome_iff_exists.1 hentry'
      obtain ⟨t, ht⟩ := tableAt_of_entryAt he
      exact tableAt_of_prefix hpq ht
    · intro hD'
      exact hnot (hV q i (hD'.2 q i hq hpq hentry'))
  · -- an empty table is at or below `p`
    unfold Heap.Occupied at hocc
    push Not at hocc
    obtain ⟨q, n, hpq, hq, hne, -, hentries, hempty⟩ := hocc
    obtain ⟨t, ht, hn⟩ := Option.bind_eq_some_iff.1 hentries
    simp only [Bool.not_eq_true] at hempty
    obtain ⟨m, ht', hm, hempty'⟩ := hunmaps.empty_stays hq ht hn hempty
    constructor
    · exact tableAt_of_prefix hpq ht'
    · intro hD'
      obtain ⟨i, hi⟩ := hD'.1 q m hpq hq hne hne hm
      rw [hempty' i] at hi
      cases hi

/-! ### Allocators that refuse to free a table -/

section Refuses

variable {L : UInt64 → Prop} {A' : TableAllocator X}

/-- `A'` is `A`, but it does not return from freeing a table in `L`. -/
def Refuses (L : UInt64 → Prop) (A A' : TableAllocator X) : Prop :=
  ∀ t x, (L t → A'.freeTable t x = .error .deadlock) ∧
    (¬ L t → A'.freeTable t x = A.freeTable t x)

/-- A call that returns `h'` with `A` does the same with `A'`, unless a table in `L` goes. -/
def Agrees (L : UInt64 → Prop) (h h' : Heap AP SH X) (res : Except Trap (Heap AP SH X)) : Prop :=
  (res = .ok h' ∧ ∀ t, L t → (h.tables t).isSome → (h'.tables t).isSome) ∨
    (res = .error .deadlock ∧ ∃ t, L t ∧ (h.tables t).isSome ∧ h'.tables t = none)

/-- A table that is not alive stays so. -/
def NoneRevived (h h' : Heap AP SH X) : Prop := ∀ t, h.tables t = none → h'.tables t = none

lemma reclaim_agrees (hA : Refuses L A A') {u : UInt64} {e : Tte AP SH}
    {next next' : Heap AP SH X → Except Trap (Heap AP SH X)}
    (hnext : ∀ h₁, next h₁ = .ok h' → Agrees L h₁ h' (next' h₁) ∧ NoneRevived h₁ h')
    (hok : reclaim A h u t i e next = .ok h') :
    Agrees L h h' (reclaim A' h u t i e next') ∧ NoneRevived h h' := by
  cases hu : h.tables u with
  | none =>
    simp only [reclaim, Heap.isTableEmpty, hu] at hok
    cases hok
  | some m =>
  rw [reclaim, isTableEmpty_eq hu] at hok ⊢
  simp only [bind, Except.bind] at hok ⊢
  by_cases hempty : decide (∀ j, (m j).isValid = false) = true
  · rw [if_pos hempty] at hok ⊢
    simp only [Heap.freeTable, hu, bind, Except.bind] at hok ⊢
    cases hx : A.freeTable u h.allocator with
    | error err =>
      rw [hx] at hok
      cases hok
    | ok x =>
      simp only [hx, Heap.writeEntry] at hok
      cases ht : update h.tables u none t with
      | none =>
        simp only [ht] at hok
        cases hok
      | some n =>
      simp only [ht] at hok
      obtain ⟨hagrees, hrevived⟩ := hnext _ hok
      have hdead : (setEntry (update h.tables u none) t i e.clear) u = none := by
        rw [← Option.isNone_iff_eq_none, ← Option.isSome_eq_false_iff, setEntry_isSome, update_self]
        rfl
      have hsome : ∀ v, v ≠ u → (setEntry (update h.tables u none) t i e.clear v).isSome =
          (h.tables v).isSome := by
        intro v hv
        rw [setEntry_isSome, update_of_ne hv]
      refine ⟨?_, ?_⟩
      · by_cases hL : L u
        · rw [(hA u _).1 hL]
          exact .inr ⟨rfl, u, hL, by rw [hu]; rfl, hrevived u hdead⟩
        · rw [(hA u _).2 hL, hx]
          simp only [Heap.writeEntry, ht]
          have hne : ∀ v, L v → v ≠ u := by
            rintro v hv rfl
            exact hL hv
          refine hagrees.imp (And.imp_right ?_) (And.imp_right ?_)
          · intro hall v hv hvh
            exact hall v hv ((hsome v (hne v hv)).trans hvh)
          · rintro ⟨v, hv, hvh, hgone⟩
            exact ⟨v, hv, (hsome v (hne v hv)).symm.trans hvh, hgone⟩
      · intro v hv
        refine hrevived v ?_
        by_cases hvu : v = u
        · rw [hvu]
          exact hdead
        · rw [← Option.isNone_iff_eq_none, ← Option.isSome_eq_false_iff]
          rw [hsome v hvu, hv]
          rfl
  · rw [if_neg hempty] at hok ⊢
    cases hok
    exact ⟨.inl ⟨rfl, fun _ _ hv => hv⟩, fun _ hv => hv⟩

/-- Reading an entry and returning early does not depend on the allocator. -/
lemma agrees_read {res : Tte AP SH → Except Trap (Heap AP SH X)}
    {res' : Tte AP SH → Except Trap (Heap AP SH X)} {done : Tte AP SH → Bool}
    (hok : (h.readEntry t i >>= fun e => if done e then .ok h else res e) = .ok h')
    (hres : ∀ e, res e = .ok h' → Agrees L h h' (res' e)) :
    Agrees L h h' (h.readEntry t i >>= fun e => if done e then .ok h else res' e) := by
  cases he : h.readEntry t i with
  | error err =>
    rw [he] at hok
    cases hok
  | ok e =>
    rw [he] at hok
    simp only [bind, Except.bind] at hok ⊢
    cases hdone : done e with
    | true =>
      rw [hdone] at hok
      cases hok
      exact .inl ⟨rfl, fun _ _ hv => hv⟩
    | false =>
      rw [hdone] at hok
      exact hres e hok

/-- `unmap_page` agrees for both allocators, unless it frees a table in `L`. -/
lemma unmapPage_agrees (hA : Refuses L A A') (hok : unmapPage A tr h r va = .ok h') :
    Agrees L h h' (unmapPage A' tr h r va) := by
  refine agrees_read hok fun e0 hok => ?_
  refine agrees_read hok fun e1 hok => ?_
  refine agrees_read hok fun e2 hok => ?_
  refine agrees_read hok fun e3 hok => ?_
  cases hn : h.tables (tr.physToDmap e2.address) with
  | none =>
    simp only [Heap.writeEntry, hn] at hok
    cases hok
  | some n =>
    rw [writeEntry_eq hn] at hok ⊢
    have hend : ∀ h₁, (.ok h₁ : Except Trap (Heap AP SH X)) = .ok h' →
        Agrees L h₁ h' (.ok h₁) ∧ NoneRevived h₁ h' := by
      intro h₁ heq
      cases heq
      exact ⟨.inl ⟨rfl, fun _ _ hv => hv⟩, fun _ hv => hv⟩
    have hcascade := reclaim_agrees hA (fun h₁ hok₁ => reclaim_agrees hA
      (fun h₂ hok₂ => reclaim_agrees hA (fun h₃ hok₃ => hend h₃ hok₃) hok₂) hok₁) hok
    simp only [Agrees, setEntry_isSome] at hcascade
    exact hcascade.1

end Refuses

end Mars.Paging
