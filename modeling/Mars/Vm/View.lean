import Mars.Vm.Basic
import Mars.Paging.Reclaim

/-!
# The statuses of an address space

The table allocator of an address space behaves like the one it wraps, and keeps the statuses
of the tables that it is not called for. `view` reads the status of a page off the tables and the
descriptors.
-/

namespace Mars.Vm

open Function Paging Lib.NodeTree UserAllocator

variable {AP SH X : Type} {U : UserAllocator X}

/-! ### The table allocator -/

/-- A table on a page of its own that has a descriptor and that the translator finds again. -/
structure UserAllocator.Tracked (U : UserAllocator X) (t : UInt64) : Prop where
  translate : U.translator.physToDmap (U.translator.dmapToPhys t) = t
  aligned : (U.translator.dmapToPhys t).toNat % 2 ^ pageShift = 0
  described : ∃ d, U.descriptor (U.translator.dmapToPhys t) = .ok d

/-- How the wrapped allocator behaves: it hands out pages that have a descriptor. -/
structure UserAllocator.Spec (U : UserAllocator X) where
  base : AllocatorSpec U.inner U.translator
  tracked : ∀ x t x', U.inner.allocTable x = .ok (t, x') → U.Tracked t

lemma PageDescriptors.getPageDescriptor_ok {P : PageDescriptors} {pa : UInt64} {d : Nat}
    (h : P.getPageDescriptor pa = .ok d) :
    P.start ≤ pa.toNat ∧ (pa.toNat - P.start) / 2 ^ pageShift = d := by
  unfold getPageDescriptor at h
  split_ifs at h with hrange
  · dsimp only at h
    split_ifs at h
    cases h
    exact ⟨hrange.1, rfl⟩

lemma UserAllocator.Tracked.eq_of_descriptor {t u : UInt64} {d : Nat} (ht : U.Tracked t)
    (hu : U.Tracked u) (htd : U.descriptor (U.translator.dmapToPhys t) = .ok d)
    (hud : U.descriptor (U.translator.dmapToPhys u) = .ok d) : t = u := by
  have hpa : U.translator.dmapToPhys t = U.translator.dmapToPhys u := by
    rw [descriptor] at htd hud
    cases hP : U.descriptors with
    | none =>
      rw [hP] at htd
      cases htd
    | some P =>
      rw [hP] at htd hud
      obtain ⟨hst, hdt⟩ := PageDescriptors.getPageDescriptor_ok htd
      obtain ⟨hsu, hdu⟩ := PageDescriptors.getPageDescriptor_ok hud
      have hta := ht.aligned
      have hua := hu.aligned
      rw [← UInt64.toNat_inj]
      unfold pageShift at *
      omega
  rw [← ht.translate, hpa, hu.translate]

lemma acquire_none (d : Nat) (mode : Mode) : acquire .none d mode = .ok () := rfl

section Calls

variable {g : Guards} {x x' : UserState AP X} {t : UInt64}

lemma UserAllocator.allocTable_ok (h : (U.tables g).allocTable x = .ok (t, x')) :
    ∃ y d, U.inner.allocTable x.inner = .ok (t, y) ∧
      U.descriptor (U.translator.dmapToPhys t) = .ok d ∧ x' = ⟨y, update x.metas d none⟩ := by
  obtain ⟨⟨u, y⟩, hx, h⟩ := ok_of_bind h
  obtain ⟨d, hd, h⟩ := ok_of_bind h
  obtain ⟨-, -, h⟩ := ok_of_bind h
  cases h
  exact ⟨y, d, hx, hd, rfl⟩

lemma UserAllocator.freeTable_ok (h : (U.tables g).freeTable t x = .ok x') :
    ∃ y d, U.inner.freeTable t x.inner = .ok y ∧
      U.descriptor (U.translator.dmapToPhys t) = .ok d ∧ x' = ⟨y, update x.metas d none⟩ := by
  obtain ⟨d, hd, h⟩ := ok_of_bind h
  obtain ⟨-, -, h⟩ := ok_of_bind h
  obtain ⟨y, hx, h⟩ := ok_of_bind h
  cases h
  exact ⟨y, d, hx, hd, rfl⟩

/-- While no lock is held, freeing a table of the wrapped allocator succeeds. -/
lemma UserAllocator.freeTable_of_inner {y : X} (ht : U.Tracked t)
    (hx : U.inner.freeTable t x.inner = .ok y) : ∃ x', (U.tables .none).freeTable t x = .ok x' := by
  obtain ⟨d, hd⟩ := ht.described
  refine ⟨⟨y, update x.metas d none⟩, ?_⟩
  simp only [tables, bind, Except.bind, hd, acquire_none, hx]

/-- While no lock is held, a call of `alloc_table` fails only if the wrapped allocator does. -/
lemma UserAllocator.allocTable_error (B : U.Spec) {e : Trap}
    (h : (U.tables .none).allocTable x = .error e) : U.inner.allocTable x.inner = .error e := by
  simp only [tables, bind, Except.bind] at h
  cases hx : U.inner.allocTable x.inner with
  | error e' =>
    simp only [hx] at h
    cases h
    rfl
  | ok res =>
    obtain ⟨u, y⟩ := res
    obtain ⟨d, hd⟩ := (B.tracked _ _ _ hx).described
    simp only [hx, hd, acquire_none] at h
    cases h

end Calls

/-- The table allocator of an address space is a table allocator. -/
def UserAllocator.Spec.user (B : U.Spec) :
    AllocatorSpec (U.tables .none : TableAllocator (UserState AP X)) U.translator where
  live := fun x t => B.base.live x.inner t ∧ U.Tracked t
  fresh := by
    intro x t x' h hlive
    obtain ⟨y, d, hx, -, -⟩ := allocTable_ok h
    exact B.base.fresh _ _ _ hx hlive.1
  phys_ne_zero := by
    intro x t x' h
    obtain ⟨y, d, hx, -, -⟩ := allocTable_ok h
    exact B.base.phys_ne_zero _ _ _ hx
  translate := by
    intro x t x' h
    obtain ⟨y, d, hx, -, -⟩ := allocTable_ok h
    exact B.base.translate _ _ _ hx
  live_alloc := by
    intro x t x' h u hu
    obtain ⟨y, d, hx, -, rfl⟩ := allocTable_ok h
    rcases hu with rfl | ⟨hlive, htracked⟩
    · exact ⟨B.base.live_alloc _ _ _ hx u (Or.inl rfl), B.tracked _ _ _ hx⟩
    · exact ⟨B.base.live_alloc _ _ _ hx u (Or.inr hlive), htracked⟩
  alloc_error := by
    intro x e h
    exact B.base.alloc_error _ _ (allocTable_error B h)
  free_ok := by
    rintro x t ⟨hlive, htracked⟩
    obtain ⟨y, hy⟩ := B.base.free_ok _ _ hlive
    exact freeTable_of_inner htracked hy
  live_free := by
    rintro x t x' h u hne ⟨hlive, htracked⟩
    obtain ⟨y, d, hx, -, rfl⟩ := freeTable_ok h
    exact ⟨B.base.live_free _ _ _ hx u hne hlive, htracked⟩

variable {B : U.Spec}

/-- Calls for other tables leave the statuses of a table alone. -/
lemma metas_of_untouched {t : UInt64} {d : Nat} {x x' : UserState AP X} (ht : U.Tracked t)
    (hd : U.descriptor (U.translator.dmapToPhys t) = .ok d) (hu : Untouched B.user t x x') :
    x'.metas d = x.metas d := by
  induction hu with
  | refl => rfl
  | @alloc y z u _ hne hy ih =>
    obtain ⟨z', d', hinner, hd', rfl⟩ := allocTable_ok hy
    have hdd : d ≠ d' := by
      rintro rfl
      exact hne ((B.tracked _ _ _ hinner).eq_of_descriptor ht hd' hd)
    rw [← ih]
    exact update_of_ne hdd ..
  | @free y z u _ hne hlive hy ih =>
    obtain ⟨z', d', hinner, hd', rfl⟩ := freeTable_ok hy
    have hdd : d ≠ d' := by
      rintro rfl
      exact hne (hlive.2.eq_of_descriptor ht hd' hd)
    rw [← ih]
    exact update_of_ne hdd ..

/-! ### The view -/

/-- The status of an entry of the table `t`. -/
def leafStatus (U : UserAllocator X) (h : UserHeap AP SH X) (t : UInt64) (i : Index) : Status AP :=
  match U.descriptor (U.translator.dmapToPhys t) with
  | .ok d    => getStatus h d i
  | .error _ => .invalid

/-- The status of a page whose leaf entry is valid. -/
def view (U : UserAllocator X) (r : UInt64) (h : UserHeap AP SH X) (va : UInt64) :
    Option (Status AP) :=
  (h.tableAt U.translator r (pathOf va)).bind fun t =>
    (h.entryAt U.translator r (pathOf va) (calculateIndex va 3)).map fun _ =>
      leafStatus U h t (calculateIndex va 3)

variable {h h' : UserHeap AP SH X} {r t : UInt64} {va : UInt64}

lemma pathOf_length_le (va : UInt64) : (pathOf va).length ≤ 3 := Nat.le_refl 3

lemma view_of_none
    (he : h.entryAt U.translator r (pathOf va) (calculateIndex va 3) = none) :
    view U r h va = none := by
  rw [view, he]
  cases h.tableAt U.translator r (pathOf va) <;> rfl

lemma view_of_some {e : Tte AP SH} (ht : h.tableAt U.translator r (pathOf va) = some t)
    (he : h.entryAt U.translator r (pathOf va) (calculateIndex va 3) = some e) :
    view U r h va = some (leafStatus U h t (calculateIndex va 3)) := by
  rw [view, ht, he]
  rfl

lemma view_isSome : (view U r h va).isSome =
    (h.entryAt U.translator r (pathOf va) (calculateIndex va 3)).isSome := by
  cases he : h.entryAt U.translator r (pathOf va) (calculateIndex va 3) with
  | none =>
    rw [view_of_none he]
    rfl
  | some e =>
    obtain ⟨t, ht⟩ := Heap.tableAt_of_entryAt he
    rw [view_of_some ht he]
    rfl

lemma view_congr_page {va' : UInt64} (hpage : pageNumber va' = pageNumber va) :
    view U r h va' = view U r h va := by
  obtain ⟨hpath, hindex⟩ := (pathOf_eq_iff va' va).2 hpage
  rw [view, view, hpath, hindex]

section Inv

variable (hI : h.Inv B.user r)

include hI

lemma tracked_of_tableAt {q : List Index} (hq : q.length ≤ 3)
    (ht : h.tableAt U.translator r q = some t) : U.Tracked t := by
  obtain ⟨n, hn, -⟩ := hI.alive ht hq
  exact (hI.owned t n hn).2

lemma path_eq_of_descriptor {p q : List Index} {u : UInt64} {d : Nat} (hp : p.length ≤ 3)
    (hq : q.length ≤ 3) (ht : h.tableAt U.translator r p = some t)
    (hu : h.tableAt U.translator r q = some u)
    (htd : U.descriptor (U.translator.dmapToPhys t) = .ok d)
    (hud : U.descriptor (U.translator.dmapToPhys u) = .ok d) : p = q := by
  have htu : t = u :=
    (tracked_of_tableAt hI hp ht).eq_of_descriptor (tracked_of_tableAt hI hq hu) htd hud
  subst htu
  exact hI.tree.inj p q t hp hq ht hu

/-- A page keeps its status if its entry stays and its table was not touched. -/
lemma view_eq_of_untouched
    (he : h'.entryAt U.translator r (pathOf va) (calculateIndex va 3) =
      h.entryAt U.translator r (pathOf va) (calculateIndex va 3))
    (hu : ∀ e, h.entryAt U.translator r (pathOf va) (calculateIndex va 3) = some e →
      ∃ t, h.tableAt U.translator r (pathOf va) = some t ∧
        h'.tableAt U.translator r (pathOf va) = some t ∧
        Untouched B.user t h.allocator h'.allocator) : view U r h' va = view U r h va := by
  cases hentry : h.entryAt U.translator r (pathOf va) (calculateIndex va 3) with
  | none => rw [view_of_none hentry, view_of_none (he.trans hentry)]
  | some e =>
    obtain ⟨t, ht, ht', huntouched⟩ := hu e hentry
    rw [view_of_some ht hentry, view_of_some ht' (he.trans hentry), leafStatus, leafStatus]
    have htracked := tracked_of_tableAt hI (pathOf_length_le _) ht
    obtain ⟨d, hd⟩ := htracked.described
    rw [hd]
    dsimp only
    rw [getStatus, getStatus, metas_of_untouched htracked hd huntouched]

lemma view_of_extends (hx : h.Extends B.user r h')
    (he : h'.entryAt U.translator r (pathOf va) (calculateIndex va 3) =
      h.entryAt U.translator r (pathOf va) (calculateIndex va 3)) :
    view U r h' va = view U r h va := by
  refine view_eq_of_untouched hI he ?_
  intro e hentry
  obtain ⟨t, ht⟩ := Heap.tableAt_of_entryAt hentry
  exact ⟨t, ht, hx _ t (pathOf_length_le _) ht⟩

lemma view_of_shrinks (hx : h.Shrinks B.user r h')
    (he : h'.entryAt U.translator r (pathOf va) (calculateIndex va 3) =
      h.entryAt U.translator r (pathOf va) (calculateIndex va 3)) :
    view U r h' va = view U r h va := by
  refine view_eq_of_untouched hI he ?_
  intro e hentry
  obtain ⟨t, ht'⟩ := Heap.tableAt_of_entryAt (he.trans hentry)
  obtain ⟨ht, hu⟩ := hx _ t (pathOf_length_le _) ht'
  exact ⟨t, ht, ht', hu⟩

/-! ### Writing a status -/

lemma inv_setStatus (d : Nat) (i : Index) (status : Status AP) :
    (setStatus h d i status).Inv B.user r :=
  ⟨hI.tree, hI.coherent, hI.page, hI.owned, hI.logged⟩

omit hI in
lemma getStatus_setStatus (d d' : Nat) (i i' : Index) (status : Status AP) :
    getStatus (setStatus h d i status) d' i' =
      if d' = d ∧ i' = i then status else getStatus h d' i' := by
  simp only [getStatus, setStatus]
  by_cases hd : d' = d
  · subst hd
    simp only [update_self, true_and]
    by_cases hi : i' = i
    · rw [if_pos hi, hi, update_self]
    · rw [if_neg hi, update_of_ne hi]
      cases h.allocator.metas d' <;> rfl
  · simp only [update_of_ne hd, hd, false_and, if_false]

/-- The status of the page of `va` is written to the descriptor of its leaf table. -/
lemma view_setStatus {d : Nat} (ht : h.tableAt U.translator r (pathOf va) = some t)
    (hd : U.descriptor (U.translator.dmapToPhys t) = .ok d) (status : Status AP) (va' : UInt64) :
    view U r (setStatus h d (calculateIndex va 3) status) va' =
      if pageNumber va' = pageNumber va then (view U r h va').map fun _ => status
      else view U r h va' := by
  have htable : ∀ q, (setStatus h d (calculateIndex va 3) status).tableAt U.translator r q =
      h.tableAt U.translator r q := fun q => rfl
  have hentry : ∀ q i, (setStatus h d (calculateIndex va 3) status).entryAt U.translator r q i =
      h.entryAt U.translator r q i := fun q i => rfl
  cases he : h.entryAt U.translator r (pathOf va') (calculateIndex va' 3) with
  | none =>
    rw [view_of_none he, view_of_none ((hentry _ _).trans he), Option.map_none, ite_self]
  | some e =>
    obtain ⟨t', ht'⟩ := Heap.tableAt_of_entryAt he
    obtain ⟨d', hd'⟩ := (tracked_of_tableAt hI (pathOf_length_le _) ht').described
    rw [view_of_some ht' he, view_of_some ((htable _).trans ht') ((hentry _ _).trans he),
      leafStatus, leafStatus, hd']
    dsimp only
    rw [getStatus_setStatus]
    have hiff : (d' = d ∧ calculateIndex va' 3 = calculateIndex va 3) ↔
        pageNumber va' = pageNumber va := by
      rw [← pathOf_eq_iff]
      constructor
      · rintro ⟨rfl, hindex⟩
        exact ⟨path_eq_of_descriptor hI (pathOf_length_le _) (pathOf_length_le _) ht' ht
          hd' hd, hindex⟩
      · rintro ⟨hpath, hindex⟩
        rw [hpath, ht] at ht'
        cases ht'
        rw [hd] at hd'
        cases hd'
        exact ⟨rfl, hindex⟩
    by_cases hpage : pageNumber va' = pageNumber va
    · rw [if_pos (hiff.2 hpage), if_pos hpage]
      rfl
    · rw [if_neg (mt hiff.1 hpage), if_neg hpage]

end Inv

end Mars.Vm
