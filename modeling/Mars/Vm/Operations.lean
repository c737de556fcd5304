import Mars.Vm.Cursor

/-!
# What the operations of a cursor do

Every operation is a loop over the pages of the range. Each step is described by what it does to
the view of one page and to the tables. A step of `unmap` may free the covering table: whether
the loop does is decided by the state before it.
-/

namespace Mars.Vm

open Paging Lib.NodeTree Heap

variable {AP SH X : Type}

/-! ### Loops over pages -/

section Loop

variable {σ Y : Type} {A : TableAllocator Y} {body body' : UInt64 → σ → Except Trap σ}
  {start : UInt64} {m : Nat} {I : Nat → σ → Prop}
variable {n k : Nat} {x : σ}

lemma pageAfter_zero (a : UInt64) : pageAfter a 0 = a := by
  rw [pageAfter, zero_mul]
  exact UInt64.add_zero a

lemma pageAfter_succ (a : UInt64) (k : Nat) :
    pageAfter a k + UInt64.ofNat pageSize = pageAfter a (k + 1) := by
  rw [pageAfter, pageAfter, Nat.succ_mul, UInt64.add_assoc, ← UInt64.ofNat_add]
  rfl

/-- A loop keeps an invariant that every step keeps. -/
lemma forPages_gives (hbody : ∀ k x, k < m → I k x →
      Gives A (body (pageAfter start k) x) (I (k + 1))) (hn : k + n = m) (hx : I k x) :
    Gives A (forPages body n (pageAfter start k) x) (I m) := by
  induction n generalizing k x with
  | zero =>
    rw [← hn]
    exact hx
  | succ n ih =>
    refine (hbody k x (by omega) hx).bind ?_
    intro x' hx'
    rw [pageAfter_succ]
    exact ih (by omega) hx'

lemma forPages_returns (hbody : ∀ k x, k < m → I k x →
      ∃ x', body (pageAfter start k) x = .ok x' ∧ I (k + 1) x') (hn : k + n = m) (hx : I k x) :
    ∃ x', forPages body n (pageAfter start k) x = .ok x' ∧ I m x' := by
  induction n generalizing k x with
  | zero =>
    rw [← hn]
    exact ⟨x, rfl, hx⟩
  | succ n ih =>
    obtain ⟨x', hok, hx'⟩ := hbody k x (by omega) hx
    rw [forPages, hok, pageAfter_succ]
    exact ih (by omega) hx'

/-- Two loops agree if their steps agree as long as an invariant holds. -/
lemma forPages_congr (hbody : ∀ k x, k < m → I k x →
      Gives A (body (pageAfter start k) x) (I (k + 1)) ∧
        body' (pageAfter start k) x = body (pageAfter start k) x) (hn : k + n = m) (hx : I k x) :
    forPages body' n (pageAfter start k) x = forPages body n (pageAfter start k) x := by
  induction n generalizing k x with
  | zero => rfl
  | succ n ih =>
    obtain ⟨hgives, heq⟩ := hbody k x (by omega) hx
    rw [forPages, forPages, heq, pageAfter_succ]
    cases hres : body (pageAfter start k) x with
    | error e => rfl
    | ok x' =>
      rw [hres] at hgives
      exact ih (by omega) hgives

/-- If a loop runs to its end then the invariant holds there. -/
lemma forPages_ok (hbody : ∀ k x x', k < m → I k x → body (pageAfter start k) x = .ok x' →
      I (k + 1) x') (hn : k + n = m) {x' : σ} (hx : I k x)
    (hok : forPages body n (pageAfter start k) x = .ok x') : I m x' := by
  induction n generalizing k x with
  | zero =>
    cases hok
    rw [← hn]
    exact hx
  | succ n ih =>
    rw [forPages, pageAfter_succ] at hok
    cases hres : body (pageAfter start k) x with
    | error e =>
      rw [hres] at hok
      cases hok
    | ok y =>
      rw [hres] at hok
      exact ih (by omega) (hbody k x y (by omega) hx hres) hok

/-- A loop fails if every step either fails or keeps an invariant that cannot hold at the end. -/
lemma forPages_error {e : Trap} (hbody : ∀ k x, k < m → I k x →
      body (pageAfter start k) x = .error e ∨
        ∃ x', body (pageAfter start k) x = .ok x' ∧ I (k + 1) x') (hend : ∀ x, ¬ I m x)
    (hn : k + n = m) (hx : I k x) : forPages body n (pageAfter start k) x = .error e := by
  induction n generalizing k x with
  | zero =>
    rw [← hn] at hend
    exact absurd hx (hend x)
  | succ n ih =>
    rw [forPages, pageAfter_succ]
    rcases hbody k x (by omega) hx with herr | ⟨x', hok, hx'⟩
    · rw [herr]
      rfl
    · rw [hok]
      exact ih (by omega) hx'

end Loop

variable {s : AddressSpace X} {B : s.allocator.Spec} {h h' : UserHeap AP SH X} {r : UInt64}
  {c : Cursor}

/-- The allocator while no lock is held. -/
abbrev AddressSpace.unlocked (s : AddressSpace X) (AP : Type) : TableAllocator (UserState AP X) :=
  s.allocator.tables .none

namespace Cursor

/-- All pages that the loop visits are in the range. -/
lemma Valid.contains_pageAfter (hc : c.Valid s r h) {k : Nat} (hk : k < c.steps) :
    (pageAfter c.start k).toNat = c.start.toNat + k * pageSize ∧
      c.Contains (pageAfter c.start k) := by
  have hstop := hc.stop_le
  have hlt : c.start.toNat + k * pageSize < c.stop.toNat := by
    unfold steps at hk
    unfold pageSize pageShift at *
    omega
  have htoNat : (pageAfter c.start k).toNat = c.start.toNat + k * pageSize := by
    rw [pageAfter, UInt64.toNat_add, UInt64.toNat_ofNat']
    unfold pageSize at *
    omega
  refine ⟨htoNat, ?_, ?_⟩
  · rw [UInt64.le_iff_toNat_le, htoNat]
    exact Nat.le_add_right _ _
  · rw [UInt64.lt_iff_toNat_lt, htoNat]
    exact hlt

/-! ### Statuses of leaf entries -/

/-- `update_leaf_meta` writes to the descriptor of the leaf table. -/
lemma Valid.updateLeafMeta_eq (hc : c.Valid s r h) (hI : h.Inv B.user r) (g : Guards) {va : UInt64}
    (hva : c.Contains va) (status : Status AP) :
    c.updateLeafMeta s g h va status =
      (match h.tableAt s.translator r (pathOf va) with
      | none   => .ok h
      | some t => do
        let d ← s.allocator.descriptor (s.translator.dmapToPhys t)
        acquire g d .write
        .ok (setStatus h d (calculateIndex va 3) status)) := by
  obtain ⟨t, ht, hpa⟩ := hc.covering
  rw [← hc.spans va hva] at ht
  simp only [updateLeafMeta, hpa, leafTable_eq hI hc.level_le ht, bind, Except.bind,
    route_eq (hc.toNat_lt hva)]
  cases h.tableAt s.translator r (pathOf va) <;> rfl

/-- A step of a loop: the view of one page changes by `f`. -/
structure Updates (B : s.allocator.Spec) (r : UInt64) (h : UserHeap AP SH X) (va : UInt64)
    (f : Option (Status AP) → Option (Status AP)) (h' : UserHeap AP SH X) : Prop where
  inv : h'.Inv B.user r
  view : ∀ va', view s.allocator r h' va' =
    if pageNumber va' = pageNumber va then f (view s.allocator r h va')
    else view s.allocator r h va'

lemma Valid.updateLeafMeta_spec (hc : c.Valid s r h) (hI : h.Inv B.user r) {va : UInt64}
    (hva : c.Contains va) (status : Status AP) :
    ∃ h', c.updateLeafMeta s .none h va status = .ok h' ∧ h'.tables = h.tables ∧
      Updates B r h va (Option.map fun _ => status) h' := by
  rw [hc.updateLeafMeta_eq hI .none hva]
  cases ht : h.tableAt s.translator r (pathOf va) with
  | none =>
    refine ⟨h, rfl, rfl, hI, ?_⟩
    intro va'
    split_ifs with hpage
    · have hnone : view s.allocator r h va' = none := by
        rw [view_congr_page hpage]
        exact view_of_none (entryAt_none (nodeAt_of_follow_none ht) _)
      rw [hnone]
      rfl
    · rfl
  | some t =>
    obtain ⟨d, hd⟩ := (tracked_of_tableAt hI (pathOf_length_le va) ht).described
    refine ⟨setStatus h d (calculateIndex va 3) status, ?_, rfl, ?_⟩
    · simp only [hd, acquire_none, bind, Except.bind]
    · exact ⟨inv_setStatus hI d _ status, view_setStatus hI ht hd status⟩

end Cursor

/-! ### Keeping tables -/

def Keeps (s : AddressSpace X) (r : UInt64) (h h' : UserHeap AP SH X) : Prop :=
  ∀ q t, q.length ≤ 3 → h.tableAt s.translator r q = some t → h'.tableAt s.translator r q = some t

/-- Adding tables does not disturb a cursor. -/
lemma Cursor.Valid.of_keeps (hc : c.Valid s r h) (hx : Keeps s r h h') : c.Valid s r h' := by
  refine hc.congr ?_
  intro q hq
  obtain ⟨t, ht, -⟩ := hc.covering
  obtain ⟨u, hu⟩ := tableAt_of_prefix hq ht
  rw [hu]
  exact hx q u (hq.length_le.trans c.path_length_le) hu

/-! ### Mapping and marking -/

section Map

variable [Inhabited AP] [Inhabited SH]

namespace Cursor

lemma mapStep_eq (hroot : s.root = some r) (g : Guards) (attrs : Attributes AP SH)
    (va pa : UInt64) (h : UserHeap AP SH X) : c.mapStep s g attrs va (pa, h) =
      (mapPage (s.allocator.tables g) s.translator h r pa va attrs >>= fun h =>
        c.updateLeafMeta s g h va (.mapped pa attrs.access) >>= fun h =>
          .ok (pa + UInt64.ofNat pageSize, h)) := by
  simp only [mapStep, AddressSpace.rootMut, hroot]
  rfl

lemma Valid.mapStep_spec (hc : c.Valid s r h) (hI : h.Inv B.user r) (hroot : s.root = some r)
    {va : UInt64} (hva : c.Contains va) (pa : UInt64) (attrs : Attributes AP SH) :
    Gives (s.unlocked AP) (c.mapStep s .none attrs va (pa, h)) fun x =>
      x.1 = pa + UInt64.ofNat pageSize ∧ Keeps s r h x.2 ∧
        Updates B r h va (fun _ => some (.mapped pa attrs.access)) x.2 := by
  rw [mapStep_eq hroot]
  refine (mapPage_spec hI pa va attrs).bind ?_
  intro h₁ hmaps
  have hkeeps : Keeps s r h h₁ := fun q t hq ht => (hmaps.extension q t hq ht).1
  obtain ⟨h₂, hok, htables, hupdates⟩ :=
    (hc.of_keeps hkeeps).updateLeafMeta_spec hmaps.inv hva (.mapped pa attrs.access)
  rw [hok]
  refine ⟨rfl, ?_, hupdates.inv, ?_⟩
  · intro q t hq ht
    exact (tableAt_congr htables q).trans (hkeeps q t hq ht)
  · intro va'
    rw [hupdates.view va']
    have hentry := hmaps.entryAt (pathOf va') (calculateIndex va' 3) rfl
    by_cases hpage : pageNumber va' = pageNumber va
    · rw [if_pos ((pathOf_eq_iff va' va).2 hpage)] at hentry
      obtain ⟨t, ht⟩ := tableAt_of_entryAt hentry
      rw [if_pos hpage, if_pos hpage, view_of_some ht hentry]
      rfl
    · rw [if_neg (mt (pathOf_eq_iff va' va).1 hpage)] at hentry
      rw [if_neg hpage, if_neg hpage]
      exact view_of_extends hI hmaps.extension hentry

end Cursor

/-- Tables were added, and no page was mapped or unmapped. -/
structure Grows (B : s.allocator.Spec) (r : UInt64) (h h' : UserHeap AP SH X) : Prop where
  inv : h'.Inv B.user r
  extension : h.Extends B.user r h'
  entryAt : ∀ q j, q.length = 3 → h'.entryAt s.translator r q j = h.entryAt s.translator r q j

/-- `ensure_leaf_table` from a table on the route on. -/
lemma ensureFrom_spec (hI : h.Inv B.user r) {va t : UInt64} {level : Nat} (hl : level ≤ 3)
    (ht : h.tableAt s.translator r ((route va).take (3 - level)) = some t) :
    Gives (s.unlocked AP)
      (Cursor.ensureFrom s .none va level (s.translator.dmapToPhys t) h) (Grows B r h) := by
  induction level generalizing h t with
  | zero => exact ⟨hI, .refl h, fun _ _ _ => rfl⟩
  | succ level ih =>
    have hlen : ((route va).take (3 - (level + 1))).length < 3 := route_take_lt va
    obtain ⟨n, hn, -⟩ := hI.alive ht hlen.le
    have htranslate := (tracked_of_tableAt hI hlen.le ht).translate
    have hsucc := route_take_succ va hl
    simp only [Cursor.ensureFrom, htranslate, readEntry_eq hn, bind, Except.bind]
    cases hv : (n (entryIndex va (level + 1))).isValid with
    | true =>
      obtain ⟨e, he, hcases⟩ := readEntry_cases hI ht hlen (entryIndex va (level + 1))
      rw [htranslate, readEntry_eq hn] at he
      cases he
      rcases hcases with ⟨hv', -⟩ | ⟨-, -, u, hu, haddress⟩
      · rw [hv] at hv'
        cases hv'
      · rw [haddress]
        exact ih hI (Nat.le_of_lt hl) (hsucc ▸ hu)
    | false =>
      simp only [Bool.not_false, if_true, Heap.allocTable, bind, Except.bind]
      cases hx : (s.unlocked AP).allocTable h.allocator with
      | error e =>
        obtain rfl := (B.user).alloc_error _ _ hx
        exact ⟨rfl, _, hx⟩
      | ok res =>
        obtain ⟨u, x⟩ := res
        have hut : t ≠ u := by
          rintro rfl
          rw [hI.fresh hx] at hn
          cases hn
        have htables : Function.update h.tables u (some TTable.new) t = some n := by
          rw [Function.update_of_ne hut, hn]
        simp only [Heap.writeEntry, htables]
        have hD := hI.descends_link ht hlen hn hv hx (links_linkTo Tte.invalid u)
        have hnext := ih hD.inv (Nat.le_of_lt hl) (hsucc ▸ hD.tableAt)
        refine hnext.mono ?_
        intro h' hgrows
        refine ⟨hgrows.inv, hD.extension.trans hgrows.extension, ?_⟩
        intro q j hq
        exact (hgrows.entryAt q j hq).trans (hD.entryAt q j hq)

namespace Cursor

lemma Valid.markStep_spec (hc : c.Valid s r h) (hI : h.Inv B.user r) {va : UInt64}
    (hva : c.Contains va) (status : Status AP) :
    Gives (s.unlocked AP) (c.markStep s .none status va h) fun h' =>
      Keeps s r h h' ∧ Updates B r h va (Option.map fun _ => status) h' := by
  obtain ⟨t, ht, hpa⟩ := hc.covering
  rw [← hc.spans va hva] at ht
  rw [markStep, ensureLeafTable, hpa]
  refine (ensureFrom_spec hI hc.level_le ht).bind ?_
  intro h₁ hgrows
  have hkeeps : Keeps s r h h₁ := fun q t hq ht => (hgrows.extension q t hq ht).1
  obtain ⟨h₂, hok, htables, hupdates⟩ :=
    (hc.of_keeps hkeeps).updateLeafMeta_spec hgrows.inv hva status
  rw [hok]
  refine ⟨?_, hupdates.inv, ?_⟩
  · intro q t hq ht
    exact (tableAt_congr htables q).trans (hkeeps q t hq ht)
  · intro va'
    rw [hupdates.view va', view_of_extends hI hgrows.extension (hgrows.entryAt _ _ rfl)]

end Cursor

end Map

/-! ### Unmapping -/

namespace Cursor

/-- If `unmap_page` leaves the covering table alone, then it leaves the cursor alone. -/
lemma Valid.of_unmaps (hc : c.Valid s r h) {va : UInt64} (hunmaps : h.Unmaps B.user r va h')
    {t : UInt64} (halive : h'.tableAt s.translator r c.path = some t) : c.Valid s r h' := by
  refine hc.congr ?_
  intro q hq
  obtain ⟨u, hu⟩ := tableAt_of_prefix hq halive
  rw [hu]
  exact (hunmaps.shrinks q u (hq.length_le.trans c.path_length_le) hu).1.symm

lemma unmapStep_eq (hroot : s.root = some r) (g : Guards) (va : UInt64) (h : UserHeap AP SH X) :
    c.unmapStep s g va h = (unmapPage (s.allocator.tables g) s.translator h r va >>= fun h =>
      c.updateLeafMeta s g h va .invalid) := by
  simp only [unmapStep, AddressSpace.rootMut, hroot]
  rfl

/-- A step of the loop of `unmap` that leaves the covering table alone. -/
lemma Valid.unmapStep_spec (hc : c.Valid s r h) (hI : h.Inv B.user r) (hroot : s.root = some r)
    {va : UInt64} (hva : c.Contains va) {h₁ : UserHeap AP SH X} {t : UInt64}
    (hok : unmapPage (s.allocator.tables .none) s.translator h r va = .ok h₁)
    (hunmaps : h.Unmaps B.user r va h₁) (halive : h₁.tableAt s.translator r c.path = some t) :
    ∃ h₂, c.unmapStep s .none va h = .ok h₂ ∧ h₂.tables = h₁.tables ∧ c.Valid s r h₂ ∧
      Updates B r h va (fun _ => none) h₂ := by
  have hc₁ := hc.of_unmaps hunmaps halive
  obtain ⟨h₂, hok₂, htables, hupdates⟩ := hc₁.updateLeafMeta_spec hunmaps.inv hva .invalid
  refine ⟨h₂, ?_, htables, hc₁.congr fun q _ => tableAt_congr htables q, hupdates.inv, ?_⟩
  · rw [unmapStep_eq hroot, hok]
    exact hok₂
  · intro va'
    rw [hupdates.view va']
    have hentry := hunmaps.entryAt (pathOf va') (calculateIndex va' 3) rfl
    by_cases hpage : pageNumber va' = pageNumber va
    · rw [if_pos ((pathOf_eq_iff va' va).2 hpage)] at hentry
      rw [if_pos hpage, if_pos hpage, view_of_none hentry]
      rfl
    · rw [if_neg (mt (pathOf_eq_iff va' va).1 hpage)] at hentry
      rw [if_neg hpage, if_neg hpage]
      exact view_of_shrinks hI hunmaps.shrinks hentry

end Cursor

end Mars.Vm
