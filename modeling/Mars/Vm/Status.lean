import Mars.Vm.Operations
import Mathlib.Logic.Relation

/-!
# What a cursor reports about its pages

The operations of a cursor change the view of the pages in its range and of no other page, and a
query reports the view. A page has a view only if its leaf entry is valid, so marking a page that
is not mapped is not visible. Unmapping may free the covering table, which the cursor then still
points to. Every request for a lock succeeds here.
-/

namespace Mars.Vm

open Paging Lib.NodeTree

variable {AP SH X : Type} {s : AddressSpace X} {B : s.allocator.Spec} {h h₀ h' : UserHeap AP SH X}
  {r : UInt64} {c : Cursor}

/-! ### Queries -/

variable {va : UInt64}

lemma Cursor.Valid.query_eq (hc : c.Valid s r h) (hI : h.Inv B.user r) (hva : c.Contains va) :
    c.query s .none h va = .ok ((view s.allocator r h va).getD .invalid) := by
  obtain ⟨t, ht, hpa⟩ := hc.covering
  rw [← hc.spans va hva] at ht
  have hquery : c.query s .none h va = queryFrom s .none h va c.coveringLevel c.coveringPa :=
    if_pos hva
  rw [hquery, hpa, queryFrom_eq hI .none hc.level_le ht, route_eq (hc.toNat_lt hva)]
  cases he : h.entryAt s.translator r (pathOf va) (calculateIndex va 3) with
  | none =>
    rw [view_of_none he, entryIndex_zero, he]
    cases h.tableAt s.translator r (pathOf va) <;> rfl
  | some e =>
    obtain ⟨u, hu⟩ := Heap.tableAt_of_entryAt he
    obtain ⟨d, hd⟩ := (tracked_of_tableAt hI (pathOf_length_le va) hu).described
    rw [view_of_some hu he, entryIndex_zero, he, hu, leafStatus, hd]
    simp only [hd, acquire_none, bind, Except.bind, Option.getD_some]

/-! ### Pages of the range -/

/-- Both ends of the range are page-aligned. -/
structure Cursor.Aligned (c : Cursor) : Prop where
  start : c.start.toNat % pageSize = 0
  stop : c.stop.toNat % pageSize = 0

/-- Among user addresses, the addresses of a page are those that follow its first one. -/
lemma pageNumber_eq_iff {a : UInt64} (ha : a.toNat % pageSize = 0) (hlt : a.toNat < 2 ^ 48)
    (hva : va.toNat < 2 ^ 48) :
    pageNumber va = pageNumber a ↔ a.toNat ≤ va.toNat ∧ va.toNat < a.toNat + pageSize := by
  unfold pageNumber pageSize pageShift at *
  omega

/-- The first `k` pages of the range are updated. -/
def Swept (s : AddressSpace X) (r : UInt64) (c : Cursor)
    (f : UInt64 → Option (Status AP) → Option (Status AP)) (h₀ : UserHeap AP SH X) (k : Nat)
    (h : UserHeap AP SH X) : Prop :=
  ∀ va : UInt64, va.toNat < 2 ^ 48 → view s.allocator r h va =
    if c.start.toNat ≤ va.toNat ∧ va.toNat < c.start.toNat + k * pageSize then
      f va (view s.allocator r h₀ va)
    else view s.allocator r h₀ va

section Sweep

variable {f : UInt64 → Option (Status AP) → Option (Status AP)} {k : Nat}

lemma Swept.zero (f : UInt64 → Option (Status AP) → Option (Status AP)) : Swept s r c f h 0 h := by
  intro va _
  rw [if_neg]
  omega

lemma Swept.succ (hsw : Swept s r c f h₀ k h) (hc : c.Valid s r h) (ha : c.Aligned)
    (hk : k < c.steps) {f' : Option (Status AP) → Option (Status AP)}
    (hu : Cursor.Updates B r h (pageAfter c.start k) f' h')
    (hf : ∀ va : UInt64, c.start.toNat + k * pageSize ≤ va.toNat →
      va.toNat < c.start.toNat + (k + 1) * pageSize → ∀ v, f' v = f va v) :
    Swept s r c f h₀ (k + 1) h' := by
  intro va hva
  obtain ⟨htoNat, hcontains⟩ := hc.contains_pageAfter hk
  have haligned : (pageAfter c.start k).toNat % pageSize = 0 := by
    rw [htoNat, Nat.add_mul_mod_self_right]
    exact ha.start
  have hiff := pageNumber_eq_iff haligned (hc.toNat_lt hcontains) hva
  have hsucc : (k + 1) * pageSize = k * pageSize + pageSize := Nat.succ_mul k pageSize
  rw [htoNat, add_assoc, ← hsucc] at hiff
  rw [hu.view va, hsw va hva]
  by_cases hpage : pageNumber va = pageNumber (pageAfter c.start k)
  · obtain ⟨hle, hlt⟩ := hiff.1 hpage
    rw [if_pos hpage, if_neg (by omega), if_pos ⟨by omega, hlt⟩]
    exact hf va hle hlt _
  · rw [if_neg hpage]
    have hsame : (c.start.toNat ≤ va.toNat ∧ va.toNat < c.start.toNat + k * pageSize) ↔
        (c.start.toNat ≤ va.toNat ∧ va.toNat < c.start.toNat + (k + 1) * pageSize) := by
      constructor
      · rintro ⟨hle, hlt⟩
        exact ⟨hle, by omega⟩
      · rintro ⟨hle, hlt⟩
        refine ⟨hle, ?_⟩
        by_contra hge
        exact hpage (hiff.2 ⟨by omega, hlt⟩)
    simp only [hsame]

lemma Swept.all (hsw : Swept s r c f h₀ c.steps h) (ha : c.Aligned) (hva : va.toNat < 2 ^ 48) :
    view s.allocator r h va =
      if c.Contains va then f va (view s.allocator r h₀ va) else view s.allocator r h₀ va := by
  have hiff : (c.start.toNat ≤ va.toNat ∧ va.toNat < c.start.toNat + c.steps * pageSize) ↔
      c.Contains va := by
    have h₁ := ha.start
    have h₂ := ha.stop
    rw [Cursor.Contains, UInt64.le_iff_toNat_le, UInt64.lt_iff_toNat_lt]
    unfold Cursor.steps pageSize pageShift at *
    omega
  rw [hsw va hva]
  simp only [hiff]

end Sweep

/-! ### Operations -/

inductive Op (AP SH : Type) where
  | map (targetPaStart : UInt64) (attrs : Attributes AP SH)
  | unmap
  | mark (status : Status AP)

namespace Op

def run [Inhabited AP] [Inhabited SH] (s : AddressSpace X) (g : Guards) (c : Cursor)
    (h : UserHeap AP SH X) : Op AP SH → Except Trap (UserHeap AP SH X)
  | .map pa attrs => c.map s g h pa attrs
  | .unmap        => c.unmap s g h
  | .mark status  => c.mark s g h status

/-- What an operation does to the view of a page of the range. -/
def update (c : Cursor) : Op AP SH → UInt64 → Option (Status AP) → Option (Status AP)
  | .map pa attrs, va, _ =>
    some (.mapped (pageAfter pa ((va.toNat - c.start.toNat) / pageSize)) attrs.access)
  | .unmap, _, _         => none
  | .mark status, _, v   => v.map fun _ => status

/-- The status that a page of the range is meant to have after an operation. -/
def intended (c : Cursor) : Op AP SH → UInt64 → Status AP
  | .map pa attrs, va => .mapped (pa + (va - c.start)) attrs.access
  | .unmap, _         => .invalid
  | .mark status, _   => status

end Op

/-- The pages that are left when the loop has done `k` of them. -/
def Cursor.pagesFrom (c : Cursor) (k : Nat) (q : List Index) (i : Index) : Prop :=
  ∃ j, k ≤ j ∧ j < c.steps ∧ q = pathOf (pageAfter c.start j) ∧
    i = calculateIndex (pageAfter c.start j) 3

/-- Unmapping the pages that are left does not free the covering table. -/
def Cursor.Survives (s : AddressSpace X) (r : UInt64) (c : Cursor) (k : Nat)
    (h : UserHeap AP SH X) : Prop :=
  c.coveringLevel = 3 ∨ ¬ Doomed s.translator r h c.path (c.pagesFrom k)

/-- Pages that are marked are mapped, or marked invalid. Unmapping keeps the covering table. -/
def Op.Good (s : AddressSpace X) (r : UInt64) (c : Cursor) (h : UserHeap AP SH X) :
    Op AP SH → Prop
  | .map _ _     => True
  | .unmap       => c.Survives s r 0 h
  | .mark status => status = .invalid ∨
      ∀ va, c.Contains va → va.toNat % pageSize = 0 → (view s.allocator r h va).isSome

/-- The whole effect of an operation. -/
structure Op.Performs (B : s.allocator.Spec) (r : UInt64) (c : Cursor) (h : UserHeap AP SH X)
    (op : Op AP SH) (h' : UserHeap AP SH X) : Prop where
  inv : h'.Inv B.user r
  valid : c.Valid s r h'
  view : ∀ va : UInt64, va.toNat < 2 ^ 48 → view s.allocator r h' va =
    if c.Contains va then op.update c va (view s.allocator r h va) else view s.allocator r h va

variable {op : Op AP SH}

lemma Swept.performs (hsw : Swept s r c (op.update c) h c.steps h') (ha : c.Aligned)
    (hI : h'.Inv B.user r) (hc : c.Valid s r h') : op.Performs B r c h h' :=
  ⟨hI, hc, fun _ hva => hsw.all ha hva⟩

/-! ### Unmapping -/

section Unmap

variable {k : Nat}

lemma Cursor.pagesFrom_succ {q : List Index} {i : Index} (hp : c.pagesFrom k q i)
    (hne : ¬ (q = pathOf (pageAfter c.start k) ∧ i = calculateIndex (pageAfter c.start k) 3)) :
    c.pagesFrom (k + 1) q i := by
  obtain ⟨j, hkj, hj, rfl, rfl⟩ := hp
  refine ⟨j, ?_, hj, rfl, rfl⟩
  rcases Nat.lt_or_eq_of_le hkj with hlt | rfl
  · exact hlt
  · exact absurd ⟨rfl, rfl⟩ hne

lemma Cursor.pagesFrom_mono {q : List Index} {i : Index} (hp : c.pagesFrom (k + 1) q i) :
    c.pagesFrom k q i := by
  obtain ⟨j, hkj, hj, hpage⟩ := hp
  exact ⟨j, Nat.le_of_succ_le hkj, hj, hpage⟩

lemma Cursor.pagesFrom_self (hk : k < c.steps) :
    c.pagesFrom k (pathOf (pageAfter c.start k)) (calculateIndex (pageAfter c.start k) 3) :=
  ⟨k, Nat.le_refl k, hk, rfl, rfl⟩

lemma Cursor.path_eq_nil (hl : c.coveringLevel = 3) : c.path = [] := by
  rw [path, hl]
  rfl

/-- A step of `unmap` keeps a covering table that survives. -/
lemma Cursor.Survives.unmaps (hs : c.Survives s r k h) (hk : k < c.steps)
    (hunmaps : h.Unmaps B.user r (pageAfter c.start k) h') :
    (∃ t, h'.tableAt s.translator r c.path = some t) ∧ c.Survives s r (k + 1) h' := by
  rcases hs with hl | hD
  · refine ⟨⟨r, ?_⟩, .inl hl⟩
    rw [c.path_eq_nil hl]
    rfl
  · obtain ⟨halive, hD'⟩ := not_doomed_unmaps hD hunmaps (fun q i => c.pagesFrom_mono)
      (c.pagesFrom_self hk)
    exact ⟨halive, .inr hD'⟩

lemma Cursor.Survives.congr (hs : c.Survives s r k h) (htables : h'.tables = h.tables) :
    c.Survives s r k h' :=
  hs.imp id fun hD hD' => hD (hD'.congr htables.symm)

/-- A step of `unmap` that the covering table survives. -/
lemma Cursor.Valid.unmapStep_survives (hc : c.Valid s r h) (hI : h.Inv B.user r)
    (hroot : s.root = some r) (hk : k < c.steps) (hs : c.Survives s r k h) :
    ∃ h', c.unmapStep s .none (pageAfter c.start k) h = .ok h' ∧ c.Valid s r h' ∧
      c.Survives s r (k + 1) h' ∧ Updates B r h (pageAfter c.start k) (fun _ => none) h' := by
  obtain ⟨-, hva⟩ := hc.contains_pageAfter hk
  obtain ⟨h₁, hok, hunmaps⟩ := unmapPage_spec hI (pageAfter c.start k)
  obtain ⟨⟨t, halive⟩, hs₁⟩ := hs.unmaps hk hunmaps
  obtain ⟨h₂, hok₂, htables, hvalid, hupdates⟩ :=
    hc.unmapStep_spec hI hroot hva hok hunmaps halive
  exact ⟨h₂, hok₂, hvalid, hs₁.congr htables, hupdates⟩

lemma updateLeafMeta_tables {g : Guards} {status : Status AP} (hI : h.Inv B.user r)
    (hok : c.updateLeafMeta s g h va status = .ok h') : h'.tables = h.tables ∧ h'.Inv B.user r := by
  obtain ⟨leaf, -, hok⟩ := ok_of_bind hok
  cases leaf with
  | none =>
    cases hok
    exact ⟨rfl, hI⟩
  | some pa =>
    obtain ⟨d, -, hok⟩ := ok_of_bind hok
    obtain ⟨-, -, hok⟩ := ok_of_bind hok
    cases hok
    exact ⟨rfl, inv_setStatus hI _ _ _⟩

/-- What the loop of `unmap` knows about a covering table that is doomed. -/
structure Cursor.Fading (B : s.allocator.Spec) (r : UInt64) (c : Cursor) (h₀ : UserHeap AP SH X)
    (k : Nat) (h : UserHeap AP SH X) : Prop where
  inv : h.Inv B.user r
  sub : ∀ q t, q.length ≤ 3 → h.tableAt s.translator r q = some t →
    h₀.tableAt s.translator r q = some t
  doomed : Doomed s.translator r h c.path (c.pagesFrom k)

lemma Cursor.Fading.unmaps {h₁ : UserHeap AP SH X} (hF : c.Fading B r h₀ k h)
    (hunmaps : h.Unmaps B.user r (pageAfter c.start k) h₁) (htables : h'.tables = h₁.tables)
    (hI : h'.Inv B.user r) : c.Fading B r h₀ (k + 1) h' := by
  refine ⟨hI, ?_, ?_⟩
  · intro q t hq ht
    rw [Heap.tableAt_congr htables] at ht
    exact hF.sub q t hq (hunmaps.shrinks q t hq ht).1
  · exact (hF.doomed.unmaps hunmaps fun q i => c.pagesFrom_succ).congr htables

/-- When no page is left, a doomed covering table is gone. -/
lemma doomed_pagesFrom_gone (hD : Doomed s.translator r h c.path (c.pagesFrom c.steps))
    (hI : h.Inv B.user r) (hl : c.coveringLevel < 3) : h.tableAt s.translator r c.path = none := by
  have hne : c.path ≠ [] := by
    intro hnil
    have hlen := c.path_length
    rw [hnil, List.length_nil] at hlen
    omega
  refine Doomed.gone hI hne c.path_length_le ⟨hD.1, ?_⟩
  intro q i hq hpq hentry
  obtain ⟨j, hle, hlt, -⟩ := hD.2 q i hq hpq hentry
  omega

/-- At the end of the loop the covering table is not alive. -/
lemma Cursor.Fading.gone (hF : c.Fading B r h₀ c.steps h) (hI : h₀.Inv B.user r)
    (hl : c.coveringLevel < 3) {t : UInt64} (ht : h₀.tableAt s.translator r c.path = some t) :
    h.tables t = none := by
  have hpath := doomed_pagesFrom_gone hF.doomed hF.inv hl
  cases hn : h.tables t with
  | none => rfl
  | some n =>
    -- `t` would be at another path now, but it was at the path of the cursor
    obtain ⟨q, hq, hqt⟩ := hF.inv.tree.reached t n hn
    obtain rfl := hI.tree.inj q c.path t hq c.path_length_le (hF.sub q t hq hqt) ht
    rw [show follow _ h.tables r c.path = none from hpath] at hqt
    cases hqt

/-- If the loop of `unmap` runs to its end, a doomed covering table is gone. -/
lemma Cursor.unmap_fading (hI : h.Inv B.user r) (hroot : s.root = some r)
    (hD : Doomed s.translator r h c.path (c.pagesFrom 0)) (hok : c.unmap s .none h = .ok h') :
    c.Fading B r h c.steps h' := by
  have hbody : ∀ k h₁ h₂, k < c.steps → c.Fading B r h k h₁ →
      c.unmapStep s .none (pageAfter c.start k) h₁ = .ok h₂ → c.Fading B r h (k + 1) h₂ := by
    intro k h₁ h₂ _ hF hstep
    obtain ⟨h', hok', hunmaps⟩ := unmapPage_spec hF.inv (pageAfter c.start k)
    rw [unmapStep_eq hroot, hok'] at hstep
    obtain ⟨htables, hI₂⟩ := updateLeafMeta_tables hunmaps.inv hstep
    exact hF.unmaps hunmaps htables hI₂
  rw [unmap, ← pageAfter_zero c.start] at hok
  exact forPages_ok hbody (zero_add _) ⟨hI, fun _ _ _ ht => ht, hD⟩ hok

end Unmap

/-! ### Runs -/

section Runs

variable [Inhabited AP] [Inhabited SH]

section Performs

variable (hc : c.Valid s r h) (hI : h.Inv B.user r) (ha : c.Aligned) (hroot : s.root = some r)

include hc hI ha

include hroot in
lemma Cursor.Valid.map_performs (pa : UInt64) (attrs : Attributes AP SH) :
    Gives (s.unlocked AP) (c.map s .none h pa attrs) ((Op.map pa attrs).Performs B r c h) := by
  let I : Nat → UInt64 × UserHeap AP SH X → Prop := fun k x =>
    x.1 = pageAfter pa k ∧ x.2.Inv B.user r ∧ c.Valid s r x.2 ∧
      Swept s r c (Op.update c (.map pa attrs)) h k x.2
  have hbody : ∀ k x, k < c.steps → I k x →
      Gives (s.unlocked AP) (c.mapStep s .none attrs (pageAfter c.start k) x) (I (k + 1)) := by
    rintro k ⟨pa', h₁⟩ hk ⟨hpa, hI₁, hc₁, hsw⟩
    obtain ⟨-, hva⟩ := hc₁.contains_pageAfter hk
    refine (hc₁.mapStep_spec hI₁ hroot hva pa' attrs).mono ?_
    rintro ⟨pa'', h₂⟩ ⟨hpa', hkeeps, hupdates⟩
    refine ⟨?_, hupdates.inv, hc₁.of_keeps hkeeps, hsw.succ hc₁ ha hk hupdates ?_⟩
    · exact hpa'.trans ((congrArg (· + _) hpa).trans (pageAfter_succ pa k))
    · intro va hle hlt v
      have hindex : (va.toNat - c.start.toNat) / pageSize = k := by
        rw [Nat.div_eq_iff (by decide)]
        have hsucc : (k + 1) * pageSize = k * pageSize + pageSize := Nat.succ_mul k pageSize
        omega
      rw [Op.update, hindex]
      exact congrArg (fun a => some (Status.mapped a attrs.access)) hpa
  have hloop := forPages_gives hbody (zero_add _) (x := (pa, h))
    ⟨(pageAfter_zero pa).symm, hI, hc, .zero _⟩
  rw [pageAfter_zero] at hloop
  refine hloop.bind ?_
  rintro ⟨pa', h'⟩ ⟨-, hI', hc', hsw⟩
  exact hsw.performs ha hI' hc'

lemma Cursor.Valid.mark_performs (status : Status AP) :
    Gives (s.unlocked AP) (c.mark s .none h status)
      ((Op.mark status : Op AP SH).Performs B r c h) := by
  let I : Nat → UserHeap AP SH X → Prop := fun k x =>
    x.Inv B.user r ∧ c.Valid s r x ∧ Swept s r c (Op.update c (.mark status : Op AP SH)) h k x
  have hbody : ∀ k x, k < c.steps → I k x →
      Gives (s.unlocked AP) (c.markStep s .none status (pageAfter c.start k) x) (I (k + 1)) := by
    rintro k h₁ hk ⟨hI₁, hc₁, hsw⟩
    obtain ⟨-, hva⟩ := hc₁.contains_pageAfter hk
    refine (hc₁.markStep_spec hI₁ hva status).mono ?_
    rintro h₂ ⟨hkeeps, hupdates⟩
    exact ⟨hupdates.inv, hc₁.of_keeps hkeeps, hsw.succ hc₁ ha hk hupdates fun _ _ _ _ => rfl⟩
  have hloop := forPages_gives hbody (zero_add _) ⟨hI, hc, .zero _⟩
  rw [pageAfter_zero] at hloop
  refine hloop.mono ?_
  rintro h' ⟨hI', hc', hsw⟩
  exact hsw.performs ha hI' hc'

omit [Inhabited AP] [Inhabited SH] in
include hroot in
lemma Cursor.Valid.unmap_performs (hs : c.Survives s r 0 h) :
    ∃ h', c.unmap s .none h = .ok h' ∧ (Op.unmap : Op AP SH).Performs B r c h h' := by
  let I : Nat → UserHeap AP SH X → Prop := fun k x =>
    x.Inv B.user r ∧ c.Valid s r x ∧ c.Survives s r k x ∧
      Swept s r c (Op.update c (.unmap : Op AP SH)) h k x
  have hbody : ∀ k x, k < c.steps → I k x →
      ∃ x', c.unmapStep s .none (pageAfter c.start k) x = .ok x' ∧ I (k + 1) x' := by
    rintro k h₁ hk ⟨hI₁, hc₁, hs₁, hsw⟩
    obtain ⟨h₂, hok, hc₂, hs₂, hupdates⟩ := hc₁.unmapStep_survives hI₁ hroot hk hs₁
    exact ⟨h₂, hok, hupdates.inv, hc₂, hs₂, hsw.succ hc₁ ha hk hupdates fun _ _ _ _ => rfl⟩
  obtain ⟨h', hok, hI', hc', -, hsw⟩ :=
    forPages_returns hbody (zero_add _) ⟨hI, hc, hs, .zero _⟩
  rw [pageAfter_zero] at hok
  exact ⟨h', hok, hsw.performs ha hI' hc'⟩

end Performs

/-- Good operations do what they should to the view of every page. -/
lemma Op.run_performs (hc : c.Valid s r h) (hI : h.Inv B.user r) (ha : c.Aligned)
    (hroot : s.root = some r) (op : Op AP SH) (hgood : op.Good s r c h) :
    Gives (s.unlocked AP) (op.run s .none c h) (op.Performs B r c h) := by
  cases op with
  | map pa attrs => exact hc.map_performs hI ha hroot pa attrs
  | mark status => exact hc.mark_performs hI ha status
  | unmap =>
    obtain ⟨h', hok, hperforms⟩ := hc.unmap_performs hI ha hroot hgood
    rw [run, hok]
    exact hperforms

/-! ### Statuses after an operation -/

/-- The status of an address as a new cursor reports it. -/
def AddressSpace.statusAt (s : AddressSpace X) (h : UserHeap AP SH X) (start stop va : UInt64) :
    Except Trap (Status AP) := do
  let c ← s.lock h start stop
  c.query s .none h va

/-- The operation set the statuses of the pages in the range and no others. -/
structure Op.Correct (s : AddressSpace X) (c : Cursor) (op : Op AP SH) (h h' : UserHeap AP SH X) :
    Prop where
  inside : ∀ va, c.Contains va → va.toNat % pageSize = 0 →
    c.query s .none h' va = .ok (op.intended c va)
  outside : ∀ start stop va, stop.toNat ≤ 2 ^ 48 → start ≤ va → va < stop → ¬ c.Contains va →
    ∃ status, s.statusAt h start stop va = .ok status ∧ s.statusAt h' start stop va = .ok status

omit [Inhabited AP] [Inhabited SH] in
lemma AddressSpace.statusAt_eq (hI : h.Inv B.user r) (hroot : s.root = some r)
    (hlevel : s.maxLevel = 3) {start stop : UInt64} (hstop : stop.toNat ≤ 2 ^ 48) (hle : start ≤ va)
    (hlt : va < stop) :
    s.statusAt h start stop va = .ok ((view s.allocator r h va).getD .invalid) := by
  obtain ⟨c, hc, rfl, rfl, hvalid⟩ := lock_spec hI hroot hlevel hstop start
  rw [statusAt, hc]
  exact hvalid.query_eq hI ⟨hle, hlt⟩

lemma Cursor.pageAfter_eq (ha : c.Aligned) (pa : UInt64) (hva : c.Contains va)
    (haligned : va.toNat % pageSize = 0) :
    pageAfter pa ((va.toNat - c.start.toNat) / pageSize) = pa + (va - c.start) := by
  have hstart := ha.start
  have hmul : (va.toNat - c.start.toNat) / pageSize * 2 ^ pageShift =
      va.toNat - c.start.toNat := by
    unfold pageSize pageShift at *
    omega
  rw [pageAfter, hmul]
  congr 1
  rw [← UInt64.toNat_inj, UInt64.toNat_sub_of_le _ _ hva.1, UInt64.toNat_ofNat']
  exact Nat.mod_eq_of_lt ((Nat.sub_le _ _).trans_lt va.toNat_lt)

omit [Inhabited AP] [Inhabited SH] in
lemma Op.Performs.correct (hp : op.Performs B r c h h') (hc : c.Valid s r h) (hI : h.Inv B.user r)
    (ha : c.Aligned) (hroot : s.root = some r) (hlevel : s.maxLevel = 3) (hgood : op.Good s r c h) :
    op.Correct s c h h' := by
  constructor
  · intro va hva haligned
    rw [hp.valid.query_eq hp.inv hva, hp.view va (hc.toNat_lt hva), if_pos hva]
    cases op with
    | map pa attrs =>
      rw [update, c.pageAfter_eq ha pa hva haligned]
      rfl
    | unmap => rfl
    | mark status =>
      rcases hgood with rfl | hmapped
      · cases Vm.view s.allocator r h va <;> rfl
      · obtain ⟨v, hv⟩ := Option.isSome_iff_exists.1 (hmapped va hva haligned)
        rw [hv]
        rfl
  · intro start stop va hstop hle hlt hnot
    have hva : va.toNat < 2 ^ 48 := (UInt64.lt_iff_toNat_lt.1 hlt).trans_le hstop
    refine ⟨_, s.statusAt_eq hI hroot hlevel hstop hle hlt, ?_⟩
    rw [s.statusAt_eq hp.inv hroot hlevel hstop hle hlt, hp.view va hva, if_neg hnot]

lemma Op.good_of_correct (hc : c.Valid s r h) (hI : h.Inv B.user r) (ha : c.Aligned)
    (hroot : s.root = some r) (hok : op.run s .none c h = .ok h') (hcorrect : op.Correct s c h h') :
    op.Good s r c h := by
  cases op with
  | map pa attrs => trivial
  | mark status =>
    by_contra hbad
    rw [Good, not_or] at hbad
    obtain ⟨hne, hunmapped⟩ := hbad
    push Not at hunmapped
    obtain ⟨va, hva, haligned, hnone⟩ := hunmapped
    have hp := hc.mark_performs hI ha status
    rw [show c.mark s .none h status = .ok h' from hok] at hp
    have hquery := hcorrect.inside va hva haligned
    rw [hp.valid.query_eq hp.inv hva, hp.view va (hc.toNat_lt hva), if_pos hva] at hquery
    rw [ne_eq, Bool.not_eq_true, Option.isSome_eq_false_iff, Option.isNone_iff_eq_none] at hnone
    rw [hnone] at hquery
    cases hquery
    exact hne rfl
  | unmap =>
    by_contra hbad
    rw [Good, Cursor.Survives, not_or, not_not] at hbad
    obtain ⟨hl, hD⟩ := hbad
    have hl' : c.coveringLevel < 3 := lt_of_le_of_ne hc.level_le hl
    obtain ⟨t, ht, hpa⟩ := hc.covering
    have hgone := (c.unmap_fading hI hroot hD hok).gone hI hl' ht
    -- the range is not empty, since the covering table was there at first
    have hsteps : 0 < c.steps := by
      rw [Nat.pos_iff_ne_zero]
      intro hzero
      rw [run, Cursor.unmap, hzero] at hok
      cases hok
      obtain ⟨n, hn, -⟩ := hI.alive ht c.path_length_le
      rw [hn] at hgone
      cases hgone
    obtain ⟨-, hva⟩ := hc.contains_pageAfter hsteps
    rw [pageAfter_zero] at hva
    have hquery := hcorrect.inside c.start hva ha.start
    have hread : c.query s .none h' c.start = .error .badTable := by
      have htranslate := (tracked_of_tableAt hI c.path_length_le ht).translate
      refine (if_pos hva).trans ?_
      rw [Cursor.queryFrom, hpa, htranslate]
      simp only [Heap.readEntry, hgone, bind, Except.bind]
    rw [hread] at hquery
    cases hquery

/-- A step of a run in which every operation is good. -/
def Cursor.GoodStep (s : AddressSpace X) (r : UInt64) (c : Cursor) (h h' : UserHeap AP SH X) :
    Prop :=
  ∃ op : Op AP SH, op.Good s r c h ∧ op.run s .none c h = .ok h'

lemma Cursor.Valid.of_run (hc : c.Valid s r h₀) (hI : h₀.Inv B.user r) (ha : c.Aligned)
    (hroot : s.root = some r) (hrun : Relation.ReflTransGen (c.GoodStep s r) h₀ h) :
    c.Valid s r h ∧ h.Inv B.user r := by
  induction hrun with
  | refl => exact ⟨hc, hI⟩
  | tail _ hstep ih =>
    obtain ⟨op, hgood, hok⟩ := hstep
    have hperforms := op.run_performs ih.1 ih.2 ha hroot hgood
    rw [hok] at hperforms
    exact ⟨hperforms.valid, hperforms.inv⟩

/-- In every run of good operations through a cursor, the next operation is correct exactly if it
is good. -/
theorem Cursor.correct_iff_good (B : s.allocator.Spec) (hroot : s.root = some r)
    (hlevel : s.maxLevel = 3) (hI : h₀.Inv B.user r) {start stop : UInt64}
    (hstart : start.toNat % pageSize = 0) (haligned : stop.toNat % pageSize = 0)
    (hstop : stop.toNat ≤ 2 ^ 48) (hlock : s.lock h₀ start stop = .ok c)
    (hrun : Relation.ReflTransGen (c.GoodStep s r) h₀ h) (op : Op AP SH) :
    (op.Good s r c h → Gives (s.unlocked AP) (op.run s .none c h) (op.Correct s c h)) ∧
      ∀ h', op.run s .none c h = .ok h' → op.Correct s c h h' → op.Good s r c h := by
  obtain ⟨c', hc', rfl, rfl, hvalid⟩ := s.lock_spec hI hroot hlevel hstop start
  rw [hlock] at hc'
  cases hc'
  have ha : c.Aligned := ⟨hstart, haligned⟩
  obtain ⟨hc, hI'⟩ := hvalid.of_run hI ha hroot hrun
  constructor
  · intro hgood
    refine (op.run_performs hc hI' ha hroot hgood).mono ?_
    intro h' hperforms
    exact hperforms.correct hc hI' ha hroot hlevel hgood
  · intro h' hok hcorrect
    exact Op.good_of_correct hc hI' ha hroot hok hcorrect

end Runs

/-! ### A small address space -/

/-- Every page below 2⁴⁸ has a descriptor. -/
def sampleSpace : AddressSpace Nat :=
  ⟨some 0x4000, 3, ⟨bumpAllocator, identity, some ⟨0, 2 ^ 48, 2 ^ 34⟩⟩⟩

lemma sampleSpace_tracked {t : UInt64} (haligned : t.toNat % 2 ^ pageShift = 0)
    (hlt : t.toNat < 2 ^ 48) : sampleSpace.allocator.Tracked t := by
  refine ⟨rfl, haligned, t.toNat / 2 ^ pageShift, ?_⟩
  have hpfn : t.toNat / 2 ^ pageShift < 2 ^ 34 := by
    unfold pageShift
    omega
  simp only [sampleSpace, UserAllocator.descriptor, PageDescriptors.getPageDescriptor, identity, id,
    Nat.zero_le, true_and, if_pos hlt, Nat.sub_zero]
  exact if_pos hpfn

def sampleSpec : sampleSpace.allocator.Spec where
  base := bumpSpec
  tracked := by
    intro n t m hx
    have hx' : bumpAllocator.allocTable n = .ok (t, m) := hx
    have ht := (bumpAllocator_ok hx').1
    simp only [bumpAllocator] at hx'
    split_ifs at hx' with hlt
    refine sampleSpace_tracked ?_ ?_
    · rw [ht]
      exact Nat.mul_mod_left _ _
    · omega

def sampleHeap : UserHeap Bool Bool Nat := Heap.init 0x4000 ⟨0, fun _ => none⟩

lemma sampleHeap_inv : sampleHeap.Inv sampleSpec.user 0x4000 := by
  have hlive : (sampleSpec.user : AllocatorSpec (sampleSpace.unlocked Bool) _).live
      ⟨0, fun _ => none⟩ 0x4000 :=
    ⟨Nat.le_refl _, sampleSpace_tracked (by decide) (by decide)⟩
  exact (represents_init hlive).inv

def sampleCursor : Cursor := ⟨0x4000, 0xc000, [], some (0x4000, 1), 0x4000, 3⟩

lemma sampleSpace_lock : sampleSpace.lock sampleHeap 0x4000 0xc000 = .ok sampleCursor := rfl

theorem Cursor.correct_map : ∃ h',
    sampleCursor.map sampleSpace .none sampleHeap 0x80000 ⟨true, true, false, false, 1⟩ = .ok h' ∧
      sampleCursor.query sampleSpace .none h' 0x8000 = .ok (.mapped 0x84000 true) := by
  have hloop : ∃ x, forPages (sampleCursor.mapStep sampleSpace .none ⟨true, true, false, false, 1⟩)
      sampleCursor.steps sampleCursor.start (0x80000, sampleHeap) = .ok x := ⟨_, rfl⟩
  obtain ⟨x, hx⟩ := hloop
  have hmap : sampleCursor.map sampleSpace .none sampleHeap 0x80000
      ⟨true, true, false, false, 1⟩ = .ok x.2 := by
    rw [Cursor.map, hx]
    rfl
  have hcorrect := (Cursor.correct_iff_good sampleSpec rfl rfl sampleHeap_inv (by decide)
    (by decide) (by decide) sampleSpace_lock .refl
    (.map 0x80000 ⟨true, true, false, false, 1⟩)).1 trivial
  rw [Op.run, hmap] at hcorrect
  exact ⟨x.2, hmap, hcorrect.inside 0x8000 (by decide) (by decide)⟩

/-- A page that is not mapped is marked, and its status is still reported as invalid. -/
theorem Cursor.mark_not_reported : ∃ h',
    sampleSpace.lock sampleHeap 0x4000 0xc000 = .ok sampleCursor ∧
      sampleCursor.mark sampleSpace .none sampleHeap (.privateAnonymous true) = .ok h' ∧
      sampleCursor.query sampleSpace .none h' 0x8000 = .ok .invalid :=
  ⟨_, rfl, rfl, rfl⟩

end Mars.Vm
