import Mars.Paging.Basic

/-!
# The tree of page tables

The tables below a root form a tree of depth 3. Every table on it, except the root and while an
operation is working on it, has a valid entry, and nothing else is alive. `map_page` hangs at
most three new tables into the tree and `unmap_page` takes out those that become empty.
-/

namespace Mars.Paging

open Function Lib.NodeTree Tte

variable {AP SH X : Type} {A : TableAllocator X} {tr : AddressTranslator}

/-- How a table allocator behaves: it hands out tables that are not in use, not at the physical
address 0 and that the translator finds again, and it takes back what is in use. -/
structure AllocatorSpec (A : TableAllocator X) (tr : AddressTranslator) where
  /-- The tables in use. -/
  live : X → UInt64 → Prop
  fresh : ∀ x t x', A.allocTable x = .ok (t, x') → ¬ live x t
  phys_ne_zero : ∀ x t x', A.allocTable x = .ok (t, x') → tr.dmapToPhys t ≠ 0
  translate : ∀ x t x', A.allocTable x = .ok (t, x') → tr.physToDmap (tr.dmapToPhys t) = t
  live_alloc : ∀ x t x', A.allocTable x = .ok (t, x') → ∀ u, u = t ∨ live x u → live x' u
  alloc_error : ∀ x e, A.allocTable x = .error e → e = .outOfMemory
  free_ok : ∀ x t, live x t → ∃ x', A.freeTable t x = .ok x'
  live_free : ∀ x t x', A.freeTable t x = .ok x' → ∀ u, u ≠ t → live x u → live x' u

/-- The allocator went from one state to another without a call about the table `t`. -/
inductive Untouched (S : AllocatorSpec A tr) (t : UInt64) : X → X → Prop where
  | refl (x : X) : Untouched S t x x
  | alloc {x y z : X} {u : UInt64} (h : Untouched S t x y) (hu : u ≠ t)
      (hx : A.allocTable y = .ok (u, z)) : Untouched S t x z
  | free {x y z : X} {u : UInt64} (h : Untouched S t x y) (hu : u ≠ t) (hlive : S.live y u)
      (hx : A.freeTable u y = .ok z) : Untouched S t x z

lemma Untouched.trans {S : AllocatorSpec A tr} {t : UInt64} {x y z : X}
    (h₁ : Untouched S t x y) (h₂ : Untouched S t y z) : Untouched S t x z := by
  induction h₂ with
  | refl => exact h₁
  | alloc _ hu hx ih => exact ih.alloc hu hx
  | free _ hu hlive hx ih => exact ih.free hu hlive hx

/-! ### Entries -/

def Tte.child (tr : AddressTranslator) (e : Tte AP SH) : Option UInt64 :=
  if e.isValid then some (tr.physToDmap e.address) else none

def Tte.valid? (e : Tte AP SH) : Option (Tte AP SH) := if e.isValid then some e else none

/-- Entries of levels 0 to 2: both tests for a child agree on them, and the address is that of the
table they lead to. -/
def Tte.Coherent (tr : AddressTranslator) (e : Tte AP SH) : Prop :=
  (e.isValid = true ∧ e.isTable = true ∧ e.address ≠ 0 ∧
    tr.dmapToPhys (tr.physToDmap e.address) = e.address) ∨ (e.isValid = false ∧ e.address = 0)

section Entries

variable {e : Tte AP SH}

lemma Tte.child_of_valid (he : e.isValid = true) : e.child tr = some (tr.physToDmap e.address) := by
  rw [Tte.child, if_pos he]

lemma Tte.child_of_not_valid (he : e.isValid = false) : e.child tr = none := by
  rw [Tte.child, he]
  rfl

lemma Tte.Coherent.hasTableAddress_eq (he : e.Coherent tr) : hasTableAddress e = e.isValid := by
  rcases he with ⟨hv, ht, ha, -⟩ | ⟨hv, ha⟩
  · simp [hasTableAddress, hv, ht, ha]
  · simp [hasTableAddress, hv, ha]

lemma Tte.Coherent.address_eq (he : e.Coherent tr) (hv : e.isValid = true) :
    tr.dmapToPhys (tr.physToDmap e.address) = e.address := by
  rcases he with ⟨-, -, -, ha⟩ | ⟨hnot, -⟩
  · exact ha
  · rw [hv] at hnot
    cases hnot

lemma Tte.coherent_clear (e : Tte AP SH) : e.clear.Coherent tr := .inr ⟨rfl, rfl⟩

structure Links (tr : AddressTranslator) (e : Tte AP SH) (u : UInt64) : Prop where
  isValid : e.isValid = true
  isTable : e.isTable = true
  address : e.address = tr.dmapToPhys u

lemma links_linkTo (e : Tte AP SH) (u : UInt64) : Links tr (e.linkTo (tr.dmapToPhys u)) u :=
  ⟨rfl, rfl, rfl⟩

lemma Links.child {u : UInt64} (he : Links tr e u) (hu : tr.physToDmap (tr.dmapToPhys u) = u) :
    e.child tr = some u := by
  rw [child_of_valid he.isValid, he.address, hu]

lemma Links.coherent {u : UInt64} (he : Links tr e u)
    (hu : tr.physToDmap (tr.dmapToPhys u) = u) (hne : tr.dmapToPhys u ≠ 0) : e.Coherent tr := by
  refine .inl ⟨he.isValid, he.isTable, ?_, ?_⟩
  · rw [he.address]
    exact hne
  · rw [he.address, hu]

lemma TTable.new_isValid [Inhabited AP] [Inhabited SH] (i : Index) :
    ((TTable.new : TTable AP SH) i).isValid = false := rfl

end Entries

/-! ### The invariant -/

namespace Heap

/-- The table at the end of a path from the root. -/
abbrev tableAt (tr : AddressTranslator) (h : Heap AP SH X) (r : UInt64) (p : List Index) :
    Option UInt64 :=
  follow (Tte.child tr) h.tables r p

abbrev entriesAt (tr : AddressTranslator) (h : Heap AP SH X) (r : UInt64) (p : List Index) :
    Option (TTable AP SH) :=
  nodeAt (Tte.child tr) h.tables r p

/-- Its entry with the index `i`, if that is valid. -/
def entryAt (tr : AddressTranslator) (h : Heap AP SH X) (r : UInt64) (p : List Index) (i : Index) :
    Option (Tte AP SH) :=
  (h.entriesAt tr r p).bind fun n => (n i).valid?

structure Inv (S : AllocatorSpec A tr) (r : UInt64) (h : Heap AP SH X) : Prop where
  tree : IsTree (Tte.child tr) h.tables r 3
  coherent : ∀ p n, p.length < 3 → h.entriesAt tr r p = some n → ∀ i, (n i).Coherent tr
  page : ∀ p n, p.length = 3 → h.entriesAt tr r p = some n →
    ∀ i, (n i).isValid = true → (n i).isTable = true
  owned : ∀ t n, h.tables t = some n → S.live h.allocator t
  /-- A table that is alive was handed out once more than it was freed, any other one as often
  as it was freed. -/
  logged : ∀ t, h.log.count (.alloc t) =
    h.log.count (.free t) + if t ≠ r ∧ (h.tables t).isSome then 1 else 0

/-- Every table whose path satisfies `P` has a valid entry, except perhaps the one at `exc` and
the root, which is at the empty path. -/
def Occupied (tr : AddressTranslator) (r : UInt64) (P : List Index → Prop) (exc : List Index)
    (h : Heap AP SH X) : Prop :=
  ∀ p n, P p → p.length ≤ 3 → p ≠ [] → p ≠ exc → h.entriesAt tr r p = some n →
    ∃ i, (n i).isValid = true

/-- Tables were added at most. -/
def Extends (S : AllocatorSpec A tr) (r : UInt64) (h h' : Heap AP SH X) : Prop :=
  ∀ q t, q.length ≤ 3 → h.tableAt tr r q = some t →
    h'.tableAt tr r q = some t ∧ Untouched S t h.allocator h'.allocator

/-- Tables were removed at most. -/
def Shrinks (S : AllocatorSpec A tr) (r : UInt64) (h h' : Heap AP SH X) : Prop :=
  ∀ q t, q.length ≤ 3 → h'.tableAt tr r q = some t →
    h.tableAt tr r q = some t ∧ Untouched S t h.allocator h'.allocator

variable {S : AllocatorSpec A tr} {h h' : Heap AP SH X} {r t u : UInt64} {p q exc : List Index}
  {i j : Index} {n m : TTable AP SH} {e : Tte AP SH} {x : X} {P : List Index → Prop}

lemma Extends.refl (h : Heap AP SH X) : h.Extends S r h :=
  fun _ _ _ hq => ⟨hq, .refl _⟩

lemma Extends.trans {h'' : Heap AP SH X} (h₁ : h.Extends S r h') (h₂ : h'.Extends S r h'') :
    h.Extends S r h'' := by
  intro q t hq ht
  obtain ⟨ht', hu₁⟩ := h₁ q t hq ht
  obtain ⟨ht'', hu₂⟩ := h₂ q t hq ht'
  exact ⟨ht'', hu₁.trans hu₂⟩

lemma Shrinks.refl (h : Heap AP SH X) : h.Shrinks S r h :=
  fun _ _ _ hq => ⟨hq, .refl _⟩

lemma Shrinks.trans {h'' : Heap AP SH X} (h₁ : h.Shrinks S r h') (h₂ : h'.Shrinks S r h'') :
    h.Shrinks S r h'' := by
  intro q t hq ht
  obtain ⟨ht', hu₂⟩ := h₂ q t hq ht
  obtain ⟨ht'', hu₁⟩ := h₁ q t hq ht'
  exact ⟨ht'', hu₁.trans hu₂⟩

lemma readEntry_eq (hn : h.tables t = some n) : h.readEntry t i = .ok (n i) := by
  simp only [readEntry, hn]

lemma writeEntry_eq (hn : h.tables t = some n) (i : Index) (e : Tte AP SH) :
    h.writeEntry t i e = .ok { h with tables := setEntry h.tables t i e } := by
  simp only [writeEntry, hn]

lemma isTableEmpty_eq (hn : h.tables t = some n) :
    h.isTableEmpty t = .ok (decide (∀ i, (n i).isValid = false)) := by
  simp only [isTableEmpty, hn]

lemma entryAt_eq (hn : h.entriesAt tr r p = some n) (i : Index) :
    h.entryAt tr r p i = (n i).valid? := by
  rw [entryAt, hn, Option.bind_some]

lemma entryAt_none (hn : h.entriesAt tr r p = none) (i : Index) : h.entryAt tr r p i = none := by
  rw [entryAt, hn]
  rfl

lemma Inv.alive (hI : h.Inv S r) (hp : h.tableAt tr r p = some t) (hpd : p.length ≤ 3) :
    ∃ n, h.tables t = some n ∧ h.entriesAt tr r p = some n := by
  obtain ⟨n, hn⟩ := hI.tree.alive p t hpd hp
  exact ⟨n, hn, (nodeAt_of_follow hp).trans hn⟩

lemma tableAt_of_prefix (hpq : p <+: q) (hq : h.tableAt tr r q = some t) :
    ∃ u, h.tableAt tr r p = some u :=
  follow_of_prefix hpq hq

/-! ### Edits of the tree -/

def put (h : Heap AP SH X) (t : UInt64) (i : Index) (e : Tte AP SH) : Heap AP SH X :=
  { h with tables := setEntry h.tables t i e }

/-- The logged calls only depend on which tables are alive. -/
lemma Inv.logged_put (hI : h.Inv S r) (u : UInt64) : (h.put t i e).log.count (.alloc u) =
    (h.put t i e).log.count (.free u) +
      if u ≠ r ∧ ((h.put t i e).tables u).isSome then 1 else 0 := by
  have hlog := hI.logged u
  rw [put, setEntry_isSome]
  exact hlog

lemma Inv.owned_put (hI : h.Inv S r) (u : UInt64) (m : TTable AP SH)
    (hm : (h.put t i e).tables u = some m) : S.live (h.put t i e).allocator u := by
  have hsome : (h.tables u).isSome := by
    rw [← setEntry_isSome (a := t) (i := i) (e := e)]
    exact Option.isSome_of_eq_some hm
  obtain ⟨n, hn⟩ := Option.isSome_iff_exists.1 hsome
  exact hI.owned u n hn

section Leaf

variable (hI : h.Inv S r) (hp : h.tableAt tr r p = some t) (hpd : p.length = 3)
  (hn : h.tables t = some n)

include hI hp hpd hn

omit hn in
lemma Inv.tableAt_put (hq : q.length ≤ 3) : (h.put t i e).tableAt tr r q = h.tableAt tr r q :=
  hI.tree.follow_setEntry_leaf hp hpd hq

lemma Inv.entriesAt_put (i : Index) (e : Tte AP SH) (q : List Index) (hq : q.length ≤ 3) :
    (h.put t i e).entriesAt tr r q =
    if q = p then some (update n i e) else h.entriesAt tr r q :=
  hI.tree.nodeAt_setEntry_leaf hp hpd hn hq

lemma Inv.entryAt_put (hq : q.length ≤ 3) (j : Index) : (h.put t i e).entryAt tr r q j =
    if q = p ∧ j = i then e.valid? else h.entryAt tr r q j := by
  have hput := hI.entriesAt_put hp hpd hn i e q hq
  by_cases hqp : q = p
  · rw [if_pos hqp] at hput
    rw [entryAt_eq hput, hqp, entryAt_eq ((nodeAt_of_follow hp).trans hn)]
    by_cases hji : j = i
    · rw [if_pos ⟨rfl, hji⟩, hji, update_self]
    · rw [if_neg (fun hc => hji hc.2), update_of_ne hji]
  · rw [if_neg hqp] at hput
    rw [if_neg (fun hc => hqp hc.1), entryAt, hput, entryAt]

lemma Inv.put_leaf (ht : e.isValid = true → e.isTable = true) : (h.put t i e).Inv S r := by
  have hput := hI.entriesAt_put hp hpd hn i e
  have hold : h.entriesAt tr r p = some n := (nodeAt_of_follow hp).trans hn
  refine ⟨hI.tree.setEntry_leaf hp hpd, ?_, ?_, hI.owned_put, hI.logged_put⟩
  · intro q m hq hm
    have hqp : q ≠ p := by
      rintro rfl
      exact absurd hq (not_lt.2 hpd.symm.le)
    rw [hput q hq.le, if_neg hqp] at hm
    exact hI.coherent q m hq hm
  · intro q m hq hm j hj
    rw [hput q hq.le] at hm
    split_ifs at hm with hqp
    · cases hm
      by_cases hji : j = i
      · rw [hji, update_self] at hj ⊢
        exact ht hj
      · rw [update_of_ne hji] at hj ⊢
        exact hI.page p n hpd hold j hj
    · exact hI.page q m hq hm j hj

lemma Inv.occupied_put (hocc : h.Occupied tr r P exc) (hexc : exc = [] ∨ exc = p)
    {exc' : List Index} (hexc' : exc' = p ∨ (exc' = [] ∧ e.isValid = true)) :
    (h.put t i e).Occupied tr r P exc' := by
  intro q m hP hq hne hqe hm
  rw [hI.entriesAt_put hp hpd hn i e q hq] at hm
  split_ifs at hm with hqp
  · cases hm
    rcases hexc' with rfl | ⟨rfl, hv⟩
    · exact absurd hqp hqe
    · exact ⟨i, by rw [update_self, hv]⟩
  · refine hocc q m hP hq hne ?_ hm
    rcases hexc with rfl | rfl
    · exact hne
    · exact hqp

end Leaf

lemma Inv.fresh (hI : h.Inv S r) (hx : A.allocTable h.allocator = .ok (u, x)) :
    h.tables u = none := by
  cases hu : h.tables u with
  | none => rfl
  | some n => exact absurd (hI.owned u n hu) (S.fresh _ _ _ hx)

/-- The entries above the leaves stay coherent when an entry and the table it leads to are
exchanged. -/
lemma coherent_graft {f : Nodes UInt64 Index (Tte AP SH)} {y : Option (TTable AP SH)}
    (ht : IsTree (Tte.child tr) f r 3) (hy : IsGraft (Tte.child tr) f r 3 p t i e u y)
    (hn : f t = some n) (he : e.Coherent tr) (hnew : ∀ m, y = some m → ∀ j, (m j).Coherent tr)
    (hf : ∀ p n, p.length < 3 → nodeAt (Tte.child tr) f r p = some n → ∀ i, (n i).Coherent tr) :
    ∀ q m, q.length < 3 → nodeAt (Tte.child tr) (graft f t i e u y) r q = some m →
      ∀ j, (m j).Coherent tr := by
  intro q m hq hm j
  rw [ht.nodeAt_graft hy hn hq.le] at hm
  split_ifs at hm with hqi hqp
  · exact hnew m hm j
  · cases hm
    by_cases hji : j = i
    · rw [hji, update_self]
      exact he
    · rw [update_of_ne hji]
      exact hf p n hy.short ((nodeAt_of_follow hy.parent).trans hn) j
  · exact hf q m hq hm j

section Exchange

/-- The heap after the table `u` was exchanged for `y`, with an entry that leads there. -/
def exchange (h : Heap AP SH X) (t : UInt64) (i : Index) (e : Tte AP SH) (u : UInt64)
    (y : Option (TTable AP SH)) (k : Event) (x : X) : Heap AP SH X :=
  { tables := graft h.tables t i e u y
    log := h.log ++ [k]
    allocator := x }

variable {y : Option (TTable AP SH)} {k : Event} (hI : h.Inv S r)
  (hy : IsGraft (Tte.child tr) h.tables r 3 p t i e u y) (hn : h.tables t = some n)

include hI hy

lemma Inv.tableAt_exchange (hq : q.length ≤ 3) : (h.exchange t i e u y k x).tableAt tr r q =
    if q = p ++ [i] then y.map fun _ => u else h.tableAt tr r q :=
  hI.tree.follow_graft hy hq

include hn

lemma Inv.entriesAt_exchange (hq : q.length ≤ 3) : (h.exchange t i e u y k x).entriesAt tr r q =
    if q = p ++ [i] then y
    else if q = p then some (update n i e)
    else h.entriesAt tr r q :=
  hI.tree.nodeAt_graft hy hn hq

/-- Tables without valid entries map no pages. -/
lemma Inv.entryAt_exchange (hold : ∀ m, h.tables u = some m → ∀ j, (m j).isValid = false)
    (hnew : ∀ m, y = some m → ∀ j, (m j).isValid = false) (hq : q.length = 3) (j : Index) :
    (h.exchange t i e u y k x).entryAt tr r q j = h.entryAt tr r q j := by
  have hnone : ∀ o : Option (TTable AP SH), (∀ m, o = some m → ∀ j, (m j).isValid = false) →
      (o.bind fun n => (n j).valid?) = none := by
    intro o ho
    cases o with
    | none => rfl
    | some m => rw [Option.bind_some, Tte.valid?, ho m rfl j]; rfl
  rw [entryAt, hI.entriesAt_exchange hy hn hq.le]
  by_cases hqi : q = p ++ [i]
  · rw [if_pos hqi, hnone y hnew, hqi, entryAt, entriesAt, IsTree.nodeAt_of_isGraft hy,
      hnone _ hold]
  · have hqp : q ≠ p := by
      rintro rfl
      exact absurd hy.short (not_lt.2 hq.symm.le)
    rw [if_neg hqi, if_neg hqp, entryAt]

/-- A table is handed out and hung into the tree, or taken out and given back. -/
lemma Inv.exchange (he : e.Coherent tr)
    (hnew : ∀ m, y = some m → ∀ j, (m j).isValid = false ∧ (m j).address = 0)
    (hev : (k = .alloc u ∧ h.tables u = none ∧ y.isSome) ∨
      (k = .free u ∧ (h.tables u).isSome ∧ y = none))
    (hlive : ∀ v, (v = u → y.isSome) → (v ≠ u → S.live h.allocator v) → S.live x v) :
    (h.exchange t i e u y k x).Inv S r := by
  have hentries := fun q (hq : List.length q ≤ 3) =>
    hI.entriesAt_exchange (k := k) (x := x) hy hn (q := q) hq
  have hab := hI.tree.ne_of_isGraft hy
  refine ⟨hI.tree.graft hy, ?_, ?_, ?_, ?_⟩
  · exact coherent_graft hI.tree hy hn he (fun m hm j => .inr (hnew m hm j)) hI.coherent
  · intro q m hq hm j hj
    rw [hentries q hq.le] at hm
    split_ifs at hm with hqi hqp
    · rw [(hnew m hm j).1] at hj
      cases hj
    · exact absurd hq (by rw [hqp]; exact ne_of_lt hy.short)
    · exact hI.page q m hq hm j hj
  · intro v m hm
    refine hlive v ?_ fun hvu => ?_
    · rintro rfl
      rw [← graft_node (h := h.tables) (i := i) (e := e) hab y]
      exact Option.isSome_of_eq_some hm
    · have hsome : (h.tables v).isSome := by
        rw [← graft_isSome (a := t) hvu y]
        exact Option.isSome_of_eq_some hm
      obtain ⟨m', hm'⟩ := Option.isSome_iff_exists.1 hsome
      exact hI.owned v m' hm'
  · intro v
    have hlog := hI.logged v
    change (h.log ++ [k]).count (Event.alloc v) = (h.log ++ [k]).count (Event.free v) +
      if v ≠ r ∧ (graft h.tables t i e u y v).isSome then 1 else 0
    rw [List.count_append, List.count_append, hlog]
    by_cases hvu : v = u
    · have hroot : u ≠ r := by
        rintro rfl
        have heq : [] = p ++ [i] := hI.tree.eq_of_isGraft hy (Nat.zero_le 3) rfl
        simp at heq
      rw [hvu, graft_node hab]
      rcases hev with ⟨rfl, hu, hsome⟩ | ⟨rfl, hu, rfl⟩
      · simp [hroot, hu, hsome]
      · simp [hroot, hu]
    · rw [graft_isSome hvu]
      rcases hev with ⟨rfl, -⟩ | ⟨rfl, -⟩
      · simp [Ne.symm hvu]
      · simp [Ne.symm hvu]

end Exchange

section Link

variable [Inhabited AP] [Inhabited SH]

def link (h : Heap AP SH X) (t : UInt64) (i : Index) (e : Tte AP SH) (u : UInt64) (x : X) :
    Heap AP SH X :=
  { tables := graft h.tables t i e u (some TTable.new)
    log := h.log ++ [.alloc u]
    allocator := x }

variable (hI : h.Inv S r) (hp : h.tableAt tr r p = some t) (hpd : p.length < 3)
  (hn : h.tables t = some n) (hv : (n i).isValid = false)
  (hx : A.allocTable h.allocator = .ok (u, x)) (he : Links tr e u)

include hI hp hpd hn hv hx he

lemma Inv.isGraft_link :
    IsGraft (Tte.child tr) h.tables r 3 p t i e u (some (TTable.new : TTable AP SH)) :=
  Lib.NodeTree.isGraft_link hp hpd hn (child_of_not_valid hv) (hI.fresh hx)
    (he.child (S.translate _ _ _ hx)) fun j => child_of_not_valid (TTable.new_isValid j)

lemma Inv.tableAt_link (hq : q.length ≤ 3) :
    (h.link t i e u x).tableAt tr r q =
      if q = p ++ [i] then some u else h.tableAt tr r q :=
  hI.tableAt_exchange (k := .alloc u) (hI.isGraft_link hp hpd hn hv hx he) hq

lemma Inv.extends_link : h.Extends S r (h.link t i e u x) := by
  intro q v hq hqv
  have hvu : u ≠ v := by
    rintro rfl
    exact hI.tree.follow_ne_of_dead (hI.fresh hx) hq hqv
  refine ⟨?_, .alloc (.refl _) hvu hx⟩
  rw [hI.tableAt_link hp hpd hn hv hx he hq, if_neg, hqv]
  rintro rfl
  rw [tableAt, follow_snoc_of_node hp hn, child_of_not_valid hv] at hqv
  cases hqv

/-- A new table maps no pages. -/
lemma Inv.entryAt_link (hq : q.length = 3) (j : Index) :
    (h.link t i e u x).entryAt tr r q j = h.entryAt tr r q j := by
  refine hI.entryAt_exchange (k := .alloc u) (hI.isGraft_link hp hpd hn hv hx he) hn ?_ ?_ hq j
  · intro m hm
    rw [hI.fresh hx] at hm
    cases hm
  · rintro _ ⟨⟩ j
    rfl

/-- The new table is empty, and the one above it is not. -/
lemma Inv.occupied_link (hocc : h.Occupied tr r P exc) (hexc : exc = [] ∨ exc = p) :
    (h.link t i e u x).Occupied tr r P (p ++ [i]) := by
  intro q m hP hq hne hqe hm
  have hentries := hI.entriesAt_exchange (k := .alloc u) (x := x)
    (hI.isGraft_link hp hpd hn hv hx he) hn hq
  rw [show (h.link t i e u x).entriesAt tr r q = _ from hentries, if_neg hqe] at hm
  split_ifs at hm with hqp
  · cases hm
    exact ⟨i, by rw [update_self, he.isValid]⟩
  · refine hocc q m hP hq hne ?_ hm
    rcases hexc with rfl | rfl
    · exact hne
    · exact hqp

lemma Inv.link : (h.link t i e u x).Inv S r := by
  refine hI.exchange (hI.isGraft_link hp hpd hn hv hx he) hn ?_ ?_ ?_ ?_
  · exact he.coherent (S.translate _ _ _ hx) (S.phys_ne_zero _ _ _ hx)
  · rintro _ ⟨⟩ j
    exact ⟨rfl, rfl⟩
  · exact .inl ⟨rfl, hI.fresh hx, rfl⟩
  · intro v _ hold
    exact S.live_alloc _ _ _ hx v (or_iff_not_imp_left.2 hold)

end Link

section Unlink

/-- The heap after an empty table `u` was freed and the entry that led to it was cleared. -/
def unlink (h : Heap AP SH X) (t : UInt64) (i : Index) (e : Tte AP SH) (u : UInt64) (x : X) :
    Heap AP SH X :=
  { tables := graft h.tables t i e.clear u none
    log := h.log ++ [.free u]
    allocator := x }

variable (hI : h.Inv S r) (hp : h.tableAt tr r p = some t) (hpd : p.length < 3)
  (hn : h.tables t = some n) (hpi : h.tableAt tr r (p ++ [i]) = some u) (hu : h.tables u = some m)
  (hm : ∀ j, (m j).isValid = false)

include hI hp hpd hpi hu hm

omit hI in
lemma isGraft_unlink (e : Tte AP SH) : IsGraft (Tte.child tr) h.tables r 3 p t i e.clear u none :=
  Lib.NodeTree.isGraft_unlink hp hpd hpi hu (fun j => child_of_not_valid (hm j))
    (child_of_not_valid rfl)

lemma Inv.tableAt_unlink (e : Tte AP SH) (x : X) (hq : q.length ≤ 3) :
    (h.unlink t i e u x).tableAt tr r q = if q = p ++ [i] then none else h.tableAt tr r q :=
  hI.tableAt_exchange (k := .free u) (isGraft_unlink hp hpd hpi hu hm e) hq

lemma Inv.shrinks_unlink (e : Tte AP SH) (hx : A.freeTable u h.allocator = .ok x) :
    h.Shrinks S r (h.unlink t i e u x) := by
  intro q v hq hqv
  rw [hI.tableAt_unlink hp hpd hpi hu hm e x hq] at hqv
  split_ifs at hqv with hqi
  refine ⟨hqv, .free (.refl _) ?_ (hI.owned u m hu) hx⟩
  rintro rfl
  exact hqi (hI.tree.inj _ _ _ hq (length_snoc_le hpd i) hqv hpi)

include hn

/-- An empty table mapped no pages. -/
lemma Inv.entryAt_unlink (e : Tte AP SH) (x : X) (hq : q.length = 3) (j : Index) :
    (h.unlink t i e u x).entryAt tr r q j = h.entryAt tr r q j := by
  refine hI.entryAt_exchange (k := .free u) (isGraft_unlink hp hpd hpi hu hm e) hn ?_ nofun hq j
  intro m' hm'
  obtain rfl := Option.some.inj (hu.symm.trans hm')
  exact hm

lemma Inv.occupied_unlink (e : Tte AP SH) (x : X) (hocc : h.Occupied tr r P (p ++ [i])) :
    (h.unlink t i e u x).Occupied tr r P p := by
  intro q m' hP hq hne hqe hm'
  have hentries := hI.entriesAt_exchange (k := .free u) (x := x)
    (isGraft_unlink hp hpd hpi hu hm e) hn hq
  rw [show (h.unlink t i e u x).entriesAt tr r q = _ from hentries] at hm'
  split_ifs at hm' with hqi
  exact hocc q m' hP hq hne hqi hm'

lemma Inv.unlink (e : Tte AP SH) (hx : A.freeTable u h.allocator = .ok x) :
    (h.unlink t i e u x).Inv S r := by
  refine hI.exchange (isGraft_unlink hp hpd hpi hu hm e) hn e.coherent_clear nofun ?_ ?_
  · exact .inr ⟨rfl, Option.isSome_of_eq_some hu, rfl⟩
  · intro v hsome hold
    have hvu : v ≠ u := fun hvu => absurd (hsome hvu) (by simp)
    exact S.live_free _ _ _ hx v hvu (hold hvu)

end Unlink

end Heap

end Mars.Paging
