import Mars.Vm.Status
import Mathlib.Data.List.Count
import Mathlib.Data.List.Nodup

/-!
# Dropping an address space

Embedding of `AddressSpace::new` and of `Drop for AddressSpace`. The tables of an address space
keep the shape of a tree, and `drop_table` visits that tree: it passes the page of every leaf entry
to `free_phys_page`. It passes no table to `free_table`, not even the root.
-/

namespace Mars.Vm

open Paging Lib.NodeTree

variable {AP SH X : Type}

/-! ### The code -/

/-- The calls that give memory back. -/
inductive Release where
  | freePhysPage (pa : UInt64)
  | freeTable (table : UInt64)
deriving DecidableEq, Repr

/-- `AddressSpace::new`, over a heap for the tables of this address space. -/
def AddressSpace.new [Inhabited AP] [Inhabited SH] (maxLevel : Option Nat) (U : UserAllocator X)
    (x : UserState AP X) : Except Trap (AddressSpace X × UserHeap AP SH X) := do
  let (root, x) ← (U.tables .none).allocTable x
  .ok ({ root := some root, maxLevel := maxLevel.getD 3, allocator := U }, Heap.init root x)

/-- The calls made for one entry after the other. -/
def forEntries (visit : Index → Except Trap (List Release)) :
    List Index → Except Trap (List Release)
  | []      => .ok []
  | i :: is => do
    let calls ← visit i
    let rest ← forEntries visit is
    .ok (calls ++ rest)

/-- The loop of `drop_table` over the valid entries of a table. -/
def dropEntries (h : UserHeap AP SH X) (visit : Tte AP SH → Except Trap (List Release))
    (t : UInt64) : Except Trap (List Release) :=
  match h.tables t with
  | none       => .error .badTable
  | some table =>
    forEntries (fun i => if (table i).isValid then visit (table i) else .ok []) (List.finRange 2048)

def AddressSpace.dropTable (s : AddressSpace X) (h : UserHeap AP SH X) :
    Nat → UInt64 → Except Trap (List Release)
  | 0, t         => dropEntries h (fun pte => .ok [.freePhysPage pte.address]) t
  | level + 1, t =>
    dropEntries h (fun pte =>
      if pte.isTable then
        let child := s.translator.physToDmap pte.address
        -- `NonNull::new`
        if child = 0 then .ok [] else s.dropTable h level child
      else .ok [.freePhysPage pte.address]) t

def AddressSpace.drop (s : AddressSpace X) (h : UserHeap AP SH X) : Except Trap (List Release) := do
  let root ← s.rootMut
  s.dropTable h s.maxLevel root

/-! ### Use of an address space -/

section Built

variable [Inhabited AP] [Inhabited SH]

/-- The heaps that any use of cursors over user ranges leads to, with the cursor that is in use.
`g` stands for the locks that are held while an operation runs. -/
inductive Built (s : AddressSpace X) (h₀ : UserHeap AP SH X) :
    UserHeap AP SH X → Option Cursor → Prop where
  | new : Built s h₀ h₀ none
  | lock {h : UserHeap AP SH X} {start stop : UInt64} {c : Cursor} :
      Built s h₀ h none → stop.toNat ≤ 2 ^ 48 → s.lock h start stop = .ok c → Built s h₀ h (some c)
  | run {h h' : UserHeap AP SH X} {c : Cursor} (g : Guards) (op : Op AP SH) :
      Built s h₀ h (some c) → op.run s g c h = .ok h' → Built s h₀ h' (some c)
  | unlock {h : UserHeap AP SH X} {c : Cursor} : Built s h₀ h (some c) → Built s h₀ h none

end Built

/-! ### Calls that return -/

/-- Whatever the first computation returns, the second one returns as well. -/
def Approximates {α : Type} (x' x : Except Trap α) : Prop := ∀ a, x' = .ok a → x = .ok a

lemma Approximates.refl {α : Type} (x : Except Trap α) : Approximates x x := fun _ => id

lemma Approximates.bind {α β : Type} {x' x : Except Trap α} {f' f : α → Except Trap β}
    (hx : Approximates x' x) (hf : ∀ a, Approximates (f' a) (f a)) :
    Approximates (x' >>= f') (x >>= f) := by
  intro b hb
  obtain ⟨a, ha, hb⟩ := ok_of_bind hb
  rw [hx a ha]
  exact hf a b hb

lemma Approximates.ite {α : Type} {P : Prop} [Decidable P] {x' x y' y : Except Trap α}
    (hx : Approximates x' x) (hy : Approximates y' y) :
    Approximates (if P then x' else y') (if P then x else y) := by
  split_ifs
  · exact hx
  · exact hy

section Locked

variable {U : UserAllocator X} {g : Guards}

lemma acquire_approximates (d : Nat) (mode : Mode) :
    Approximates (acquire g d mode) (acquire .none d mode) := by
  rintro ⟨⟩ -
  rfl

lemma allocTable_approximates (x : UserState AP X) :
    Approximates ((U.tables g).allocTable x) ((U.tables .none).allocTable x) := by
  refine .bind (.refl _) fun res => .bind (.refl _) fun d => ?_
  exact .bind (acquire_approximates d .write) fun _ => .refl _

lemma freeTable_approximates (t : UInt64) (x : UserState AP X) :
    Approximates ((U.tables g).freeTable t x) ((U.tables .none).freeTable t x) := by
  refine .bind (.refl _) fun d => ?_
  exact .bind (acquire_approximates d .write) fun _ => .refl _

lemma reclaim_approximates {h : UserHeap AP SH X} {u t : UInt64} {i : Index} {e : Tte AP SH}
    {next' next : UserHeap AP SH X → Except Trap (UserHeap AP SH X)}
    (hnext : ∀ h, Approximates (next' h) (next h)) :
    Approximates (reclaim (U.tables g) h u t i e next')
      (reclaim (U.tables .none) h u t i e next) := by
  refine .bind (.refl _) fun empty => .ite (.bind ?_ fun h => .bind (.refl _) hnext) (.refl _)
  unfold Heap.freeTable
  split
  · exact .refl _
  · exact .bind (freeTable_approximates u _) fun _ => .refl _

/-- Locks that are held by others can only keep `unmap_page` from returning. -/
lemma unmapPage_approximates (tr : AddressTranslator) (h : UserHeap AP SH X) (r va : UInt64) :
    Approximates (unmapPage (U.tables g) tr h r va) (unmapPage (U.tables .none) tr h r va) := by
  refine .bind (.refl _) fun e0 => .ite (.refl _) (.bind (.refl _) fun e1 => ?_)
  refine .ite (.refl _) (.bind (.refl _) fun e2 => .ite (.refl _) (.bind (.refl _) fun e3 => ?_))
  refine .ite (.refl _) (.bind (.refl _) fun h => reclaim_approximates fun h => ?_)
  exact reclaim_approximates fun h => reclaim_approximates fun h => .refl _

variable [Inhabited AP] [Inhabited SH]

lemma heap_allocTable_approximates (h : UserHeap AP SH X) :
    Approximates (h.allocTable (U.tables g)) (h.allocTable (U.tables .none)) :=
  .bind (allocTable_approximates _) fun _ => .refl _

lemma childTable_approximates {tr : AddressTranslator} {present : Tte AP SH → Bool}
    {h : UserHeap AP SH X} {t : UInt64} {i : Index} :
    Approximates (childTable (U.tables g) tr present h t i)
      (childTable (U.tables .none) tr present h t i) :=
  .bind (.refl _) fun _ => .ite (.refl _) (.bind (heap_allocTable_approximates h) fun _ => .refl _)

lemma mapPage_approximates (tr : AddressTranslator) (h : UserHeap AP SH X) (r pa va : UInt64)
    (attrs : Attributes AP SH) :
    Approximates (mapPage (U.tables g) tr h r pa va attrs)
      (mapPage (U.tables .none) tr h r pa va attrs) := by
  refine .bind childTable_approximates fun l1 => ?_
  refine .bind childTable_approximates fun l2 => ?_
  exact .bind childTable_approximates fun l3 => .refl _

lemma ensureFrom_approximates {s : AddressSpace X} {va : UInt64} {level : Nat} (pa : UInt64)
    (h : UserHeap AP SH X) :
    Approximates (Cursor.ensureFrom s g va level pa h)
      (Cursor.ensureFrom s .none va level pa h) := by
  induction level generalizing pa h with
  | zero => exact .refl _
  | succ level ih =>
    refine .bind (.refl _) fun pte => .ite ?_ (ih _ _)
    exact .bind (heap_allocTable_approximates h) fun res => .bind (.refl _) fun h => ih _ _

end Locked

/-! ### The tree of an address space -/

section Tree

variable {s : AddressSpace X} {B : s.allocator.Spec} {h h' h₀ : UserHeap AP SH X} {r : UInt64}
  {c : Cursor} {g : Guards}

/-- A cursor that does no harm: it is valid, or it leads to no table but the one it covers. -/
def Cursor.Harmless (s : AddressSpace X) (r : UInt64) (c : Cursor) (h : UserHeap AP SH X) : Prop :=
  c.coveringLevel = 0 ∨ c.Valid s r h

lemma Cursor.Harmless.congr (hc : c.Harmless s r h) (htables : h'.tables = h.tables) :
    c.Harmless s r h' :=
  hc.imp id fun hvalid => hvalid.congr fun q _ => Heap.tableAt_congr htables q

/-- If the covering table is gone then `update_leaf_meta` reads it all the same, and does not
return. -/
lemma updateLeafMeta_gone {t va : UInt64} {status : Status AP} (hl : c.coveringLevel ≠ 0)
    (hpa : s.translator.physToDmap c.coveringPa = t) (hgone : h.tables t = none) :
    c.updateLeafMeta s g h va status ≠ .ok h' := by
  obtain ⟨level, hlevel⟩ := Nat.exists_eq_succ_of_ne_zero hl
  intro hok
  obtain ⟨leaf, hleaf, -⟩ := ok_of_bind hok
  rw [hlevel, Cursor.leafTable] at hleaf
  obtain ⟨pte, hread, -⟩ := ok_of_bind hleaf
  rw [hpa, Heap.readEntry, hgone] at hread
  cases hread

lemma Cursor.Harmless.unmapStep (hc : c.Harmless s r h) (hI : h.Inv B.user r)
    (hroot : s.root = some r) {va : UInt64} (hok : c.unmapStep s g va h = .ok h') :
    h'.Inv B.user r ∧ c.Harmless s r h' := by
  rw [unmapStep_eq hroot] at hok
  obtain ⟨h₁, hok₁, hok⟩ := ok_of_bind hok
  obtain ⟨h₁', hok₁', hunmaps⟩ := unmapPage_spec hI va
  rw [unmapPage_approximates _ _ _ _ _ hok₁] at hok₁'
  cases hok₁'
  obtain ⟨htables, hI'⟩ := updateLeafMeta_tables hunmaps.inv hok
  refine ⟨hI', .congr ?_ htables⟩
  rcases hc with hl | hvalid
  · exact .inl hl
  · by_cases hl : c.coveringLevel = 0
    · exact .inl hl
    · right
      obtain ⟨t, ht, hpa⟩ := hvalid.covering
      cases halive : h₁.tableAt s.translator r c.path with
      | some u => exact hvalid.of_unmaps hunmaps halive
      | none =>
        have hgone : h₁.tables t = none := by
          cases hn : h₁.tables t with
          | none => rfl
          | some n =>
            -- a table that is alive is in the tree, and it was at the path of the cursor
            obtain ⟨q, hq, hqt⟩ := hunmaps.inv.tree.reached t n hn
            have hold := (hunmaps.shrinks q t hq hqt).1
            obtain rfl := hI.tree.inj q c.path t hq c.path_length_le hold ht
            rw [show follow _ h₁.tables r c.path = none from halive] at hqt
            cases hqt
        have htranslate := (tracked_of_tableAt hI c.path_length_le ht).translate
        rw [← hpa] at htranslate
        exact absurd hok (updateLeafMeta_gone hl htranslate hgone)

variable [Inhabited AP] [Inhabited SH]

lemma Cursor.Harmless.mapStep (hc : c.Harmless s r h) (hI : h.Inv B.user r)
    (hroot : s.root = some r) {va pa : UInt64} {attrs : Attributes AP SH}
    {x : UInt64 × UserHeap AP SH X} (hok : c.mapStep s g attrs va (pa, h) = .ok x) :
    x.2.Inv B.user r ∧ c.Harmless s r x.2 := by
  rw [mapStep_eq hroot] at hok
  obtain ⟨h₁, hok₁, hok⟩ := ok_of_bind hok
  obtain ⟨h₂, hok₂, hok⟩ := ok_of_bind hok
  rw [← Except.ok.inj hok]
  have hmaps := mapPage_spec hI pa va attrs
  rw [mapPage_approximates _ _ _ _ _ _ _ hok₁] at hmaps
  obtain ⟨htables, hI₂⟩ := updateLeafMeta_tables hmaps.inv hok₂
  refine ⟨hI₂, .congr (hc.imp id fun hvalid => ?_) htables⟩
  exact hvalid.of_keeps fun q t hq ht => (hmaps.extension q t hq ht).1

lemma Cursor.Harmless.markStep (hc : c.Harmless s r h) (hI : h.Inv B.user r) {k : Nat}
    (hk : k < c.steps) {status : Status AP}
    (hok : c.markStep s g status (pageAfter c.start k) h = .ok h') :
    h'.Inv B.user r ∧ c.Harmless s r h' := by
  obtain ⟨h₁, hok₁, hok⟩ := ok_of_bind hok
  have hok₁ := ensureFrom_approximates _ _ _ hok₁
  suffices h₁.Inv B.user r ∧ c.Harmless s r h₁ by
    obtain ⟨htables, hI'⟩ := updateLeafMeta_tables this.1 hok
    exact ⟨hI', this.2.congr htables⟩
  rcases hc with hl | hvalid
  · rw [hl] at hok₁
    cases hok₁
    exact ⟨hI, .inl hl⟩
  · obtain ⟨t, ht, hpa⟩ := hvalid.covering
    obtain ⟨-, hva⟩ := hvalid.contains_pageAfter hk
    rw [← hvalid.spans _ hva] at ht
    have hgrows := ensureFrom_spec hI hvalid.level_le ht
    rw [← hpa, hok₁] at hgrows
    exact ⟨hgrows.inv, .inr (hvalid.of_keeps fun q t hq ht => (hgrows.extension q t hq ht).1)⟩

/-- Every operation of a cursor keeps the tree, whatever it does to the statuses. -/
lemma Op.run_harmless (hc : c.Harmless s r h) (hI : h.Inv B.user r) (hroot : s.root = some r)
    {op : Op AP SH} (hok : op.run s g c h = .ok h') : h'.Inv B.user r ∧ c.Harmless s r h' := by
  have hzero := pageAfter_zero c.start
  cases op with
  | map pa attrs =>
    obtain ⟨x, hloop, hx⟩ := ok_of_bind hok
    cases hx
    rw [← hzero] at hloop
    exact forPages_ok (I := fun _ x => x.2.Inv B.user r ∧ c.Harmless s r x.2)
      (fun k x x' _ hx hstep => hx.2.mapStep hx.1 hroot hstep) (zero_add _) ⟨hI, hc⟩ hloop
  | unmap =>
    rw [run, Cursor.unmap, ← hzero] at hok
    exact forPages_ok (I := fun _ h => h.Inv B.user r ∧ c.Harmless s r h)
      (fun k h h' _ hx hstep => hx.2.unmapStep hx.1 hroot hstep) (zero_add _) ⟨hI, hc⟩ hok
  | mark status =>
    rw [run, Cursor.mark, ← hzero] at hok
    exact forPages_ok (I := fun _ h => h.Inv B.user r ∧ c.Harmless s r h)
      (fun k h h' hk hx hstep => hx.2.markStep hx.1 hk hstep) (zero_add _) ⟨hI, hc⟩ hok

lemma Built.inv {oc : Option Cursor} (hb : Built s h₀ h oc) (h₀I : h₀.Inv B.user r)
    (hroot : s.root = some r) (hlevel : s.maxLevel = 3) :
    h.Inv B.user r ∧ ∀ c, oc = some c → c.Harmless s r h := by
  induction hb with
  | new => exact ⟨h₀I, nofun⟩
  | lock _ hstop hlock ih =>
    obtain ⟨c', hc', -, -, hvalid⟩ := s.lock_spec ih.1 hroot hlevel hstop _
    rw [hlock] at hc'
    cases hc'
    refine ⟨ih.1, ?_⟩
    rintro _ ⟨⟩
    exact .inr hvalid
  | run g op _ hok ih =>
    obtain ⟨hI, hc⟩ := op.run_harmless (ih.2 _ rfl) ih.1 hroot hok
    refine ⟨hI, ?_⟩
    rintro _ ⟨⟩
    exact hc
  | unlock _ ih => exact ⟨ih.1, nofun⟩

end Tree

/-! ### The leaves of a tree -/

section Leaves

variable {s : AddressSpace X} {B : s.allocator.Spec} {h : UserHeap AP SH X} {r : UInt64}

/-- The valid entries of the level 3 tables below the path `p`, in the order of their indices. -/
def leaves (tr : AddressTranslator) (h : UserHeap AP SH X) (r : UInt64) :
    Nat → List Index → List (List Index × Index)
  | 0, p         => ((List.finRange 2048).filter fun i => (h.entryAt tr r p i).isSome).map fun i =>
    (p, i)
  | level + 1, p => (List.finRange 2048).flatMap fun i => leaves tr h r level (p ++ [i])

lemma mem_leaves {tr : AddressTranslator} {level : Nat} {p q : List Index} {i : Index} :
    (q, i) ∈ leaves tr h r level p ↔
      p <+: q ∧ q.length = p.length + level ∧ (h.entryAt tr r q i).isSome := by
  induction level generalizing p with
  | zero =>
    simp only [leaves, List.mem_map, List.mem_filter, List.mem_finRange, true_and, Prod.mk.injEq,
      add_zero]
    constructor
    · rintro ⟨j, hj, rfl, rfl⟩
      exact ⟨List.prefix_rfl, rfl, hj⟩
    · rintro ⟨hpre, hlen, hi⟩
      obtain rfl := hpre.eq_of_length hlen.symm
      exact ⟨i, hi, rfl, rfl⟩
  | succ level ih =>
    simp only [leaves, List.mem_flatMap, List.mem_finRange, true_and, ih, List.length_append,
      List.length_singleton]
    constructor
    · rintro ⟨j, hpre, hlen, hi⟩
      exact ⟨(List.prefix_append p [j]).trans hpre, by omega, hi⟩
    · rintro ⟨⟨t, rfl⟩, hlen, hi⟩
      cases t with
      | nil => simp at hlen
      | cons j t => exact ⟨j, ⟨t, by simp⟩, by omega, hi⟩

lemma nodup_leaves (tr : AddressTranslator) (level : Nat) (p : List Index) :
    (leaves tr h r level p).Nodup := by
  induction level generalizing p with
  | zero =>
    refine ((List.nodup_finRange 2048).filter _).map ?_
    intro i j hij
    exact (Prod.mk.inj hij).2
  | succ level ih =>
    refine List.nodup_flatMap.2 ⟨fun i _ => ih _, ?_⟩
    refine (List.nodup_finRange 2048).imp ?_
    rintro i j hij ⟨q, k⟩ hi hj
    -- a path does not go through two entries of one table
    obtain ⟨t, rfl⟩ := (mem_leaves.1 hi).1
    obtain ⟨u, hu⟩ := (mem_leaves.1 hj).1
    simp only [List.append_assoc, List.singleton_append, List.append_cancel_left_eq,
      List.cons.injEq] at hu
    exact hij hu.1.symm

lemma leaves_of_none {tr : AddressTranslator} {level : Nat} {p : List Index}
    (hp : h.tableAt tr r p = none) : leaves tr h r level p = [] := by
  refine List.eq_nil_iff_forall_not_mem.2 ?_
  rintro ⟨q, i⟩ hmem
  obtain ⟨⟨t, rfl⟩, -, hi⟩ := mem_leaves.1 hmem
  rw [Heap.entryAt_of_prefix_none hp] at hi
  cases hi

def leafPage (tr : AddressTranslator) (h : UserHeap AP SH X) (r : UInt64)
    (leaf : List Index × Index) : UInt64 :=
  ((h.entryAt tr r leaf.1 leaf.2).map Tte.address).getD 0

lemma forEntries_eq {visit : Index → Except Trap (List Release)} {f : Index → List Release}
    (hvisit : ∀ i, visit i = .ok (f i)) (is : List Index) :
    forEntries visit is = .ok (is.flatMap f) := by
  induction is with
  | nil => rfl
  | cons i is ih =>
    rw [forEntries, hvisit, ih]
    rfl

lemma flatMap_ite_singleton {α β : Type} (f : α → β) (P : α → Bool) (l : List α) :
    (l.flatMap fun a => if P a then [f a] else []) = (l.filter P).map f := by
  induction l with
  | nil => rfl
  | cons a l ih =>
    rw [List.flatMap_cons, ih, List.filter_cons]
    split_ifs <;> rfl

/-- `drop_table` frees the pages of all leaves below a table. -/
lemma dropTable_eq (hI : h.Inv B.user r) (hnull : h.tables 0 = none) {level : Nat}
    {p : List Index} {t : UInt64} (hlen : p.length + level = 3)
    (hp : h.tableAt s.translator r p = some t) :
    s.dropTable h level t = .ok ((leaves s.translator h r level p).map fun leaf =>
      .freePhysPage (leafPage s.translator h r leaf)) := by
  obtain ⟨n, hn, hentries⟩ := hI.alive hp (by omega)
  induction level generalizing p t n with
  | zero =>
    rw [AddressSpace.dropTable, dropEntries, hn]
    dsimp only
    rw [forEntries_eq (f := fun i => if (n i).isValid then [.freePhysPage (n i).address] else []),
      flatMap_ite_singleton, leaves, List.map_map]
    · have hvalid : ∀ i, (h.entryAt s.translator r p i).isSome = (n i).isValid := by
        intro i
        rw [Heap.entryAt_eq hentries, Tte.valid?]
        split_ifs with hv <;> simp [hv]
      simp only [hvalid]
      refine congrArg Except.ok (List.map_congr_left ?_)
      intro i hi
      have hv : (n i).isValid = true := (List.mem_filter.1 hi).2
      simp [leafPage, Heap.entryAt_eq hentries, Tte.valid?, hv]
    · intro i
      split_ifs <;> rfl
  | succ level ih =>
    have hlt : p.length < 3 := by omega
    rw [AddressSpace.dropTable, dropEntries, hn]
    dsimp only
    rw [forEntries_eq (f := fun i => (leaves s.translator h r level (p ++ [i])).map fun leaf =>
      .freePhysPage (leafPage s.translator h r leaf))]
    · rw [leaves, List.map_flatMap]
    · intro i
      have hfollow := follow_snoc_of_node (i := i) hp hn
      rcases hI.coherent p n hlt hentries i with ⟨hv, htable, -⟩ | ⟨hv, -⟩
      · rw [Tte.child_of_valid hv] at hfollow
        obtain ⟨m, hm, hentries'⟩ := hI.alive hfollow (length_snoc_le hlt i)
        have hne : s.translator.physToDmap (n i).address ≠ 0 := by
          intro hzero
          rw [hzero, hnull] at hm
          cases hm
        rw [if_pos hv, if_pos htable, if_neg hne]
        refine ih ?_ hfollow m hm hentries'
        rw [List.length_append, List.length_singleton]
        omega
      · rw [Tte.child_of_not_valid hv] at hfollow
        rw [leaves_of_none hfollow, if_neg (by simp [hv])]
        rfl

end Leaves

/-! ### What is given back -/

section Drop

variable {s : AddressSpace X} {h : UserHeap AP SH X} {r : UInt64} {calls : List Release}

lemma forEntries_forall {P : Release → Prop} {visit : Index → Except Trap (List Release)}
    (hvisit : ∀ i calls, visit i = .ok calls → ∀ call ∈ calls, P call) {is : List Index}
    (hok : forEntries visit is = .ok calls) : ∀ call ∈ calls, P call := by
  induction is generalizing calls with
  | nil =>
    cases hok
    exact nofun
  | cons i is ih =>
    obtain ⟨first, hfirst, hok⟩ := ok_of_bind hok
    obtain ⟨rest, hrest, hok⟩ := ok_of_bind hok
    cases hok
    intro call hcall
    rcases List.mem_append.1 hcall with hmem | hmem
    · exact hvisit i first hfirst call hmem
    · exact ih hrest call hmem

lemma dropEntries_forall {P : Release → Prop} {visit : Tte AP SH → Except Trap (List Release)}
    (hvisit : ∀ pte calls, visit pte = .ok calls → ∀ call ∈ calls, P call) {t : UInt64}
    (hok : dropEntries h visit t = .ok calls) : ∀ call ∈ calls, P call := by
  unfold dropEntries at hok
  split at hok
  · cases hok
  · refine forEntries_forall ?_ hok
    intro i calls hok
    split_ifs at hok
    · exact hvisit _ calls hok
    · cases hok
      exact nofun

/-- On no tree does `drop_table` free a table. -/
lemma dropTable_freeTable {level : Nat} {t : UInt64} (hok : s.dropTable h level t = .ok calls) :
    ∀ call ∈ calls, ∀ table, call ≠ .freeTable table := by
  induction level generalizing t calls with
  | zero =>
    refine dropEntries_forall ?_ hok
    rintro pte _ ⟨⟩
    simp
  | succ level ih =>
    refine dropEntries_forall ?_ hok
    intro pte calls hok
    split at hok
    · dsimp only at hok
      split at hok
      · cases hok
        exact nofun
      · exact ih hok
    · cases hok
      simp

def AddressSpace.Maps (s : AddressSpace X) (r : UInt64) (h : UserHeap AP SH X) (pa : UInt64) :
    Prop :=
  ∃ q i e, q.length = 3 ∧ h.entryAt s.translator r q i = some e ∧ e.address = pa

/-- The mapped pages are passed to `free_phys_page` once each, and no other page is. -/
structure AddressSpace.ReturnsPages (s : AddressSpace X) (r : UInt64) (h : UserHeap AP SH X)
    (calls : List Release) : Prop where
  mapped : ∀ pa, s.Maps r h pa → calls.count (.freePhysPage pa) = 1
  others : ∀ pa, ¬ s.Maps r h pa → calls.count (.freePhysPage pa) = 0

/-- The pages and all tables are returned, the root included. -/
structure AddressSpace.ReturnsAll (s : AddressSpace X) (r : UInt64) (h : UserHeap AP SH X)
    (calls : List Release) : Prop extends s.ReturnsPages r h calls where
  tables : ∀ t, t = r ∨ (h.tables t).isSome → calls.count (.freeTable t) = 1

/-- No page is mapped by two leaf entries. -/
def AddressSpace.NoPageTwice (s : AddressSpace X) (r : UInt64) (h : UserHeap AP SH X) : Prop :=
  ∀ q q' i i' e e', q.length = 3 → q'.length = 3 → h.entryAt s.translator r q i = some e →
    h.entryAt s.translator r q' i' = some e' → e.address = e'.address → q = q' ∧ i = i'

lemma mem_leaves_root {q : List Index} {i : Index} : (q, i) ∈ leaves s.translator h r 3 [] ↔
    q.length = 3 ∧ ∃ e, h.entryAt s.translator r q i = some e := by
  rw [mem_leaves, Option.isSome_iff_exists]
  simp

lemma leafPage_eq {q : List Index} {i : Index} {e : Tte AP SH}
    (he : h.entryAt s.translator r q i = some e) :
    leafPage s.translator h r (q, i) = e.address := by
  simp [leafPage, he]

lemma maps_iff {pa : UInt64} : s.Maps r h pa ↔
    pa ∈ (leaves s.translator h r 3 []).map (leafPage s.translator h r) := by
  rw [List.mem_map]
  constructor
  · rintro ⟨q, i, e, hq, he, rfl⟩
    exact ⟨(q, i), mem_leaves_root.2 ⟨hq, e, he⟩, leafPage_eq he⟩
  · rintro ⟨⟨q, i⟩, hmem, rfl⟩
    obtain ⟨hq, e, he⟩ := mem_leaves_root.1 hmem
    exact ⟨q, i, e, hq, he, (leafPage_eq he).symm⟩

lemma noPageTwice_iff : s.NoPageTwice r h ↔
    ((leaves s.translator h r 3 []).map (leafPage s.translator h r)).Nodup := by
  rw [List.nodup_map_iff_inj_on (nodup_leaves _ 3 [])]
  constructor
  · rintro hone ⟨q, i⟩ hmem ⟨q', i'⟩ hmem' heq
    obtain ⟨hq, e, he⟩ := mem_leaves_root.1 hmem
    obtain ⟨hq', e', he'⟩ := mem_leaves_root.1 hmem'
    rw [leafPage_eq he, leafPage_eq he'] at heq
    obtain ⟨rfl, rfl⟩ := hone q q' i i' e e' hq hq' he he' heq
    rfl
  · intro hinj q q' i i' e e' hq hq' he he' heq
    have hleaf := hinj (q, i) (mem_leaves_root.2 ⟨hq, e, he⟩) (q', i')
      (mem_leaves_root.2 ⟨hq', e', he'⟩) (by rw [leafPage_eq he, leafPage_eq he', heq])
    exact Prod.mk.inj hleaf

lemma returnsPages_iff : s.ReturnsPages r h ((leaves s.translator h r 3 []).map fun leaf =>
    .freePhysPage (leafPage s.translator h r leaf)) ↔ s.NoPageTwice r h := by
  have hcount : ∀ pa, ((leaves s.translator h r 3 []).map fun leaf =>
      Release.freePhysPage (leafPage s.translator h r leaf)).count (.freePhysPage pa) =
        ((leaves s.translator h r 3 []).map (leafPage s.translator h r)).count pa := by
    intro pa
    have hinj : Function.Injective Release.freePhysPage := fun _ _ => Release.freePhysPage.inj
    rw [← List.count_map_of_injective _ _ hinj, List.map_map]
    rfl
  rw [noPageTwice_iff, List.nodup_iff_count_le_one]
  constructor
  · rintro ⟨hmapped, hothers⟩ pa
    rw [← hcount]
    by_cases hpa : s.Maps r h pa
    · exact Nat.le_of_eq (hmapped pa hpa)
    · rw [hothers pa hpa]
      exact Nat.zero_le 1
  · intro hle
    constructor
    · intro pa hpa
      rw [hcount]
      exact le_antisymm (hle pa) (List.count_pos_iff.2 (maps_iff.1 hpa))
    · intro pa hpa
      rw [hcount]
      exact List.count_eq_zero.2 (mt maps_iff.2 hpa)

/-- Tables are `NonNull`. -/
def UserAllocator.Spec.nonNull {U : UserAllocator X} (B : U.Spec)
    (hnull : ∀ x t x', U.inner.allocTable x = .ok (t, x') → t ≠ 0) : U.Spec where
  base :=
    { B.base with
      live := fun x t => B.base.live x t ∧ t ≠ 0
      fresh := fun x t x' hx hlive => B.base.fresh x t x' hx hlive.1
      live_alloc := by
        rintro x t x' hx u (rfl | ⟨hu, hne⟩)
        · exact ⟨B.base.live_alloc x u x' hx u (.inl rfl), hnull x u x' hx⟩
        · exact ⟨B.base.live_alloc x t x' hx u (.inr hu), hne⟩
      free_ok := fun x t hlive => B.base.free_ok x t hlive.1
      live_free := fun x t x' hx u hne hlive =>
        ⟨B.base.live_free x t x' hx u hne hlive.1, hlive.2⟩ }
  tracked := B.tracked

variable [Inhabited AP] [Inhabited SH]

/-- For every address space and every use of it, `Drop` does not return everything: no table is
passed to `free_table`. In a tree of four levels it returns the mapped pages, once for each leaf
entry, so each page once exactly if none is mapped twice. -/
theorem AddressSpace.drop_returns {maxLevel : Option Nat} {U : UserAllocator X}
    {x : UserState AP X} (B : U.Spec)
    (hnull : ∀ x t x', U.inner.allocTable x = .ok (t, x') → t ≠ 0) {h₀ : UserHeap AP SH X}
    (hnew : AddressSpace.new maxLevel U x = .ok (s, h₀)) {oc : Option Cursor}
    (hb : Built s h₀ h oc) (hroot : s.root = some r) :
    (∀ calls, s.drop h = .ok calls → ¬ s.ReturnsAll r h calls) ∧
      (maxLevel.getD 3 = 3 → ∃ calls, s.drop h = .ok calls ∧
        (s.ReturnsPages r h calls ↔ s.NoPageTwice r h)) := by
  obtain ⟨⟨root, y⟩, halloc, hnew⟩ := ok_of_bind hnew
  obtain ⟨rfl, rfl⟩ := Prod.mk.inj (Except.ok.inj hnew)
  cases hroot
  constructor
  · intro calls hok hall
    have hone := hall.tables r (.inl rfl)
    have hmem : Release.freeTable r ∈ calls := List.count_pos_iff.1 (by omega)
    exact dropTable_freeTable hok _ hmem r rfl
  · intro hlevel
    let B' := B.nonNull hnull
    have hlive : (B'.user : AllocatorSpec (U.tables .none) _).live y r :=
      B'.user.live_alloc _ _ _ halloc r (.inl rfl)
    obtain ⟨hI, -⟩ := hb.inv (B := B') (represents_init hlive).inv rfl hlevel
    have h0 : h.tables 0 = none := by
      by_contra hsome
      obtain ⟨n, hn⟩ := Option.ne_none_iff_exists'.1 hsome
      exact (hI.owned 0 n hn).1.2 rfl
    refine ⟨_, ?_, returnsPages_iff⟩
    rw [drop, rootMut, hlevel]
    exact dropTable_eq hI h0 (p := []) rfl rfl

end Drop

/-! ### A small address space -/

/-- The allocator of the small address space does not hand out the page at 0. -/
lemma sampleSpace_nonNull (n : Nat) (t : UInt64) (m : Nat)
    (hx : sampleSpace.allocator.inner.allocTable n = .ok (t, m)) : t ≠ 0 := by
  have hne := bumpSpec.phys_ne_zero n t m hx
  exact hne

def sampleUse : Except Trap (AddressSpace Nat × UserHeap Bool Bool Nat) := do
  let (s, h) ← AddressSpace.new none sampleSpace.allocator ⟨0, fun _ => none⟩
  let c ← s.lock h 0x4000 0x8000
  let h ← c.map s .none h 0x80000 ⟨true, true, false, false, 1⟩
  .ok (s, h)

/-- It is freed when the address space is dropped, and nothing else is returned. -/
theorem AddressSpace.drop_sampleUse : ∃ s h calls, sampleUse = .ok (s, h) ∧
    s.drop h = .ok calls ∧ ¬ s.ReturnsAll 0x8000 h calls ∧
      (s.ReturnsPages 0x8000 h calls ↔ s.NoPageTwice 0x8000 h) := by
  have hsome : sampleUse.toOption.isSome = true := by decide +kernel
  cases huse : sampleUse with
  | error e =>
    rw [huse] at hsome
    cases hsome
  | ok res =>
    obtain ⟨⟨s, h₀⟩, hnew, huse⟩ := ok_of_bind huse
    obtain ⟨c, hlock, huse⟩ := ok_of_bind huse
    obtain ⟨h, hmap, huse⟩ := ok_of_bind huse
    have hroot : s.root = some 0x8000 := by
      cases hnew
      rfl
    have hb : Built s h₀ h (some c) := .run .none (.map _ _) (.lock .new (by decide) hlock) hmap
    obtain ⟨hnot, hpages⟩ := AddressSpace.drop_returns sampleSpec sampleSpace_nonNull hnew hb hroot
    obtain ⟨calls, hdrop, hiff⟩ := hpages rfl
    exact ⟨s, h, calls, huse.symm, hdrop, hnot calls hdrop, hiff⟩

theorem tables_not_returned : (do
    let (s, h) ← sampleUse
    let calls ← s.drop h
    Except.ok (s.root, h.log, calls)) =
      .ok (some 0x8000, [.alloc 0xc000, .alloc 0x10000, .alloc 0x14000],
        [.freePhysPage 0x80000]) := by
  decide +kernel

end Mars.Vm
