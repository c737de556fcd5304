import Mathlib.Data.List.Count
import Mathlib.Data.List.Dedup
import Mars.Paging.Beside
import Mars.Paging.Clone

/-!
# Trees in one heap

A heap may hold several trees of page tables. What the mapper does to a well-formed tree alone it
also does when the other tables are there, so `map_page` and `unmap_page` leave a tree that shares
no table with it as it is. The exception is `map_page` inside a block of level 2: it takes the
address of the block for that of a table, which may be a table of the other tree.
-/

namespace Mars.Paging

open Lib.NodeTree Heap Tte

variable {AP SH X : Type} {A : TableAllocator X} {S : AllocatorSpec A identity}
  {H H' h h' : Heap AP SH X} {f : Nodes UInt64 Index (Tte AP SH)} {r r' t u va : UInt64}
  {p q : List Index} {i j : Index} {n m : TTable AP SH} {e : Tte AP SH}

namespace Heap

/-! ### Well-formed trees -/

/-- The table `t` is in the tree below `r`. -/
def InTree (r : UInt64) (H : Heap AP SH X) (t : UInt64) : Prop :=
  Reached (Tte.tableChild identity) H.tables r 3 t

/-- A tree of four levels. Every table is linked from one entry. The entries of the upper levels
are for tables or blocks or empty, and those of level 3 are for pages or empty. -/
structure WellFormed (r : UInt64) (H : Heap AP SH X) : Prop where
  alive : ∀ t, H.InTree r t → ∃ n, H.tables t = some n
  inj : ∀ p q t, p.length ≤ 3 → q.length ≤ 3 → H.tableOn identity r p = some t →
    H.tableOn identity r q = some t → p = q
  upper : ∀ p t n, p.length < 3 → H.tableOn identity r p = some t → H.tables t = some n →
    ∀ i, (n i).isBlock = true ∨ (n i).Coherent identity
  page : ∀ p t n, p.length = 3 → H.tableOn identity r p = some t → H.tables t = some n →
    ∀ i, (n i).isBlock = false

lemma inTree_of_tableOn (hp : H.tableOn identity r p = some t) (hpd : p.length ≤ 3) :
    H.InTree r t :=
  ⟨p, hpd, hp⟩

/-- A tree is well-formed in every heap that has its tables. -/
lemma WellFormed.congr (hwf : H.WellFormed r) (hag : ∀ t, H.InTree r t → H'.tables t = H.tables t) :
    H'.WellFormed r := by
  have hfollow : ∀ q, q.length ≤ 3 → H'.tableOn identity r q = H.tableOn identity r q :=
    fun q hq => follow_eq_of_reached hag (Nat.le_succ_of_le hq)
  refine ⟨?_, ?_, ?_, ?_⟩
  · intro t ht
    have hold : H.InTree r t := (reached_congr hag).1 ht
    rw [hag t hold]
    exact hwf.alive t hold
  · intro p q t hp hq hpt hqt
    rw [hfollow p hp] at hpt
    rw [hfollow q hq] at hqt
    exact hwf.inj p q t hp hq hpt hqt
  · intro p t n hp hpt hn
    rw [hfollow p hp.le] at hpt
    rw [hag t (inTree_of_tableOn hpt hp.le)] at hn
    exact hwf.upper p t n hp hpt hn
  · intro p t n hp hpt hn
    rw [hfollow p hp.le] at hpt
    rw [hag t (inTree_of_tableOn hpt hp.le)] at hn
    exact hwf.page p t n hp hpt hn

/-! ### Heaps with one tree -/

/-- All tables of the heap are in the tree below `r`. -/
structure TreeOf (S : AllocatorSpec A identity) (r : UInt64) (h : Heap AP SH X) : Prop where
  inv : h.erase.Inv S r
  page : ∀ q j, q.length = 3 → h.blockAt identity r q j = none

lemma TreeOf.inTree_iff (hT : h.TreeOf S r) : h.InTree r t ↔ ∃ n, h.tables t = some n := by
  constructor
  · rintro ⟨p, hp, hpt⟩
    have hpt' := tableOn_eq.symm.trans hpt
    obtain ⟨n, hn, -⟩ := hT.inv.alive_erase hpt' hp
    exact ⟨n, hn⟩
  · rintro ⟨n, hn⟩
    obtain ⟨p, hp, hpt⟩ := hT.inv.tree.reached t _ (erase_tables_eq hn)
    exact ⟨p, hp, tableOn_eq.trans hpt⟩

lemma TreeOf.wellFormed (hT : h.TreeOf S r) : h.WellFormed r := by
  refine ⟨fun t ht => hT.inTree_iff.1 ht, ?_, ?_, ?_⟩
  · intro p q t hp hq hpt hqt
    rw [tableOn_eq] at hpt hqt
    exact hT.inv.tree.inj p q t hp hq hpt hqt
  · intro p t n hp hpt hn i
    rw [tableOn_eq] at hpt
    have hentries : h.erase.entriesAt identity r p = some fun i => (n i).erase :=
      (nodeAt_of_follow hpt).trans (erase_tables_eq hn)
    have hcoherent := hT.inv.coherent p _ hp hentries i
    cases hblock : (n i).isBlock with
    | true => exact .inl rfl
    | false =>
      rw [erase_of_not_block hblock] at hcoherent
      exact .inr hcoherent
  · intro p t n hp hpt hn i
    have hnone := hT.page p i hp
    rw [blockAt, hpt, Option.bind_some, block_eq hn] at hnone
    simpa using hnone

lemma TreeOf.owned (hT : h.TreeOf S r) : h.Owned S :=
  fun t _ hn => hT.inv.owned t _ (erase_tables_eq hn)

/-- The tree of a heap is well-formed when there are other tables as well. -/
lemma TreeOf.wellFormed_beside (hT : h.TreeOf S r) (hH : h.Beside S f H) : H.WellFormed r := by
  refine hT.wellFormed.congr fun t ht => ?_
  obtain ⟨n, hn⟩ := hT.inTree_iff.1 ht
  rw [hH.of_own hn, hn]

lemma TreeOf.inTree_beside (hT : h.TreeOf S r) (hH : h.Beside S f H) :
    H.InTree r t ↔ ∃ n, h.tables t = some n := by
  refine (reached_congr fun t ht => ?_).trans hT.inTree_iff
  obtain ⟨n, hn⟩ := hT.inTree_iff.1 ht
  rw [hH.of_own hn, hn]

lemma TreeOf.owned_beside (hT : h.TreeOf S r) (hH : h.Beside S f H) : H.Owned S := by
  intro t n hn
  rw [hH.allocator]
  cases hown : h.tables t with
  | some m => exact hT.owned t m hown
  | none =>
    rw [hH.tables, hown, Option.none_or] at hn
    exact hH.live t n hn

/-! ### Taking a tree out of a heap -/

/-- The tables of the tree below `r`, with repetitions if they do not form a tree. -/
@[irreducible]
def treeTables (r : UInt64) (H : Heap AP SH X) : List UInt64 :=
  postorder (Tte.tableChild identity) H.tables r (List.finRange 2048) 3 []

lemma mem_treeTables : t ∈ H.treeTables r ↔ H.InTree r t := by
  unfold treeTables
  exact mem_postorder_nil List.mem_finRange

/-- The heap in which only the tables of the tree below `r` were handed out. -/
def own (r : UInt64) (H : Heap AP SH X) : Heap AP SH X where
  tables t := if t ∈ H.treeTables r then H.tables t else none
  log := ((H.treeTables r).dedup.filter (· ≠ r)).map .alloc
  allocator := H.allocator

def others (r : UInt64) (H : Heap AP SH X) : Nodes UInt64 Index (Tte AP SH) :=
  fun t => if t ∈ H.treeTables r then none else H.tables t

lemma own_of_inTree (ht : H.InTree r t) : (H.own r).tables t = H.tables t :=
  if_pos (mem_treeTables.2 ht)

lemma own_eq_some (hn : (H.own r).tables t = some n) : H.InTree r t ∧ H.tables t = some n := by
  rw [own] at hn
  dsimp only at hn
  split_ifs at hn with ht
  exact ⟨mem_treeTables.1 ht, hn⟩

lemma tableOn_own (hq : q.length ≤ 3) : (H.own r).tableOn identity r q = H.tableOn identity r q :=
  follow_eq_of_reached (fun _ ht => own_of_inTree ht) (Nat.le_succ_of_le hq)

lemma blockAt_own (hq : q.length ≤ 3) :
    (H.own r).blockAt identity r q j = H.blockAt identity r q j := by
  rw [blockAt, blockAt, tableOn_own hq]
  refine Option.bind_congr fun t ht => block_congr ?_
  exact own_of_inTree (inTree_of_tableOn ht hq)

lemma own_logged (t : UInt64) : (H.own r).log.count (.alloc t) =
    (H.own r).log.count (.free t) + if t ≠ r ∧ t ∈ H.treeTables r then 1 else 0 := by
  have hfree : (H.own r).log.count (.free t) = 0 := by
    rw [own, List.count_eq_zero]
    simp
  have halloc : (H.own r).log.count (.alloc t) =
      ((H.treeTables r).dedup.filter (· ≠ r)).count t :=
    List.count_map_of_injective _ Event.alloc (fun _ _ heq => Event.alloc.inj heq) t
  have hnodup : ((H.treeTables r).dedup.filter (· ≠ r)).Nodup := (List.nodup_dedup _).filter _
  rw [hfree, halloc, hnodup.count]
  simp [and_comm]

lemma WellFormed.treeOf_own (hwf : H.WellFormed r) (howned : H.Owned S) : (H.own r).TreeOf S r := by
  have htable : ∀ q, q.length ≤ 3 →
      (H.own r).erase.tableAt identity r q = H.tableOn identity r q :=
    fun q hq => tableOn_eq.symm.trans (tableOn_own hq)
  -- the entries of a table are those in the heap, without blocks
  have hentries : ∀ p n, p.length ≤ 3 → (H.own r).erase.entriesAt identity r p = some n →
      ∃ t m, H.tableOn identity r p = some t ∧ H.tables t = some m ∧
        n = fun i => (m i).erase := by
    intro p n hp hn
    obtain ⟨t, ht, hn⟩ := Option.bind_eq_some_iff.1 hn
    rw [show follow _ _ r p = _ from htable p hp] at ht
    obtain ⟨m, hm, rfl⟩ := Option.map_eq_some_iff.1 hn
    exact ⟨t, m, ht, (own_eq_some hm).2, rfl⟩
  have halive : ∀ t, H.InTree r t → ∃ n, (H.own r).erase.tables t = some n := by
    intro t ht
    obtain ⟨n, hn⟩ := hwf.alive t ht
    exact ⟨_, erase_tables_eq ((own_of_inTree ht).trans hn)⟩
  refine ⟨⟨⟨?_, ?_, ?_⟩, ?_, ?_, ?_, ?_⟩, ?_⟩
  · intro p t hp ht
    rw [show follow _ _ r p = _ from htable p hp] at ht
    exact halive t (inTree_of_tableOn ht hp)
  · intro p q t hp hq hpt hqt
    rw [show follow _ _ r p = _ from htable p hp] at hpt
    rw [show follow _ _ r q = _ from htable q hq] at hqt
    exact hwf.inj p q t hp hq hpt hqt
  · intro t n hn
    obtain ⟨m, hm, -⟩ := Option.map_eq_some_iff.1 hn
    obtain ⟨p, hp, hpt⟩ := (own_eq_some hm).1
    exact ⟨p, hp, (htable p hp).trans hpt⟩
  · intro p n hp hn i
    obtain ⟨t, m, ht, hm, rfl⟩ := hentries p n hp.le hn
    dsimp only
    rcases hwf.upper p t m hp ht hm i with hblock | hcoherent
    · rw [erase_of_block hblock]
      exact coherent_clear _
    · rw [erase_of_not_block]
      · exact hcoherent
      · rcases hcoherent with ⟨-, htable, -⟩ | ⟨hv, -⟩
        · exact isBlock_of_table htable
        · exact isBlock_of_not_valid hv
  · intro p n hp hn i hv
    obtain ⟨t, m, ht, hm, rfl⟩ := hentries p n hp.le hn
    dsimp only at hv ⊢
    rw [erase_isValid, Bool.and_eq_true] at hv
    rw [erase_of_not_block (isBlock_of_table hv.2)]
    exact hv.2
  · intro t n hn
    obtain ⟨m, hm, -⟩ := Option.map_eq_some_iff.1 hn
    exact howned t m (own_eq_some hm).2
  · intro t
    have hiff : t ∈ H.treeTables r ↔ ((H.own r).erase.tables t).isSome := by
      rw [mem_treeTables]
      constructor
      · intro ht
        obtain ⟨n, hn⟩ := halive t ht
        exact Option.isSome_of_eq_some hn
      · intro ht
        obtain ⟨n, hn⟩ := Option.isSome_iff_exists.1 ht
        obtain ⟨m, hm, -⟩ := Option.map_eq_some_iff.1 hn
        exact (own_eq_some hm).1
    have hlog := own_logged (H := H) (r := r) t
    simp only [hiff] at hlog
    exact hlog
  · intro q j hq
    rw [blockAt_own hq.le, blockAt, Option.bind_eq_none_iff]
    intro t ht
    obtain ⟨n, hn⟩ := hwf.alive t (inTree_of_tableOn ht hq.le)
    rw [block_eq hn, hwf.page q t n hq ht hn j]
    rfl

lemma beside_own (howned : H.Owned S) : (H.own r).Beside S (H.others r) H := by
  refine ⟨?_, ?_, ?_, rfl⟩
  · intro t
    rw [own, others]
    dsimp only
    split_ifs <;> simp
  · intro t n hn
    rw [others] at hn
    split_ifs at hn with ht
    exact if_neg ht
  · intro t n hn
    rw [others] at hn
    split_ifs at hn with ht
    exact howned t n hn

end Heap

/-! ### Calls on one of two trees -/

inductive PageCall (AP SH : Type) where
  | mapPage (pa va : UInt64) (attrs : Attributes AP SH)
  | unmapPage (va : UInt64)

/-- The call is not `map_page` inside a block of level 2. -/
def PageCall.Clear (r : UInt64) (H : Heap AP SH X) : PageCall AP SH → Prop
  | .mapPage _ va _ => H.blockAt identity r [calculateIndex va 0, calculateIndex va 1]
      (calculateIndex va 2) = none
  | .unmapPage _    => True

def PageCall.run [Inhabited AP] [Inhabited SH] (A : TableAllocator X) (r : UInt64)
    (H : Heap AP SH X) : PageCall AP SH → Except Trap (Heap AP SH X)
  | .mapPage pa va attrs => Mars.Paging.mapPage A identity H r pa va attrs
  | .unmapPage va        => Mars.Paging.unmapPage A identity H r va

/-- Two well-formed trees that share no table. -/
structure Heap.Apart (S : AllocatorSpec A identity) (r r' : UInt64) (H : Heap AP SH X) : Prop where
  owned : H.Owned S
  left : H.WellFormed r
  right : H.WellFormed r'
  disjoint : ∀ t, H.InTree r t → ¬ H.InTree r' t

lemma Heap.Apart.symm (hH : H.Apart S r r') : H.Apart S r' r :=
  ⟨hH.owned, hH.right, hH.left, fun t ht' ht => hH.disjoint t ht ht'⟩

/-- `map_page` leaves no block at level 3. -/
lemma Heap.MapsPage.treeOf (hT : h.TreeOf S r) (hmaps : h.MapsPage S r va e h') :
    h'.TreeOf S r := by
  refine ⟨hmaps.inv, ?_⟩
  intro q j hq
  rw [Heap.blockAt, tableOn_eq, Option.bind_eq_none_iff]
  intro t ht
  rcases hmaps.block t j with hblock | hblock
  · exact hblock
  · rw [hblock, Option.eq_none_iff_forall_ne_some]
    intro e he
    obtain ⟨n, hn⟩ := alive_of_block he
    obtain ⟨p, hp, hpt⟩ := hT.inv.tree.reached t _ (erase_tables_eq hn)
    have hpt' := (hmaps.extension p t hp hpt).1
    obtain rfl := hmaps.inv.tree.inj p q t hp hq.le hpt' ht
    have hnone := hT.page p j hq
    rw [blockAt_eq hpt, he] at hnone
    cases hnone

lemma Heap.UnmapsPage.treeOf (hT : h.TreeOf S r) (hunmaps : h.UnmapsPage S r va h') :
    h'.TreeOf S r := by
  refine ⟨hunmaps.inv, ?_⟩
  intro q j hq
  rw [blockAt_shrinks hT.inv hunmaps.inv hunmaps.shrinks hunmaps.block hq.le]
  exact hT.page q j hq

section Calls

variable [Inhabited AP] [Inhabited SH] {c : PageCall AP SH}

lemma PageCall.run_beside (hH : h.Beside S f H) :
    Carries (Heap.Beside S f) (c.run A r h) (c.run A r H) := by
  cases c with
  | mapPage pa va attrs => exact mapPage_beside hH
  | unmapPage va => exact unmapPage_beside hH

lemma PageCall.Clear.treeOf (hT : h.TreeOf S r) (hclear : c.Clear r h) :
    Gives A (c.run A r h) fun h' => h'.TreeOf S r := by
  cases c with
  | mapPage pa va attrs =>
    exact (mapPage_block_spec hT.inv pa va attrs hclear).mono fun h' hmaps => hmaps.treeOf hT
  | unmapPage va =>
    obtain ⟨h', hok, hunmaps⟩ := unmapPage_block_spec (A := A) hT.inv va (hT.page _ _ rfl)
    rw [PageCall.run, hok]
    exact hunmaps.treeOf hT

/-- What a call on one of the trees does: the tables of the other one stay as they are. -/
lemma PageCall.Clear.apart (hH : H.Apart S r r') (hclear : c.Clear r H) :
    Gives A (c.run A r H) fun H' =>
      H'.Apart S r r' ∧ ∀ t, H.InTree r' t → H'.tables t = H.tables t := by
  have hT := hH.left.treeOf_own hH.owned
  have hclear' : c.Clear r (H.own r) := by
    cases c with
    | mapPage pa va attrs => exact (blockAt_own (by simp)).trans hclear
    | unmapPage va => trivial
  refine ((run_beside (beside_own hH.owned)).gives (hclear'.treeOf hT)).mono ?_
  rintro H' ⟨h', hbeside, hT'⟩
  have hother : ∀ t, H.InTree r' t → ∃ n, H.others r t = some n ∧ H.tables t = some n := by
    intro t ht
    obtain ⟨n, hn⟩ := hH.right.alive t ht
    refine ⟨n, ?_, hn⟩
    rw [Heap.others, if_neg, hn]
    rw [mem_treeTables]
    exact hH.symm.disjoint t ht
  have hsame : ∀ t, H.InTree r' t → H'.tables t = H.tables t := by
    intro t ht
    obtain ⟨n, hn, hn'⟩ := hother t ht
    rw [hbeside.of_other hn, hn']
  refine ⟨⟨hT'.owned_beside hbeside, hT'.wellFormed_beside hbeside, hH.right.congr hsame, ?_⟩,
    hsame⟩
  intro t ht ht'
  obtain ⟨n, hn⟩ := (hT'.inTree_beside hbeside).1 ht
  obtain ⟨m, hm, -⟩ := hother t ((reached_congr hsame).1 ht')
  rw [hbeside.disjoint t m hm] at hn
  cases hn

end Calls

end Mars.Paging
