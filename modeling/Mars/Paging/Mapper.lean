import Mars.Paging.Blocks

/-!
# What the mapper does

One specification for each function of the mapper, in terms of the entries that the tree of
tables leads to and of the blocks. To the mapper a tree with blocks is the tree that is left when
they are erased, and a tree without blocks is its own erasure.
-/

namespace Mars.Paging

open Function Lib.NodeTree Heap Tte

variable {AP SH X : Type} {A : TableAllocator X} {tr : AddressTranslator}

/-! ### Outcomes -/

/-- The call returns a value with the property `P`, unless the allocator refuses a table. -/
def Gives {α : Type} (A : TableAllocator X) (res : Except Trap α) (P : α → Prop) : Prop :=
  match res with
  | .ok a    => P a
  | .error e => e = .outOfMemory ∧ ∃ x, A.allocTable x = .error .outOfMemory

lemma Gives.bind {α β : Type} {res : Except Trap α} {f : α → Except Trap β} {P : α → Prop}
    {Q : β → Prop} (h : Gives A res P) (hf : ∀ a, P a → Gives A (f a) Q) :
    Gives A (res >>= f) Q := by
  cases res with
  | ok a => exact hf a h
  | error e => exact h

lemma Gives.bind_congr {α β : Type} {res : Except Trap α} {f f' : α → Except Trap β}
    {P : α → Prop} (h : Gives A res P) (hf : ∀ a, P a → f' a = f a) :
    (res >>= f') = (res >>= f) := by
  cases res with
  | ok a => exact hf a h
  | error e => rfl

lemma Gives.mono {α : Type} {res : Except Trap α} {P Q : α → Prop} (h : Gives A res P)
    (hPQ : ∀ a, P a → Q a) : Gives A res Q := by
  cases res with
  | ok a => exact hPQ a h
  | error e => exact h

variable {S : AllocatorSpec A tr} {h h' : Heap AP SH X} {r t u : UInt64} {p q exc : List Index}
  {i j : Index} {n m : TTable AP SH} {e : Tte AP SH} {x : X} {va pa : UInt64}
  {attrs : Attributes AP SH}

namespace Heap

/-! ### Blocks in a tree -/

/-- A table of the tree, with its entries before and after blocks are erased. -/
lemma Inv.alive_erase (hI : h.erase.Inv S r) (hp : h.erase.tableAt tr r p = some t)
    (hpd : p.length ≤ 3) : ∃ n, h.tables t = some n ∧
      h.erase.entriesAt tr r p = some fun i => (n i).erase := by
  obtain ⟨m, hm, hentries⟩ := hI.alive hp hpd
  cases hn : h.tables t with
  | none =>
    rw [erase_tables_none.2 hn] at hm
    cases hm
  | some n =>
    rw [erase_tables_eq hn] at hm
    exact ⟨n, rfl, hentries.trans hm.symm⟩

lemma Inv.fresh_erase (hI : h.erase.Inv S r) (hx : A.allocTable h.allocator = .ok (u, x)) :
    h.tables u = none :=
  erase_tables_none.1 (hI.fresh hx)

lemma blockAt_eq (hp : h.erase.tableAt tr r p = some t) : h.blockAt tr r p i = h.block t i := by
  rw [blockAt, tableOn_eq, hp, Option.bind_some]

lemma blockAt_of_none (hp : h.erase.tableAt tr r p = none) : h.blockAt tr r p i = none := by
  rw [blockAt, tableOn_eq, hp]
  rfl

/-- A table that is not alive holds no block, so blocks are where they were if tables that hold
blocks are. -/
lemma blockAt_congr (hblock : ∀ v j, h'.block v j = h.block v j)
    (htable : ∀ v j e, h.block v j = some e →
      (h'.erase.tableAt tr r p = some v ↔ h.erase.tableAt tr r p = some v)) :
    h'.blockAt tr r p i = h.blockAt tr r p i := by
  refine Option.ext fun e => ?_
  rw [blockAt, blockAt, Option.bind_eq_some_iff, Option.bind_eq_some_iff]
  simp only [hblock, tableOn_eq]
  constructor
  · rintro ⟨v, hv, he⟩
    exact ⟨v, (htable v i e he).1 hv, he⟩
  · rintro ⟨v, hv, he⟩
    exact ⟨v, (htable v i e he).2 hv, he⟩

lemma alive_of_block (he : h.block t i = some e) : ∃ n, h.tables t = some n := by
  cases hn : h.tables t with
  | none =>
    rw [block_of_none hn] at he
    cases he
  | some n => exact ⟨n, rfl⟩

/-- Blocks stay where they are when tables are added. -/
lemma blockAt_extends (hI : h.erase.Inv S r) (hI' : h'.erase.Inv S r)
    (hext : h.erase.Extends S r h'.erase) (hblock : ∀ v j, h'.block v j = h.block v j)
    (hp : p.length ≤ 3) : h'.blockAt tr r p i = h.blockAt tr r p i := by
  refine blockAt_congr hblock fun v j e he => ⟨?_, ?_⟩
  · intro hv
    obtain ⟨n, hn⟩ := alive_of_block he
    obtain ⟨q, hq, hqv⟩ := hI.tree.reached v _ (erase_tables_eq hn)
    obtain rfl := hI'.tree.inj p q v hp hq hv (hext q v hq hqv).1
    exact hqv
  · intro hv
    exact (hext p v hp hv).1

/-- Blocks stay where they are when tables without blocks are removed. -/
lemma blockAt_shrinks (hI : h.erase.Inv S r) (hI' : h'.erase.Inv S r)
    (hshrinks : h.erase.Shrinks S r h'.erase) (hblock : ∀ v j, h'.block v j = h.block v j)
    (hp : p.length ≤ 3) : h'.blockAt tr r p i = h.blockAt tr r p i := by
  refine blockAt_congr hblock fun v j e he => ⟨?_, ?_⟩
  · intro hv
    exact (hshrinks p v hp hv).1
  · intro hv
    rw [← hblock] at he
    obtain ⟨n, hn⟩ := alive_of_block he
    obtain ⟨q, hq, hqv⟩ := hI'.tree.reached v _ (erase_tables_eq hn)
    obtain rfl := hI.tree.inj p q v hp hq hv (hshrinks q v hq hqv).1
    exact hqv

lemma Inv.block_eq_none (hI : h.Inv S r) (v : UInt64) (j : Index) : h.block v j = none := by
  cases hn : h.tables v with
  | none => exact block_of_none hn
  | some n =>
    obtain ⟨p, hp, hpv⟩ := hI.tree.reached v n hn
    have hentries : h.entriesAt tr r p = some n := (nodeAt_of_follow hpv).trans hn
    have htable : (n j).isValid = true → (n j).isTable = true := by
      rcases Nat.lt_or_eq_of_le hp with hlt | heq
      · rcases hI.coherent p n hlt hentries j with ⟨-, ht, -⟩ | ⟨hv, -⟩
        · exact fun _ => ht
        · simp [hv]
      · exact hI.page p n heq hentries j
    rw [block_eq hn, Tte.isBlock]
    cases hv : (n j).isValid with
    | false => rfl
    | true => rw [htable hv]; rfl

lemma Inv.erase_eq (hI : h.Inv S r) : h.erase = h := erase_eq_self hI.block_eq_none

lemma Inv.erase (hI : h.Inv S r) : h.erase.Inv S r := by
  rw [hI.erase_eq]
  exact hI

lemma blockAt_of_block (hnone : ∀ v j, h.block v j = none) : h.blockAt tr r p i = none := by
  rw [blockAt, Option.bind_eq_none_iff]
  exact fun v _ => hnone v i

end Heap

/-! ### Mapping -/

lemma hasTableAddress_eq_isValid (e : Tte AP SH) (he : e.Coherent tr) :
    hasTableAddress e = e.isValid :=
  he.hasTableAddress_eq

/-- The table `u` is now at `p ++ [i]`, and nothing else has changed that matters. -/
structure Heap.Descends (S : AllocatorSpec A tr) (r : UInt64) (h : Heap AP SH X) (p : List Index)
    (i : Index) (u : UInt64) (h' : Heap AP SH X) : Prop where
  inv : h'.Inv S r
  tableAt : h'.tableAt tr r (p ++ [i]) = some u
  extension : h.Extends S r h'
  entryAt : ∀ q j, q.length = 3 → h'.entryAt tr r q j = h.entryAt tr r q j
  occupied : ∀ P exc, exc = [] ∨ exc = p → h.Occupied tr r P exc →
    ∃ exc', (exc' = [] ∨ exc' = p ++ [i]) ∧ h'.Occupied tr r P exc'

/-- If the table is there already, nothing happens. -/
lemma Heap.Inv.descends_self (hI : h.Inv S r) (hp : h.tableAt tr r p = some t) (hpd : p.length < 3)
    (hn : h.tables t = some n) (hv : (n i).isValid = true) :
    h.Descends S r p i (tr.physToDmap (n i).address) h := by
  refine ⟨hI, ?_, .refl h, fun q j _ => rfl, ?_⟩
  · rw [Heap.tableAt, follow_snoc_of_node hp hn, child_of_valid hv]
  · intro P exc hexc hocc
    refine ⟨[], .inl rfl, ?_⟩
    intro q m hP hq hne _ hm
    by_cases hqp : q = p
    · subst hqp
      have hold : h.entriesAt tr r q = some n := (nodeAt_of_follow hp).trans hn
      rw [hold] at hm
      cases hm
      exact ⟨i, hv⟩
    · refine hocc q m hP hq hne ?_ hm
      rcases hexc with rfl | rfl
      · exact hne
      · exact hqp

/-- The table `u` is at `p ++ [i]`, and any block that was in the entry is lost. -/
structure Heap.Opens (S : AllocatorSpec A tr) (r : UInt64) (h : Heap AP SH X) (p : List Index)
    (t : UInt64) (i : Index) (u : UInt64) (h' : Heap AP SH X) : Prop where
  descends : h.erase.Descends S r p i u h'.erase
  tableAt_of_ne : ∀ q, q.length ≤ 3 → q ≠ p ++ [i] →
    h'.erase.tableAt tr r q = h.erase.tableAt tr r q
  block : ∀ v j, h'.block v j = if v = t ∧ j = i then none else h.block v j

lemma Heap.Opens.block_eq (ho : h.Opens S r p t i u h') (hi : h.block t i = none) (v : UInt64)
    (j : Index) : h'.block v j = h.block v j := by
  rw [ho.block]
  split_ifs with hvj
  · rw [hvj.1, hvj.2, hi]
  · rfl

/-- What `map_page` or `map_l2_block` finds or makes on the way to the level 2 table `l2`. -/
structure Heap.OpensL2 (S : AllocatorSpec A tr) (r : UInt64) (h : Heap AP SH X) (va l2 : UInt64)
    (h' : Heap AP SH X) : Prop where
  inv : h'.erase.Inv S r
  tableAt : h'.erase.tableAt tr r [calculateIndex va 0, calculateIndex va 1] = some l2
  extension : h.erase.Extends S r h'.erase
  tableAt_of_ne : ∀ q, q.length ≤ 3 → ¬ q <+: [calculateIndex va 0, calculateIndex va 1] →
    h'.erase.tableAt tr r q = h.erase.tableAt tr r q
  entryAt : ∀ q j, q.length = 3 → h'.erase.entryAt tr r q j = h.erase.entryAt tr r q j
  occupied : ∀ P, h.erase.Occupied tr r P [] →
    ∃ exc, (exc = [] ∨ exc = [calculateIndex va 0, calculateIndex va 1]) ∧
      h'.erase.Occupied tr r P exc
  block : ∀ v j, h'.block v j = none ∨ h'.block v j = h.block v j
  /-- No block is lost if the upper levels have none. -/
  block_eq : (∀ q j, q.length < 2 → h.blockAt tr r q j = none) → ∀ v j, h'.block v j = h.block v j

/-- A block of the level 2 table was there before. -/
lemma Heap.OpensL2.block_l2 {l2 : UInt64} (ho : h.OpensL2 S r va l2 h') (hI : h.erase.Inv S r)
    (hnone : h.blockAt tr r [calculateIndex va 0, calculateIndex va 1] i = none) :
    h'.block l2 i = none := by
  rcases ho.block l2 i with hblock | hblock
  · exact hblock
  · rw [hblock, Option.eq_none_iff_forall_ne_some]
    intro e he
    obtain ⟨n, hn⟩ := alive_of_block he
    obtain ⟨q, hq, hqv⟩ := hI.tree.reached l2 _ (erase_tables_eq hn)
    have hql2 := (ho.extension q l2 hq hqv).1
    obtain rfl := ho.inv.tree.inj q _ l2 hq (by simp) hql2 ho.tableAt
    rw [blockAt_eq hqv, he] at hnone
    cases hnone

/-- What `map_page` leaves behind in a tree with blocks, which the entries are seen without. -/
structure Heap.MapsPage (S : AllocatorSpec A tr) (r : UInt64) (h : Heap AP SH X) (va : UInt64)
    (e : Tte AP SH) (h' : Heap AP SH X) : Prop where
  inv : h'.erase.Inv S r
  extension : h.erase.Extends S r h'.erase
  tableAt_of_ne : ∀ q, q.length ≤ 3 → ¬ q <+: pathOf va →
    h'.erase.tableAt tr r q = h.erase.tableAt tr r q
  entryAt : ∀ q j, q.length = 3 → h'.erase.entryAt tr r q j =
    if q = pathOf va ∧ j = calculateIndex va 3 then some e else h.erase.entryAt tr r q j
  occupied : ∀ P, h.erase.Occupied tr r P [] → h'.erase.Occupied tr r P []
  block : ∀ v j, h'.block v j = none ∨ h'.block v j = h.block v j
  block_eq : (∀ q j, q.length ≤ 3 → q.length ≠ 2 → h.blockAt tr r q j = none) →
    ∀ v j, h'.block v j = h.block v j

/-- What `map_page` leaves behind in a tree of tables and pages. -/
structure Heap.Maps (S : AllocatorSpec A tr) (r : UInt64) (h : Heap AP SH X) (va : UInt64)
    (e : Tte AP SH) (h' : Heap AP SH X) : Prop where
  inv : h'.Inv S r
  extension : h.Extends S r h'
  entryAt : ∀ q j, q.length = 3 → h'.entryAt tr r q j =
    if q = pathOf va ∧ j = calculateIndex va 3 then some e else h.entryAt tr r q j
  occupied : ∀ P, h.Occupied tr r P [] → h'.Occupied tr r P []

/-- Without blocks, what `map_page` does to the erasure it does to the tree. -/
lemma Heap.MapsPage.maps (hmaps : h.MapsPage S r va e h') (hI : h.Inv S r) :
    h.Maps S r va e h' ∧ ∀ q, q.length ≤ 3 → ¬ q <+: pathOf va →
      h'.tableAt tr r q = h.tableAt tr r q := by
  have hblock := hmaps.block_eq fun _ _ _ _ => blockAt_of_block hI.block_eq_none
  have herase := erase_eq_self fun v j => (hblock v j).trans (hI.block_eq_none v j)
  obtain ⟨hinv, hext, htable, hentry, hocc, -, -⟩ := hmaps
  simp only [hI.erase_eq, herase] at hinv hext htable hentry hocc
  exact ⟨⟨hinv, hext, hentry, hocc⟩, htable⟩

section Map

variable [Inhabited AP] [Inhabited SH]

/-- Hanging a new table into the tree is a step down. -/
lemma Heap.Inv.descends_link (hI : h.Inv S r) (hp : h.tableAt tr r p = some t) (hpd : p.length < 3)
    (hn : h.tables t = some n) (hv : (n i).isValid = false) {x : X}
    (hx : A.allocTable h.allocator = .ok (u, x)) (he : Links tr e u) :
    h.Descends S r p i u (h.link t i e u x) := by
  refine ⟨hI.link hp hpd hn hv hx he, ?_, hI.extends_link hp hpd hn hv hx he, ?_, ?_⟩
  · exact (hI.tableAt_link hp hpd hn hv hx he (length_snoc_le hpd i)).trans (if_pos rfl)
  · intro q j hq
    exact hI.entryAt_link hp hpd hn hv hx he hq j
  · intro P exc hexc hocc
    exact ⟨p ++ [i], .inr rfl, hI.occupied_link hp hpd hn hv hx he hocc hexc⟩

lemma childTable_cases (tr : AddressTranslator) (present : Tte AP SH → Bool)
    (hn : h.tables t = some n)
    (hfresh : ∀ u x, A.allocTable h.allocator = .ok (u, x) → h.tables u = none) (i : Index) :
    (present (n i) = true ∧
      childTable A tr present h t i = .ok (tr.physToDmap (n i).address, h)) ∨
    (present (n i) = false ∧ ∃ e, A.allocTable h.allocator = .error e ∧
      childTable A tr present h t i = .error e) ∨
    (present (n i) = false ∧ ∃ u x, A.allocTable h.allocator = .ok (u, x) ∧
      childTable A tr present h t i =
        .ok (u, h.link t i ((n i).linkTo (tr.dmapToPhys u)) u x)) := by
  rw [childTable, readEntry_eq hn]
  simp only [bind, Except.bind]
  cases hpresent : present (n i) with
  | true => exact .inl ⟨rfl, rfl⟩
  | false =>
    refine .inr ?_
    rw [if_neg Bool.false_ne_true, Heap.allocTable]
    cases hx : A.allocTable h.allocator with
    | error e => exact .inl ⟨rfl, e, rfl, rfl⟩
    | ok res =>
      obtain ⟨u, x⟩ := res
      have hut : t ≠ u := by
        rintro rfl
        rw [hfresh t x hx] at hn
        cases hn
      have htables : update h.tables u (some TTable.new) t = some n := by
        rw [update_of_ne hut, hn]
      refine .inr ⟨rfl, u, x, rfl, ?_⟩
      simp only [bind, Except.bind, Heap.writeEntry, htables]
      rfl

/-- `childTable` works as if there were no blocks, if the test for a table does not see them. -/
lemma childTable_opens (present : Tte AP SH → Bool)
    (hpresent : ∀ e : Tte AP SH, e.Coherent tr → present e = e.isValid) (hI : h.erase.Inv S r)
    (hp : h.erase.tableAt tr r p = some t) (hpd : p.length < 3) (i : Index)
    (hblind : ∀ n, h.tables t = some n → present (n i).erase = present (n i)) :
    Gives A (childTable A tr present h t i) fun res => h.Opens S r p t i res.1 res.2 := by
  obtain ⟨n, hn, hentries⟩ := hI.alive_erase hp hpd.le
  have htest := hpresent _ (hI.coherent p _ hpd hentries i)
  rw [hblind n hn, erase_isValid] at htest
  have hn' := erase_tables_eq hn
  obtain ⟨hv, hok⟩ | ⟨hv, e, hx, hok⟩ | ⟨hv, u, x, hx, hok⟩ :=
    childTable_cases tr present hn (fun _ _ hx => hI.fresh_erase hx) i
  · rw [hok]
    rw [hv, eq_comm, Bool.and_eq_true] at htest
    have hblock := isBlock_of_table htest.2
    have herase := erase_of_not_block hblock
    refine ⟨?_, fun _ _ _ => rfl, ?_⟩
    · have hself := hI.descends_self (i := i) hp hpd hn' (by rw [herase, htest.1])
      rw [herase] at hself
      exact hself
    · intro v j
      split_ifs with hvj
      · rw [hvj.1, hvj.2, block_eq hn, hblock]
        rfl
      · rfl
  · rw [hok]
    obtain rfl := S.alloc_error _ _ hx
    exact ⟨rfl, _, hx⟩
  · rw [hok]
    have hv' : (n i).erase.isValid = false := by rw [erase_isValid, ← htest, hv]
    have hlink : Links tr ((n i).linkTo (tr.dmapToPhys u)) u := links_linkTo (n i) u
    refine ⟨?_, ?_, ?_⟩
    · dsimp only
      rw [link_erase, erase_linkTo]
      exact hI.descends_link hp hpd hn' hv' hx hlink
    · intro q hq hne
      rw [link_erase, erase_linkTo]
      exact (hI.tableAt_link hp hpd hn' hv' hx hlink hq).trans (if_neg hne)
    · intro v j
      exact block_link hn (hI.fresh_erase hx) (isBlock_of_table rfl)

lemma childTable_spec (present : Tte AP SH → Bool)
    (hpresent : ∀ e : Tte AP SH, e.Coherent tr → present e = e.isValid) (hI : h.Inv S r)
    (hp : h.tableAt tr r p = some t) (hpd : p.length < 3) (i : Index) :
    Gives A (childTable A tr present h t i) fun res => h.Descends S r p i res.1 res.2 := by
  have herase : ∀ n, h.tables t = some n → (n i).erase = n i := by
    intro n hn
    have hblock := hI.block_eq_none t i
    rw [block_eq hn] at hblock
    exact erase_of_not_block (by simpa using hblock)
  have hp' : h.erase.tableAt tr r p = some t := by rw [hI.erase_eq, hp]
  refine (childTable_opens present hpresent hI.erase hp' hpd i
    fun n hn => congrArg present (herase n hn)).mono ?_
  rintro ⟨u, h'⟩ ho
  have herase' := erase_eq_self fun v j =>
    (ho.block_eq (hI.block_eq_none t i) v j).trans (hI.block_eq_none v j)
  have hd := ho.descends
  rw [hI.erase_eq, herase'] at hd
  exact hd

/-- The first two levels of `map_page` and of `map_l2_block`. -/
lemma opensL2_bind {α : Type} {f : UInt64 × Heap AP SH X → Except Trap α} {Q : α → Prop}
    (hI : h.erase.Inv S r) (va : UInt64)
    (hf : ∀ l2 h₂, h.OpensL2 S r va l2 h₂ → Gives A (f (l2, h₂)) Q) :
    Gives A (childTable A tr hasTableAddress h r (calculateIndex va 0) >>= fun res =>
      childTable A tr hasTableAddress res.2 res.1 (calculateIndex va 1) >>= f) Q := by
  have hroot : h.erase.tableAt tr r [] = some r := rfl
  refine (childTable_opens hasTableAddress hasTableAddress_eq_isValid hI hroot (by simp) _
    fun _ _ => hasTableAddress_erase).bind ?_
  rintro ⟨l1, h₁⟩ ho₁
  have hd₁ := ho₁.descends
  refine (childTable_opens hasTableAddress hasTableAddress_eq_isValid hd₁.inv hd₁.tableAt (by simp)
    _ fun _ _ => hasTableAddress_erase).bind ?_
  rintro ⟨l2, h₂⟩ ho₂
  have hd₂ := ho₂.descends
  refine hf l2 h₂ ⟨hd₂.inv, hd₂.tableAt, hd₁.extension.trans hd₂.extension, ?_, ?_, ?_, ?_, ?_⟩
  · intro q hq hne
    rw [ho₂.tableAt_of_ne q hq, ho₁.tableAt_of_ne q hq]
    · rintro rfl
      exact hne ⟨[_], rfl⟩
    · rintro rfl
      exact hne List.prefix_rfl
  · intro q j hq
    rw [hd₂.entryAt q j hq, hd₁.entryAt q j hq]
  · intro P hocc
    obtain ⟨exc₁, hexc₁, hocc₁⟩ := hd₁.occupied P [] (.inl rfl) hocc
    exact hd₂.occupied P exc₁ hexc₁ hocc₁
  · intro v j
    rw [ho₂.block, ho₁.block]
    split_ifs
    · exact .inl rfl
    · exact .inl rfl
    · exact .inr rfl
  · intro hnone v j
    have hblock₁ : ∀ v j, h₁.block v j = h.block v j := by
      refine ho₁.block_eq ?_
      rw [← blockAt_eq hroot]
      exact hnone [] _ (by simp)
    rw [ho₂.block_eq ?_ v j, hblock₁]
    rw [← blockAt_eq hd₁.tableAt, blockAt_extends hI hd₁.inv hd₁.extension hblock₁ (by simp)]
    exact hnone _ _ (by simp)

/-- `map_page` works as if there were no blocks, if there is none in the level 2 entry. -/
lemma mapPage_block_spec (hI : h.erase.Inv S r) (pa va : UInt64) (attrs : Attributes AP SH)
    (hclear : h.blockAt tr r [calculateIndex va 0, calculateIndex va 1] (calculateIndex va 2) =
      none) : Gives A (mapPage A tr h r pa va attrs) (h.MapsPage S r va (pageEntry pa attrs)) := by
  refine opensL2_bind hI va fun l2 h₂ ho => ?_
  have hl2 := ho.block_l2 hI hclear
  refine (childTable_opens Tte.isValid (fun _ _ => rfl) ho.inv ho.tableAt (by simp) _ ?_).bind ?_
  · intro n hn
    rw [erase_of_not_block]
    rw [block_eq hn] at hl2
    simpa using hl2
  rintro ⟨l3, h₃⟩ ho₃
  have hd₃ := ho₃.descends
  have hpath := hd₃.tableAt
  obtain ⟨n, hn, -⟩ := hd₃.inv.alive_erase hpath le_rfl
  have hn' := erase_tables_eq hn
  have hput : (h₃.put l3 (calculateIndex va 3) (pageEntry pa attrs)).erase =
      h₃.erase.put l3 (calculateIndex va 3) (pageEntry pa attrs) := by
    rw [put_erase, pageEntry_erase]
  have hpage : ∀ v j, (h₃.put l3 (calculateIndex va 3) (pageEntry pa attrs)).block v j =
      if v = l3 ∧ j = calculateIndex va 3 then none else h₃.block v j :=
    fun v j => block_put hn
  simp only [writeEntry_eq hn]
  change h.MapsPage S r va (pageEntry pa attrs)
    (h₃.put l3 (calculateIndex va 3) (pageEntry pa attrs))
  refine ⟨?_, ?_, ?_, ?_, ?_, ?_, ?_⟩
  · rw [hput]
    exact hd₃.inv.put_leaf hpath rfl hn' fun _ => rfl
  · rw [hput]
    refine (ho.extension.trans hd₃.extension).trans ?_
    intro q t hq ht
    exact ⟨(hd₃.inv.tableAt_put hpath rfl hq).trans ht, .refl _⟩
  · intro q hq hne
    rw [hput, hd₃.inv.tableAt_put hpath rfl hq, ho₃.tableAt_of_ne q hq, ho.tableAt_of_ne q hq]
    · intro hpre
      exact hne (hpre.trans ⟨[_], rfl⟩)
    · rintro rfl
      exact hne List.prefix_rfl
  · intro q j hq
    rw [hput, hd₃.inv.entryAt_put hpath rfl hn' hq.le j, hd₃.entryAt q j hq, ho.entryAt q j hq]
    rfl
  · intro P hocc
    obtain ⟨exc₂, hexc₂, hocc₂⟩ := ho.occupied P hocc
    obtain ⟨exc₃, hexc₃, hocc₃⟩ := hd₃.occupied P exc₂ hexc₂ hocc₂
    rw [hput]
    exact hd₃.inv.occupied_put hpath rfl hn' hocc₃ hexc₃ (.inr ⟨rfl, rfl⟩)
  · intro v j
    rw [hpage, ho₃.block_eq hl2]
    split_ifs
    · exact .inl rfl
    · exact ho.block v j
  · intro hnone v j
    have hblock : ∀ v j, h₃.block v j = h.block v j := by
      intro v j
      rw [ho₃.block_eq hl2, ho.block_eq fun q j hq => hnone q j (by omega) (by omega)]
    rw [hpage, ← hblock]
    split_ifs with hvj
    · rw [hvj.1, hvj.2, ← blockAt_eq hpath, blockAt_extends hI hd₃.inv
        (ho.extension.trans hd₃.extension) hblock (by simp)]
      exact (hnone _ _ (by simp) (by simp)).symm
    · rfl

lemma mapPage_spec (hI : h.Inv S r) (pa va : UInt64) (attrs : Attributes AP SH) :
    Gives A (mapPage A tr h r pa va attrs) (h.Maps S r va (pageEntry pa attrs)) :=
  (mapPage_block_spec hI.erase pa va attrs (blockAt_of_block hI.block_eq_none)).mono
    fun _ hmaps => (hmaps.maps hI).1

lemma childTable_present (A' : TableAllocator X) (present : Tte AP SH → Bool)
    (hpresent : ∀ e : Tte AP SH, e.Coherent tr → present e = e.isValid) (hI : h.Inv S r)
    (hp : h.tableAt tr r p = some t) (hpd : p.length < 3)
    (hpi : h.tableAt tr r (p ++ [i]) = some u) : childTable A' tr present h t i = .ok (u, h) := by
  obtain ⟨n, hn, hentries⟩ := hI.alive hp hpd.le
  have htest := hpresent _ (hI.coherent p n hpd hentries i)
  rw [Heap.tableAt, follow_snoc_of_node hp hn] at hpi
  rw [childTable, readEntry_eq hn]
  simp only [bind, Except.bind, htest]
  cases hv : (n i).isValid with
  | false =>
    rw [child_of_not_valid hv] at hpi
    cases hpi
  | true =>
    rw [child_of_valid hv] at hpi
    cases hpi
    rfl

/-- If the leaf table is there, `map_page` allocates nothing. -/
lemma mapPage_of_leaf (A' : TableAllocator X) (hI : h.Inv S r) (pa : UInt64) {va : UInt64}
    (attrs : Attributes AP SH) (h3 : h.tableAt tr r (pathOf va) = some t) :
    ∃ h', mapPage A' tr h r pa va attrs = .ok h' := by
  have hpre1 : [calculateIndex va 0] <+: pathOf va := ⟨[_, _], rfl⟩
  have hpre2 : [calculateIndex va 0, calculateIndex va 1] <+: pathOf va := ⟨[_], rfl⟩
  obtain ⟨l1, h1⟩ := tableAt_of_prefix hpre1 h3
  obtain ⟨l2, h2⟩ := tableAt_of_prefix hpre2 h3
  have htable : ∀ e : Tte AP SH, e.Coherent tr → hasTableAddress e = e.isValid :=
    fun e he => he.hasTableAddress_eq
  have hroot : h.tableAt tr r [] = some r := rfl
  obtain ⟨n, hn, -⟩ := hI.alive h3 le_rfl
  rw [mapPage, childTable_present A' _ htable hI hroot (by decide) h1]
  simp only [bind, Except.bind]
  rw [childTable_present A' _ htable hI h1 (by simp) h2]
  dsimp only
  rw [childTable_present A' _ (fun _ _ => rfl) hI h2 (by simp) h3]
  exact ⟨_, writeEntry_eq hn _ _⟩

end Map

/-! ### Unmapping -/

/-- What the cascade at the end of `unmap_page` has done so far, starting with the table at
`path`. Every table is occupied except perhaps the one at `exc`, if at first this was so except
for the one at `path`. -/
structure Heap.Prunes (S : AllocatorSpec A tr) (r : UInt64) (h : Heap AP SH X)
    (path exc : List Index) (h' : Heap AP SH X) : Prop where
  inv : h'.Inv S r
  shrinks : h.Shrinks S r h'
  removed : ∀ q t, q.length ≤ 3 → h.tableAt tr r q = some t → h'.tableAt tr r q = none →
    q <+: path
  entryAt : ∀ q j, q.length = 3 → h'.entryAt tr r q j = h.entryAt tr r q j
  occupied : ∀ P, h.Occupied tr r P path → h'.Occupied tr r P exc

lemma Heap.Prunes.unlink {h₀ : Heap AP SH X} {path : List Index}
    (hP : h₀.Prunes S r path (p ++ [i]) h) (hp : h.tableAt tr r p = some t) (hpd : p.length < 3)
    (hpi : h.tableAt tr r (p ++ [i]) = some u) (hpath : p ++ [i] <+: path)
    (hu : h.tables u = some m) (hempty : ∀ j, (m j).isValid = false) (e : Tte AP SH) {x : X}
    (hx : A.freeTable u h.allocator = .ok x) : h₀.Prunes S r path p (h.unlink t i e u x) := by
  obtain ⟨n, hn, -⟩ := hP.inv.alive hp hpd.le
  refine ⟨?_, ?_, ?_, ?_, ?_⟩
  · exact hP.inv.unlink hp hpd hn hpi hu hempty e hx
  · exact hP.shrinks.trans (hP.inv.shrinks_unlink hp hpd hpi hu hempty e hx)
  · intro q v hq hv hnone
    rw [hP.inv.tableAt_unlink hp hpd hpi hu hempty e x hq] at hnone
    split_ifs at hnone with hqi
    · rw [hqi]
      exact hpath
    · exact hP.removed q v hq hv hnone
  · intro q j hq
    exact (hP.inv.entryAt_unlink hp hpd hn hpi hu hempty e x hq j).trans (hP.entryAt q j hq)
  · intro P hocc
    exact hP.inv.occupied_unlink hp hpd hn hpi hu hempty e x (hP.occupied P hocc)

lemma reclaim_eq {next : Heap AP SH X → Except Trap (Heap AP SH X)} (hn : h.tables t = some n)
    (hu : h.tables u = some m) (htu : t ≠ u) (e : Tte AP SH) {x : X}
    (hx : A.freeTable u h.allocator = .ok x) :
    reclaim A h u t i e next =
      if ∀ j, (m j).isValid = false then next (h.unlink t i e u x) else .ok h := by
  have htables : update h.tables u none t = some n := by
    rw [update_of_ne htu, hn]
  rw [reclaim, isTableEmpty_eq hu]
  simp only [bind, Except.bind, decide_eq_true_eq, Heap.freeTable, hu, hx, Heap.writeEntry, htables]
  rfl

/-- The cascade at the end of `unmap_page` has got to `h'`. -/
structure Heap.PrunesBlocks (S : AllocatorSpec A tr) (r : UInt64) (h : Heap AP SH X)
    (path exc : List Index) (h' : Heap AP SH X) : Prop where
  prunes : h.erase.Prunes S r path exc h'.erase
  block : ∀ v j, h'.block v j = h.block v j

/-- The cascade has ended. It stops at a table with a block, although that may be empty when the
blocks are erased. -/
def Heap.Pruned (S : AllocatorSpec A tr) (r : UInt64) (h : Heap AP SH X) (path : List Index)
    (h' : Heap AP SH X) : Prop :=
  ∃ exc, h.PrunesBlocks S r path exc h' ∧ ((∀ v j, h.block v j = none) → exc = [])

lemma Heap.block_of_child (hp : h.erase.tableAt tr r p = some t) (hn : h.tables t = some n)
    (hpi : h.erase.tableAt tr r (p ++ [i]) = some u) : h.block t i = none := by
  rw [Heap.tableAt, follow_snoc_of_node hp (erase_tables_eq hn), child_erase, Tte.tableChild] at hpi
  split_ifs at hpi with htable
  rw [Bool.and_eq_true] at htable
  rw [block_eq hn, isBlock_of_table htable.2]
  rfl

/-- One test of the cascade. A table with a block is not empty, and the cascade stops there. -/
lemma reclaim_block_spec {h₀ : Heap AP SH X} {next : Heap AP SH X → Except Trap (Heap AP SH X)}
    {path : List Index} (hP : h₀.PrunesBlocks S r path (p ++ [i]) h)
    (hp : h.erase.tableAt tr r p = some t) (hpd : p.length < 3)
    (hpi : h.erase.tableAt tr r (p ++ [i]) = some u) (hpath : p ++ [i] <+: path) (e : Tte AP SH)
    (hnext : ∀ h₁, h₀.PrunesBlocks S r path p h₁ →
      (∀ q, q.length ≤ 3 → q ≠ p ++ [i] → h₁.erase.tableAt tr r q = h.erase.tableAt tr r q) →
      ∃ h', next h₁ = .ok h' ∧ h₀.Pruned S r path h') :
    ∃ h', reclaim A h u t i e next = .ok h' ∧ h₀.Pruned S r path h' := by
  have hI := hP.prunes.inv
  obtain ⟨n, hn, -⟩ := hI.alive_erase hp hpd.le
  obtain ⟨m, hu, hentries⟩ := hI.alive_erase hpi (length_snoc_le hpd i)
  have hu' := erase_tables_eq hu
  obtain ⟨x, hx⟩ := S.free_ok _ _ (hI.owned u _ hu')
  have htu := hI.tree.parent_ne hp hpd hpi
  rw [reclaim_eq hn hu htu e hx]
  split_ifs with hempty
  · have hempty' : ∀ j, (m j).erase.isValid = false := by
      intro j
      rw [erase_isValid, hempty j]
      rfl
    have hunlink : (h.unlink t i e u x).erase = h.erase.unlink t i e u x := unlink_erase
    refine hnext (h.unlink t i e u x) ⟨?_, ?_⟩ ?_
    · rw [hunlink]
      exact hP.prunes.unlink hp hpd hpi hpath hu' hempty' e hx
    · intro v j
      rw [← hP.block]
      refine block_unlink hn htu ?_ (block_of_child hp hn hpi)
      intro j
      rw [block_eq hu, isBlock_of_not_valid (hempty j)]
      rfl
    · intro q hq hne
      rw [hunlink, hI.tableAt_unlink hp hpd hpi hu' hempty' e x hq, if_neg hne]
  · refine ⟨h, rfl, ?_⟩
    by_cases hnone : ∀ v j, h₀.block v j = none
    · refine ⟨[], ⟨⟨hI, hP.prunes.shrinks, hP.prunes.removed, hP.prunes.entryAt, ?_⟩, hP.block⟩,
        fun _ => rfl⟩
      intro P hocc q m' hPq hq hne _ hm'
      by_cases hqi : q = p ++ [i]
      · rw [hqi, hentries] at hm'
        cases hm'
        obtain ⟨j, hj⟩ := not_forall.1 hempty
        have hblock := (hP.block u j).trans (hnone u j)
        rw [block_eq hu] at hblock
        refine ⟨j, ?_⟩
        show (m j).erase.isValid = true
        rw [erase_of_not_block (by simpa using hblock)]
        simpa using hj
      · exact hP.prunes.occupied P hocc q m' hPq hq hne hqi hm'
    · exact ⟨_, hP, fun h => absurd h hnone⟩

/-- What `unmap_page` leaves behind in a tree of tables and pages. -/
structure Heap.Unmaps (S : AllocatorSpec A tr) (r : UInt64) (h : Heap AP SH X) (va : UInt64)
    (h' : Heap AP SH X) : Prop where
  inv : h'.Inv S r
  shrinks : h.Shrinks S r h'
  /-- Only tables on the way to a page that was mapped are removed. -/
  removed : ∀ q t, q.length ≤ 3 → h.tableAt tr r q = some t → h'.tableAt tr r q = none →
    q <+: pathOf va ∧ (h.entryAt tr r (pathOf va) (calculateIndex va 3)).isSome
  entryAt : ∀ q j, q.length = 3 → h'.entryAt tr r q j =
    if q = pathOf va ∧ j = calculateIndex va 3 then none else h.entryAt tr r q j
  occupied : ∀ P, h.Occupied tr r P [] → h'.Occupied tr r P []

/-- What `unmap_page` leaves behind in a tree with blocks, which stay. -/
structure Heap.UnmapsPage (S : AllocatorSpec A tr) (r : UInt64) (h : Heap AP SH X) (va : UInt64)
    (h' : Heap AP SH X) : Prop where
  inv : h'.erase.Inv S r
  shrinks : h.erase.Shrinks S r h'.erase
  removed : ∀ q t, q.length ≤ 3 → h.erase.tableAt tr r q = some t →
    h'.erase.tableAt tr r q = none →
      q <+: pathOf va ∧ (h.erase.entryAt tr r (pathOf va) (calculateIndex va 3)).isSome
  entryAt : ∀ q j, q.length = 3 → h'.erase.entryAt tr r q j =
    if q = pathOf va ∧ j = calculateIndex va 3 then none else h.erase.entryAt tr r q j
  occupied : (∀ v j, h.block v j = none) → ∀ P, h.erase.Occupied tr r P [] →
    h'.erase.Occupied tr r P []
  block : ∀ v j, h'.block v j = h.block v j

lemma Heap.UnmapsPage.unmaps (hunmaps : h.UnmapsPage S r va h') (hI : h.Inv S r) :
    h.Unmaps S r va h' := by
  have herase := erase_eq_self fun v j => (hunmaps.block v j).trans (hI.block_eq_none v j)
  obtain ⟨hinv, hshrinks, hremoved, hentry, hocc, -⟩ := hunmaps
  simp only [hI.erase_eq, herase] at hinv hshrinks hremoved hentry hocc
  exact ⟨hinv, hshrinks, hremoved, hentry, hocc hI.block_eq_none⟩

/-- `unmap_page` returns early if there is nothing to unmap. -/
lemma Heap.Inv.unmapsPage_self (hI : h.erase.Inv S r)
    (hnone : h.erase.entryAt tr r (pathOf va) (calculateIndex va 3) = none) :
    h.UnmapsPage S r va h := by
  refine ⟨hI, .refl _, ?_, ?_, fun _ _ => id, fun _ _ => rfl⟩
  · intro q t _ ht hgone
    rw [ht] at hgone
    cases hgone
  · intro q j hq
    split_ifs with hqj
    · rw [hqj.1, hqj.2, hnone]
    · rfl

lemma Heap.entryAt_of_prefix_none (hp : h.tableAt tr r p = none) (q : List Index) (i : Index) :
    h.entryAt tr r (p ++ q) i = none := by
  refine entryAt_none (nodeAt_of_follow_none ?_) i
  rw [follow_append, show follow (Tte.child tr) h.tables r p = none from hp]
  rfl

/-- The end of `unmap_page`, once the page was found in the level 3 table `l3`. -/
lemma reclaim_path_block_spec (hI : h.erase.Inv S r) {l1 l2 l3 : UInt64} {i0 i1 i2 i3 : Index}
    (hva : pathOf va = [i0, i1, i2]) (hi3 : calculateIndex va 3 = i3)
    (h1 : h.erase.tableAt tr r [i0] = some l1) (h2 : h.erase.tableAt tr r [i0, i1] = some l2)
    (h3 : h.erase.tableAt tr r [i0, i1, i2] = some l3) (hn : h.tables l3 = some n)
    (hv : (n i3).isValid = true) (hblock : h.block l3 i3 = none) (e0 e1 e2 e3 : Tte AP SH) :
    ∃ h', (reclaim A (h.put l3 i3 e3.clear) l3 l2 i2 e2 fun h =>
      reclaim A h l2 l1 i1 e1 fun h => reclaim A h l1 r i0 e0 .ok) = .ok h' ∧
      h.UnmapsPage S r va h' := by
  have hn' := erase_tables_eq hn
  have herase : (h.put l3 i3 e3.clear).erase = h.erase.put l3 i3 e3.clear := by
    rw [put_erase, erase_clear]
  have hput : ∀ q, q.length ≤ 3 →
      (h.put l3 i3 e3.clear).erase.tableAt tr r q = h.erase.tableAt tr r q := by
    intro q hq
    rw [herase, hI.tableAt_put h3 rfl hq]
  have hP : (h.put l3 i3 e3.clear).PrunesBlocks S r [i0, i1, i2] ([i0, i1] ++ [i2])
      (h.put l3 i3 e3.clear) := by
    refine ⟨⟨?_, .refl _, ?_, fun _ _ _ => rfl, fun _ => id⟩, fun _ _ => rfl⟩
    · rw [herase]
      exact hI.put_leaf h3 rfl hn' nofun
    · intro q t _ ht hgone
      rw [ht] at hgone
      cases hgone
  have hcascade : ∃ h', (reclaim A (h.put l3 i3 e3.clear) l3 l2 i2 e2 fun h =>
      reclaim A h l2 l1 i1 e1 fun h => reclaim A h l1 r i0 e0 .ok) = .ok h' ∧
      (h.put l3 i3 e3.clear).Pruned S r [i0, i1, i2] h' := by
    refine reclaim_block_spec hP ((hput _ (by simp)).trans h2) (by simp)
      ((hput _ (by simp)).trans h3) List.prefix_rfl e2 ?_
    intro ha hPa hta
    have ha1 : ha.erase.tableAt tr r [i0] = some l1 := by
      rw [hta [i0] (by simp) (by simp), hput _ (by simp), h1]
    have ha2 : ha.erase.tableAt tr r ([i0] ++ [i1]) = some l2 := by
      rw [hta ([i0] ++ [i1]) (by simp) (by simp), hput _ (by simp)]
      exact h2
    refine reclaim_block_spec hPa ha1 (by simp) ha2 (List.prefix_append [i0, i1] [i2]) e1 ?_
    intro hb hPb htb
    have hb1 : hb.erase.tableAt tr r ([] ++ [i0]) = some l1 := by
      rw [htb ([] ++ [i0]) (by simp) (by simp)]
      exact ha1
    have hb0 : hb.erase.tableAt tr r [] = some r := rfl
    refine reclaim_block_spec hPb hb0 (by simp) hb1 (List.prefix_append [i0] [i1, i2]) e0 ?_
    intro hc hPc _
    exact ⟨hc, rfl, _, hPc, fun _ => rfl⟩
  obtain ⟨h', hok, exc, hPrunes, hexc⟩ := hcascade
  have hput_block : ∀ v j, (h.put l3 i3 e3.clear).block v j = h.block v j := by
    intro v j
    rw [block_put hn]
    split_ifs with hvj hclear
    · cases hclear
    · rw [hvj.1, hvj.2, hblock]
    · rfl
  refine ⟨h', hok, hPrunes.prunes.inv, ?_, ?_, ?_, ?_, ?_⟩
  · refine Shrinks.trans ?_ hPrunes.prunes.shrinks
    intro q t hq ht
    exact ⟨(hput q hq).symm.trans ht, .refl _⟩
  · intro q t hq ht hgone
    refine ⟨hva ▸ hPrunes.prunes.removed q t hq ((hput q hq).trans ht) hgone, ?_⟩
    have hentry : (n i3).erase = n i3 := by
      rw [block_eq hn] at hblock
      exact erase_of_not_block (by simpa using hblock)
    rw [hva, hi3, entryAt_eq ((nodeAt_of_follow h3).trans hn'), hentry, Tte.valid?, hv]
    rfl
  · intro q j hq
    rw [hPrunes.prunes.entryAt q j hq, herase, hI.entryAt_put h3 rfl hn' hq.le j, hva, hi3]
    rfl
  · intro hnone P hocc
    obtain rfl := hexc fun v j => (hput_block v j).trans (hnone v j)
    refine hPrunes.prunes.occupied P ?_
    rw [herase]
    exact hI.occupied_put h3 rfl hn' hocc (.inl rfl) (.inl rfl)
  · intro v j
    rw [hPrunes.block, hput_block]

/-- Reading the entry `i` of the table at `p` tells whether there is a table at `p ++ [i]`. -/
lemma Heap.Inv.read_tableChild (hI : h.erase.Inv S r) (hp : h.erase.tableAt tr r p = some t)
    (hpd : p.length < 3) (i : Index) : ∃ e, h.readEntry t i = .ok e ∧
      (!e.isValid || !e.isTable) = !(e.isValid && e.isTable) ∧
      h.erase.tableAt tr r (p ++ [i]) = e.tableChild tr := by
  obtain ⟨n, hn, -⟩ := hI.alive_erase hp hpd.le
  refine ⟨n i, readEntry_eq hn, by rw [Bool.not_and], ?_⟩
  rw [← child_erase]
  exact follow_snoc_of_node hp (erase_tables_eq hn)

lemma Tte.tableChild_of_table (he : (e.isValid && e.isTable) = true) :
    e.tableChild tr = some (tr.physToDmap e.address) := if_pos he

lemma Tte.tableChild_of_not_table (he : (e.isValid && e.isTable) = false) :
    e.tableChild tr = none := by
  rw [Tte.tableChild, he]
  rfl

/-- `unmap_page` works as if there were no blocks, except that tables with blocks stay. -/
lemma unmapPage_block_spec (hI : h.erase.Inv S r) (va : UInt64)
    (hleaf : h.blockAt tr r (pathOf va) (calculateIndex va 3) = none) :
    ∃ h', unmapPage A tr h r va = .ok h' ∧ h.UnmapsPage S r va h' := by
  have hroot : h.erase.tableAt tr r [] = some r := rfl
  rw [unmapPage]
  simp only [bind, Except.bind, pure, Except.pure]
  -- level 0
  obtain ⟨e0, he0, htest0, h1⟩ := hI.read_tableChild hroot (by simp) (calculateIndex va 0)
  simp only [he0, htest0]
  cases hv0 : e0.isValid && e0.isTable with
  | false =>
    rw [tableChild_of_not_table hv0] at h1
    exact ⟨h, rfl, hI.unmapsPage_self (entryAt_of_prefix_none h1 [_, _] _)⟩
  | true =>
  rw [tableChild_of_table hv0] at h1
  -- level 1
  obtain ⟨e1, he1, htest1, h2⟩ := hI.read_tableChild h1 (by simp) (calculateIndex va 1)
  simp only [he1, htest1, Bool.not_true, Bool.false_eq_true, if_false]
  cases hv1 : e1.isValid && e1.isTable with
  | false =>
    rw [tableChild_of_not_table hv1] at h2
    exact ⟨h, rfl, hI.unmapsPage_self (entryAt_of_prefix_none h2 [_] _)⟩
  | true =>
  rw [tableChild_of_table hv1] at h2
  -- level 2
  obtain ⟨e2, he2, htest2, h3⟩ := hI.read_tableChild h2 (by simp) (calculateIndex va 2)
  simp only [he2, htest2, Bool.not_true, Bool.false_eq_true, if_false]
  cases hv2 : e2.isValid && e2.isTable with
  | false =>
    rw [tableChild_of_not_table hv2] at h3
    exact ⟨h, rfl, hI.unmapsPage_self (entryAt_of_prefix_none h3 [] _)⟩
  | true =>
  rw [tableChild_of_table hv2] at h3
  -- level 3
  have hpath : h.erase.tableAt tr r (pathOf va) = some (tr.physToDmap e2.address) := h3
  obtain ⟨n, hn, hentries⟩ := hI.alive_erase hpath (by simp [pathOf])
  rw [blockAt_eq hpath] at hleaf
  simp only [readEntry_eq hn, Bool.not_true, Bool.false_eq_true, if_false]
  cases hv3 : (n (calculateIndex va 3)).isValid with
  | false =>
    refine ⟨h, rfl, hI.unmapsPage_self ?_⟩
    rw [entryAt_eq hentries, Tte.valid?, erase_isValid, hv3]
    rfl
  | true =>
  simp only [writeEntry_eq hn, Bool.not_true, Bool.false_eq_true, if_false]
  exact reclaim_path_block_spec hI rfl rfl h1 h2 h3 hn hv3 hleaf e0 e1 e2 _

lemma unmapPage_spec (hI : h.Inv S r) (va : UInt64) :
    ∃ h', unmapPage A tr h r va = .ok h' ∧ h.Unmaps S r va h' := by
  obtain ⟨h', hok, hunmaps⟩ :=
    unmapPage_block_spec hI.erase va (blockAt_of_block hI.block_eq_none)
  exact ⟨h', hok, hunmaps.unmaps hI⟩

end Mars.Paging
