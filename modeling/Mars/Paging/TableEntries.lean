import Mars.Paging.BlockMapper
import Mars.Paging.Refinement

/-!
# Pages and blocks in one tree

As long as `map_page` and `unmap_page` stay out of blocks, and `map_l2_block` away from level 3
tables, the tree translates as it should. The first call that does otherwise goes wrong: `map_page`
takes the address of the block for that of a table, `unmap_page` leaves the page mapped, and
`map_l2_block` drops the table.
-/

namespace Mars.Paging

open Lib.NodeTree Heap Tte

variable {AP SH X : Type} {A : TableAllocator X} {tr : AddressTranslator}
  {S : AllocatorSpec A tr} {h h' : Heap AP SH X} {r t u : UInt64} {p q : List Index} {i j : Index}
  {n m : TTable AP SH} {e : Tte AP SH} {x : X} {va : UInt64}

/-! ### Calls -/

/-- The calls that operations are made of. -/
inductive Call (AP SH : Type) where
  | mapPage (pa va : UInt64) (attrs : Attributes AP SH)
  | mapL2Block (pa va : UInt64) (attrs : Attributes AP SH)
  | unmapPage (va : UInt64)

/-- The test of `unmap_page` at every level above the pages. -/
def Tte.isTableEntry (e : Tte AP SH) : Bool := e.isValid && e.isTable

/-- The entries whose addresses are taken for those of tables, on a walk from `t` on that tests
one entry after the other. -/
def Heap.follows (tr : AddressTranslator) (h : Heap AP SH X) :
    UInt64 → List ((Tte AP SH → Bool) × Index) → List (Tte AP SH)
  | _, []                => []
  | t, (test, i) :: rest =>
    match h.tables t with
    | none       => []
    | some table =>
      if test (table i) then table i :: h.follows tr (tr.physToDmap (table i).address) rest else []

/-- A new table has no entry that passes a test, so the walk of a call ends where it allocates. -/
def Call.followed (tr : AddressTranslator) (r : UInt64) (h : Heap AP SH X) :
    Call AP SH → List (Tte AP SH)
  | .mapPage _ va _    => h.follows tr r
    [(hasTableAddress, calculateIndex va 0), (hasTableAddress, calculateIndex va 1),
      (Tte.isValid, calculateIndex va 2)]
  | .mapL2Block _ va _ => h.follows tr r
    [(hasTableAddress, calculateIndex va 0), (hasTableAddress, calculateIndex va 1)]
  | .unmapPage va      => h.follows tr r
    [(Tte.isTableEntry, calculateIndex va 0), (Tte.isTableEntry, calculateIndex va 1),
      (Tte.isTableEntry, calculateIndex va 2)]

/-- What a call should do to the translation of every address. -/
def Call.apply (Φ : UInt64 → Option (Mapping AP SH)) :
    Call AP SH → UInt64 → Option (Mapping AP SH)
  | .mapPage pa va attrs, va'    =>
    if pageNumber va' = pageNumber va then some ⟨pa, attrs⟩ else Φ va'
  | .mapL2Block pa va attrs, va' =>
    if pathOf va' = pathOf va then some ((blockEntry pa attrs).blockMapping (2 ^ l2BlockShift) va')
    else Φ va'
  | .unmapPage va, va'           => if pageNumber va' = pageNumber va then none else Φ va'

/-- Every table that is alive can be reached through table entries. -/
def Heap.NoneLost (tr : AddressTranslator) (r : UInt64) (h : Heap AP SH X) : Prop :=
  ∀ t n, h.tables t = some n → ∃ p, p.length ≤ 3 ∧ h.tableOn tr r p = some t

/-- The calls that do not mix pages and blocks. -/
def Call.Clear (tr : AddressTranslator) (r : UInt64) (h : Heap AP SH X) : Call AP SH → Prop
  | .mapPage _ va _    =>
    h.blockAt tr r [calculateIndex va 0, calculateIndex va 1] (calculateIndex va 2) = none
  | .mapL2Block _ va _ => h.tableOn tr r (pathOf va) = none
  | .unmapPage va      =>
    h.blockAt tr r [calculateIndex va 0, calculateIndex va 1] (calculateIndex va 2) = none

section Run

variable [Inhabited AP] [Inhabited SH]

def Call.run (A : TableAllocator X) (tr : AddressTranslator) (r : UInt64) (h : Heap AP SH X) :
    Call AP SH → Except Trap (Heap AP SH X)
  | .mapPage pa va attrs    => Mars.Paging.mapPage A tr h r pa va attrs
  | .mapL2Block pa va attrs => Mars.Paging.mapL2Block A tr h r pa va attrs
  | .unmapPage va           => Mars.Paging.unmapPage A tr h r va

/-- The call uses the addresses of tables only, accesses no table that is not alive, changes the
translation as it should and loses no table. -/
structure Call.Correct (A : TableAllocator X) (tr : AddressTranslator) (r : UInt64)
    (h : Heap AP SH X) (c : Call AP SH) : Prop where
  followed : ∀ e ∈ c.followed tr r h, e.isValid = true ∧ e.isTable = true
  result : Gives A (c.run A tr r h) fun h' =>
    (∀ va, h'.translate tr r va = c.apply (h.translate tr r) va) ∧ h'.NoneLost tr r

def runCalls (A : TableAllocator X) (tr : AddressTranslator) (r : UInt64) (h : Heap AP SH X) :
    List (Call AP SH) → Except Trap (Heap AP SH X)
  | []      => .ok h
  | c :: cs => do
    let h ← c.run A tr r h
    runCalls A tr r h cs

/-- A property of every call, in the state it is made in. -/
def Along (A : TableAllocator X) (tr : AddressTranslator) (r : UInt64)
    (P : Heap AP SH X → Call AP SH → Prop) : Heap AP SH X → List (Call AP SH) → Prop
  | _, []      => True
  | h, c :: cs => P h c ∧ ∀ h', c.run A tr r h = .ok h' → Along A tr r P h' cs

inductive BlockOp (AP SH : Type) where
  | call (c : Call AP SH)
  | mapRegion (pa va size : UInt64) (attrs : Attributes AP SH)
  | idMap (attrs : Attributes AP SH)

namespace BlockOp

def run (A : TableAllocator X) (tr : AddressTranslator) (r : UInt64) (h : Heap AP SH X) :
    BlockOp AP SH → Except Trap (Heap AP SH X)
  | .call c                     => c.run A tr r h
  | .mapRegion pa va size attrs => Mars.Paging.mapRegion A tr h r pa va size attrs
  | .idMap attrs                => Mars.Paging.idMap A tr h r attrs

/-- The calls of an operation whose assertions hold. -/
def calls : BlockOp AP SH → List (Call AP SH)
  | .call c                     => [c]
  | .mapRegion pa va size attrs =>
    (pagesOf size).map fun i => .mapPage (pageAfter pa i) (pageAfter va i) attrs
  | .idMap attrs                =>
    (List.range (2 ^ l1BlockShift / 2 ^ l2BlockShift)).map fun i =>
      .mapL2Block (UInt64.ofNat (i * 2 ^ l2BlockShift)) (UInt64.ofNat (i * 2 ^ l2BlockShift)) attrs

def Correct (A : TableAllocator X) (tr : AddressTranslator) (r : UInt64) (h : Heap AP SH X)
    (o : BlockOp AP SH) : Prop :=
  Along A tr r (fun h c => c.Correct A tr r h) h o.calls

def Clear (A : TableAllocator X) (tr : AddressTranslator) (r : UInt64) (h : Heap AP SH X)
    (o : BlockOp AP SH) : Prop :=
  Along A tr r (fun h c => c.Clear tr r h) h o.calls

end BlockOp

/-- Histories of operations that returned and did not mix pages and blocks. -/
inductive ClearRun (A : TableAllocator X) (tr : AddressTranslator) (r : UInt64) (x : X) :
    Heap AP SH X → Prop where
  | init : ClearRun A tr r x (Heap.init r x)
  | op {h h' : Heap AP SH X} (o : BlockOp AP SH) (hrun : ClearRun A tr r x h)
      (hclear : o.Clear A tr r h) (ho : o.run A tr r h = .ok h') : ClearRun A tr r x h'

/-! ### Operations are sequences of calls -/

lemma mapPages_eq_runCalls (pa va : UInt64) (attrs : Attributes AP SH) (l : List Nat) :
    mapPages A tr h r pa va attrs l =
      runCalls A tr r h (l.map fun i => .mapPage (pageAfter pa i) (pageAfter va i) attrs) := by
  induction l generalizing h with
  | nil => rfl
  | cons i l ih =>
    rw [mapPages, List.map_cons, runCalls]
    exact congrArg _ (funext fun h => ih)

lemma mapBlocks_eq_runCalls (attrs : Attributes AP SH) (l : List Nat) :
    mapBlocks A tr h r attrs l = runCalls A tr r h (l.map fun i =>
      .mapL2Block (UInt64.ofNat (i * 2 ^ l2BlockShift)) (UInt64.ofNat (i * 2 ^ l2BlockShift))
        attrs) := by
  induction l generalizing h with
  | nil => rfl
  | cons i l ih =>
    rw [mapBlocks, List.map_cons, runCalls]
    exact congrArg _ (funext fun h => ih)

/-- An operation that returns has made its calls. -/
lemma BlockOp.runCalls_of_run {o : BlockOp AP SH} (ho : o.run A tr r h = .ok h') :
    runCalls A tr r h o.calls = .ok h' := by
  cases o with
  | call c =>
    rw [run] at ho
    rw [calls, runCalls, ho]
    rfl
  | mapRegion pa va size attrs =>
    rw [run, Mars.Paging.mapRegion] at ho
    split_ifs at ho
    rw [mapPages_eq_runCalls] at ho
    exact ho
  | idMap attrs =>
    rw [run, Mars.Paging.idMap, mapBlocks_eq_runCalls] at ho
    exact ho

end Run

/-! ### The invariant -/

namespace Heap

/-- Blocks are in tables of level 2 only. -/
structure BlockInv (S : AllocatorSpec A tr) (r : UInt64) (h : Heap AP SH X) : Prop where
  tree : h.erase.Inv S r
  level : ∀ q j, q.length ≤ 3 → q.length ≠ 2 → h.blockAt tr r q j = none

lemma BlockInv.noneLost (hB : h.BlockInv S r) : h.NoneLost tr r := by
  intro t n hn
  obtain ⟨q, hq, hqt⟩ := hB.tree.tree.reached t _ (erase_tables_eq hn)
  exact ⟨q, hq, tableOn_eq.trans hqt⟩

/-- Without blocks of level 1 the translation is that of pages and blocks of level 2. -/
lemma BlockInv.translate_eq (hB : h.BlockInv S r) (va : UInt64) : h.translate tr r va =
    ((h.erase.entryAt tr r (pathOf va) (calculateIndex va 3)).map Tte.mapping).or
      ((h.blockAt tr r [calculateIndex va 0, calculateIndex va 1] (calculateIndex va 2)).map
        (·.blockMapping (2 ^ l2BlockShift) va)) := by
  rw [hB.tree.translate_eq va, hB.level [calculateIndex va 0] _ (by simp) (by simp),
    Option.map_none, Option.or_none]

variable {pa : UInt64} {attrs : Attributes AP SH}

/-- Pages have the same level 2 entry if their paths are the same. -/
lemma pathOf_eq_iff_slot (va va' : UInt64) : pathOf va = pathOf va' ↔
    [calculateIndex va 0, calculateIndex va 1] = [calculateIndex va' 0, calculateIndex va' 1] ∧
      calculateIndex va 2 = calculateIndex va' 2 := by
  simp only [pathOf, List.cons.injEq, and_true, and_assoc]

lemma MapsPage.blockInv (hB : h.BlockInv S r) (hmaps : h.MapsPage S r va e h') :
    h'.BlockInv S r ∧ ∀ q j, q.length ≤ 3 → h'.blockAt tr r q j = h.blockAt tr r q j := by
  have hblock : ∀ q j, q.length ≤ 3 → h'.blockAt tr r q j = h.blockAt tr r q j :=
    fun q j hq => blockAt_extends hB.tree hmaps.inv hmaps.extension (hmaps.block_eq hB.level) hq
  refine ⟨⟨hmaps.inv, ?_⟩, hblock⟩
  intro q j hq hne
  rw [hblock q j hq, hB.level q j hq hne]

lemma MapsBlock.blockInv (hB : h.BlockInv S r) (hmaps : h.MapsBlock S r va e h') :
    h'.BlockInv S r := by
  refine ⟨hmaps.inv, ?_⟩
  intro q j hq hne
  rw [hmaps.blockAt q j hq, if_neg, hB.level q j hq hne]
  rintro ⟨rfl, -⟩
  exact hne rfl

lemma UnmapsPage.blockInv (hB : h.BlockInv S r) (hunmaps : h.UnmapsPage S r va h') :
    h'.BlockInv S r ∧ ∀ q j, q.length ≤ 3 → h'.blockAt tr r q j = h.blockAt tr r q j := by
  have hblock : ∀ q j, q.length ≤ 3 → h'.blockAt tr r q j = h.blockAt tr r q j :=
    fun q j hq => blockAt_shrinks hB.tree hunmaps.inv hunmaps.shrinks hunmaps.block hq
  refine ⟨⟨hunmaps.inv, ?_⟩, hblock⟩
  intro q j hq hne
  rw [hblock q j hq, hB.level q j hq hne]

/-! ### Calls that do not mix pages and blocks -/

lemma MapsPage.translate_eq (hB : h.BlockInv S r)
    (hmaps : h.MapsPage S r va (pageEntry pa attrs) h') (va' : UInt64) :
    h'.translate tr r va' =
      if pageNumber va' = pageNumber va then some ⟨pa, attrs⟩ else h.translate tr r va' := by
  obtain ⟨hB', hblock⟩ := hmaps.blockInv hB
  rw [hB'.translate_eq, hB.translate_eq, hblock _ _ (by simp), hmaps.entryAt _ _ rfl]
  by_cases hpage : pageNumber va' = pageNumber va
  · rw [if_pos ((pathOf_eq_iff va' va).2 hpage), if_pos hpage, Option.map_some, pageEntry_mapping,
      Option.some_or]
  · rw [if_neg (mt (pathOf_eq_iff va' va).1 hpage), if_neg hpage]

lemma MapsBlock.translate_eq (hB : h.BlockInv S r)
    (hmaps : h.MapsBlock S r va (blockEntry pa attrs) h')
    (hclear : h.erase.tableAt tr r (pathOf va) = none) (va' : UInt64) :
    h'.translate tr r va' = if pathOf va' = pathOf va then
        some ((blockEntry pa attrs).blockMapping (2 ^ l2BlockShift) va')
      else h.translate tr r va' := by
  rw [(hmaps.blockInv hB).translate_eq, hB.translate_eq, hmaps.blockAt _ _ (by simp),
    hmaps.entryAt _ _ rfl]
  by_cases hslot : pathOf va' = pathOf va
  · rw [if_pos ((pathOf_eq_iff_slot va' va).1 hslot), if_pos hslot, hslot,
      entryAt_none (nodeAt_of_follow_none hclear)]
    rfl
  · rw [if_neg (mt (pathOf_eq_iff_slot va' va).2 hslot), if_neg hslot]

lemma UnmapsPage.translate_eq (hB : h.BlockInv S r) (hunmaps : h.UnmapsPage S r va h')
    (hclear : h.blockAt tr r [calculateIndex va 0, calculateIndex va 1] (calculateIndex va 2) =
      none) (va' : UInt64) :
    h'.translate tr r va' =
      if pageNumber va' = pageNumber va then none else h.translate tr r va' := by
  obtain ⟨hB', hblock⟩ := hunmaps.blockInv hB
  rw [hB'.translate_eq, hB.translate_eq, hblock _ _ (by simp), hunmaps.entryAt _ _ rfl]
  by_cases hpage : pageNumber va' = pageNumber va
  · have hpath := (pathOf_eq_iff va' va).2 hpage
    obtain ⟨hslot, hi⟩ := (pathOf_eq_iff_slot va' va).1 hpath.1
    rw [if_pos hpath, if_pos hpage, hslot, hi, hclear]
    rfl
  · rw [if_neg (mt (pathOf_eq_iff va' va).1 hpage), if_neg hpage]

end Heap

/-! ### The entries a call follows -/

namespace Heap

/-- The entry that leads to a table of the tree passes every test. -/
lemma Inv.entry_of_child (hI : h.erase.Inv S r) (hp : h.erase.tableAt tr r p = some t)
    (hpd : p.length < 3) (hpi : h.erase.tableAt tr r (p ++ [i]) = some u) :
    ∃ n, h.tables t = some n ∧ (n i).isValid = true ∧ (n i).isTable = true ∧
      hasTableAddress (n i) = true ∧ tr.physToDmap (n i).address = u := by
  obtain ⟨n, hn, hentries⟩ := hI.alive_erase hp hpd.le
  rw [tableAt, follow_snoc_of_node hp (erase_tables_eq hn), child_erase, Tte.tableChild] at hpi
  split_ifs at hpi with htable
  have hcoherent := hI.coherent p _ hpd hentries i
  rw [Bool.and_eq_true] at htable
  have herase := erase_of_not_block (isBlock_of_table htable.2)
  rw [herase] at hcoherent
  refine ⟨n, hn, htable.1, htable.2, ?_, Option.some.inj hpi⟩
  rw [hcoherent.hasTableAddress_eq, htable.1]

lemma follows_cons (hn : h.tables t = some n) (test : Tte AP SH → Bool) (i : Index)
    (rest : List ((Tte AP SH → Bool) × Index)) :
    h.follows tr t ((test, i) :: rest) =
      if test (n i) then n i :: h.follows tr (tr.physToDmap (n i).address) rest else [] := by
  simp only [follows, hn]

/-- If a test passes tables only, what it passes leads to a table of the tree. -/
lemma Inv.follows_step (hI : h.erase.Inv S r) (hp : h.erase.tableAt tr r p = some t)
    (hpd : p.length < 3) {test : Tte AP SH → Bool} {rest : List ((Tte AP SH → Bool) × Index)}
    (htest : ∀ n, h.tables t = some n → test (n i) = true →
      (n i).isValid = true ∧ (n i).isTable = true)
    (hrest : ∀ u, h.erase.tableAt tr r (p ++ [i]) = some u →
      ∀ e ∈ h.follows tr u rest, e.isValid = true ∧ e.isTable = true) :
    ∀ e ∈ h.follows tr t ((test, i) :: rest), e.isValid = true ∧ e.isTable = true := by
  obtain ⟨n, hn, -⟩ := hI.alive_erase hp hpd.le
  rw [follows_cons hn]
  split_ifs with hpass
  · obtain ⟨hv, ht⟩ := htest n hn hpass
    intro e he
    rcases List.mem_cons.1 he with rfl | he
    · exact ⟨hv, ht⟩
    · refine hrest _ ?_ e he
      rw [tableAt, follow_snoc_of_node hp (erase_tables_eq hn), child_erase,
        tableChild_of_table (by rw [hv, ht]; rfl)]
  · simp

/-- The test of the upper levels passes tables only. -/
lemma Inv.hasTableAddress_table (hI : h.erase.Inv S r) (hp : h.erase.tableAt tr r p = some t)
    (hpd : p.length < 3) (hn : h.tables t = some n) (hpass : hasTableAddress (n i) = true) :
    (n i).isValid = true ∧ (n i).isTable = true := by
  obtain ⟨m, hm, hentries⟩ := hI.alive_erase hp hpd.le
  obtain rfl : m = n := Option.some.inj (hm.symm.trans hn)
  have hcoherent := hI.coherent p _ hpd hentries i
  rw [← hasTableAddress_erase, hcoherent.hasTableAddress_eq, erase_isValid,
    Bool.and_eq_true] at hpass
  exact hpass

end Heap

lemma Call.Clear.followed (hB : h.BlockInv S r) {c : Call AP SH} (hclear : c.Clear tr r h) :
    ∀ e ∈ c.followed tr r h, e.isValid = true ∧ e.isTable = true := by
  have hI := hB.tree
  have hroot : h.erase.tableAt tr r [] = some r := rfl
  cases c with
  | mapPage pa va attrs =>
    refine hI.follows_step hroot (by simp) (fun n => hI.hasTableAddress_table hroot (by simp)) ?_
    intro l1 h1
    refine hI.follows_step h1 (by simp) (fun n => hI.hasTableAddress_table h1 (by simp)) ?_
    intro l2 h2
    refine hI.follows_step h2 (by simp) ?_ fun _ _ => nofun
    intro n hn hv
    refine ⟨hv, ?_⟩
    have hnone : h.block l2 (calculateIndex va 2) = none := (blockAt_eq h2).symm.trans hclear
    rw [block_eq hn, Tte.isBlock, hv] at hnone
    simpa using hnone
  | mapL2Block pa va attrs =>
    refine hI.follows_step hroot (by simp) (fun n => hI.hasTableAddress_table hroot (by simp)) ?_
    intro l1 h1
    exact hI.follows_step h1 (by simp) (fun n => hI.hasTableAddress_table h1 (by simp))
      fun _ _ => nofun
  | unmapPage va =>
    have htest : ∀ e : Tte AP SH, e.isTableEntry = true → e.isValid = true ∧ e.isTable = true := by
      intro e he
      rwa [Tte.isTableEntry, Bool.and_eq_true] at he
    refine hI.follows_step hroot (by simp) (fun n _ => htest (n _)) fun l1 h1 => ?_
    refine hI.follows_step h1 (by simp) (fun n _ => htest (n _)) fun l2 h2 => ?_
    exact hI.follows_step h2 (by simp) (fun n _ => htest (n _)) fun _ _ => nofun

lemma Heap.BlockInv.upper (hB : h.BlockInv S r) (q : List Index) (j : Index) (hq : q.length < 2) :
    h.blockAt tr r q j = none :=
  hB.level q j (by omega) (by omega)

/-- `map_page` takes the address of a block for that of a table. -/
lemma mapPage_follows_block (hB : h.BlockInv S r) {pa : UInt64} {attrs : Attributes AP SH}
    (he : h.blockAt tr r [calculateIndex va 0, calculateIndex va 1] (calculateIndex va 2) =
      some e) : e ∈ (Call.mapPage pa va attrs).followed tr r h := by
  have hI := hB.tree
  have hroot : h.erase.tableAt tr r [] = some r := rfl
  cases h2 : h.erase.tableAt tr r [calculateIndex va 0, calculateIndex va 1] with
  | none =>
    rw [blockAt_of_none h2] at he
    cases he
  | some l2 =>
    obtain ⟨l1, h1⟩ := tableAt_of_prefix (p := [calculateIndex va 0]) ⟨[_], rfl⟩ h2
    obtain ⟨n0, hn0, -, -, hpass0, rfl⟩ := hI.entry_of_child hroot (by simp) h1
    obtain ⟨n1, hn1, -, -, hpass1, rfl⟩ := hI.entry_of_child h1 (by simp) h2
    obtain ⟨n2, hn2, -⟩ := hI.alive_erase h2 (by simp)
    rw [blockAt_eq h2, block_eq hn2] at he
    split_ifs at he with hblock
    rw [Tte.isBlock, Bool.and_eq_true] at hblock
    rw [Call.followed, follows_cons hn0, if_pos hpass0, follows_cons hn1, if_pos hpass1,
      follows_cons hn2, if_pos hblock.1, ← Option.some.inj he]
    simp

/-! ### Calls -/

section Calls

variable [Inhabited AP] [Inhabited SH] {c : Call AP SH}

/-- What a call that does not mix pages and blocks does. -/
lemma Call.Clear.spec (hB : h.BlockInv S r) (hclear : c.Clear tr r h) :
    Gives A (c.run A tr r h) fun h' => h'.BlockInv S r ∧
      ∀ va, h'.translate tr r va = c.apply (h.translate tr r) va := by
  cases c with
  | mapPage pa va attrs =>
    refine (mapPage_block_spec hB.tree pa va attrs hclear).mono fun h' hmaps => ?_
    exact ⟨(hmaps.blockInv hB).1, hmaps.translate_eq hB⟩
  | mapL2Block pa va attrs =>
    have hnone := tableOn_eq.symm.trans hclear
    refine (mapL2Block_spec hB.tree pa va attrs hB.upper hnone).mono fun h' hmaps => ?_
    exact ⟨hmaps.blockInv hB, hmaps.translate_eq hB hnone⟩
  | unmapPage va =>
    obtain ⟨h', hok, hunmaps⟩ := unmapPage_block_spec (A := A) hB.tree va
      (hB.level _ _ (by simp [pathOf]) (by simp [pathOf]))
    rw [Call.run, hok]
    exact ⟨(hunmaps.blockInv hB).1, hunmaps.translate_eq hB hclear⟩

lemma Call.Clear.correct (hB : h.BlockInv S r) (hclear : c.Clear tr r h) : c.Correct A tr r h :=
  ⟨hclear.followed hB, (hclear.spec hB).mono fun _ hspec => ⟨hspec.2, hspec.1.noneLost⟩⟩

/-- `map_l2_block` drops a level 3 table that is in its way. -/
lemma mapL2Block_loses (hB : h.BlockInv S r) (pa : UInt64) (attrs : Attributes AP SH)
    (hu : h.erase.tableAt tr r (pathOf va) = some u) :
    ∃ h', mapL2Block A tr h r pa va attrs = .ok h' ∧ ¬ h'.NoneLost tr r := by
  have hI := hB.tree
  have hroot : h.erase.tableAt tr r [] = some r := rfl
  obtain ⟨l1, h1⟩ := tableAt_of_prefix (p := [calculateIndex va 0]) ⟨[_, _], rfl⟩ hu
  obtain ⟨l2, h2⟩ := tableAt_of_prefix
    (p := [calculateIndex va 0, calculateIndex va 1]) ⟨[_], rfl⟩ hu
  obtain ⟨n0, hn0, -, -, hpass0, rfl⟩ := hI.entry_of_child hroot (by simp) h1
  obtain ⟨n1, hn1, -, -, hpass1, rfl⟩ := hI.entry_of_child h1 (by simp) h2
  obtain ⟨n2, hn2, -⟩ := hI.alive_erase h2 (by simp)
  have hok : mapL2Block A tr h r pa va attrs = .ok (h.put (tr.physToDmap
      (n1 (calculateIndex va 1)).address) (calculateIndex va 2) (blockEntry pa attrs)) := by
    simp only [mapL2Block, childTable, readEntry_eq hn0, readEntry_eq hn1, bind,
      Except.bind, hpass0, hpass1, if_true]
    exact writeEntry_eq hn2 _ _
  refine ⟨_, hok, ?_⟩
  intro hlost
  obtain ⟨m, hm, -⟩ := hI.alive_erase hu (by simp [pathOf])
  have halive : (setEntry h.tables (tr.physToDmap (n1 (calculateIndex va 1)).address)
      (calculateIndex va 2) (blockEntry pa attrs) u).isSome := by
    rw [setEntry_isSome, hm]
    rfl
  obtain ⟨m', hm'⟩ := Option.isSome_iff_exists.1 halive
  obtain ⟨q, hq, hqu⟩ := hlost u m' hm'
  rw [tableOn_eq, put_erase] at hqu
  exact hI.tree.follow_setEntry_ne h2 (by simp) hu (child_of_not_valid rfl) hq hqu

lemma Call.Correct.clear (hB : h.BlockInv S r) (hcorrect : c.Correct A tr r h) :
    c.Clear tr r h := by
  cases c with
  | mapPage pa va attrs =>
    rw [Call.Clear, Option.eq_none_iff_forall_ne_some]
    intro e he
    have htable := (hcorrect.followed e (mapPage_follows_block hB he)).2
    obtain ⟨t, -, hblock⟩ := Option.bind_eq_some_iff.1 he
    obtain ⟨n, -, hblock⟩ := Option.bind_eq_some_iff.1 hblock
    split_ifs at hblock with hn
    rw [Option.some.inj hblock, isBlock_of_table htable] at hn
    cases hn
  | mapL2Block pa va attrs =>
    rw [Call.Clear, tableOn_eq, Option.eq_none_iff_forall_ne_some]
    intro u hu
    obtain ⟨h', hok, hlost⟩ := mapL2Block_loses (A := A) hB pa attrs hu
    have hresult := hcorrect.result
    rw [Call.run, hok] at hresult
    exact hlost hresult.2
  | unmapPage va =>
    rw [Call.Clear, Option.eq_none_iff_forall_ne_some]
    intro e he
    obtain ⟨h', hok, hunmaps⟩ := unmapPage_block_spec (A := A) hB.tree va
      (hB.level _ _ (by simp [pathOf]) (by simp [pathOf]))
    have hresult := hcorrect.result
    rw [Call.run, hok] at hresult
    have hnone := hresult.1 va
    obtain ⟨hB', hblock⟩ := hunmaps.blockInv hB
    rw [Call.apply, if_pos rfl, hB'.translate_eq, hblock _ _ (by simp), he] at hnone
    simp at hnone

/-! ### Operations -/

/-- A property that holds of a call exactly if another one does, as long as an invariant holds,
also does along a sequence of calls. -/
lemma along_iff {P Q : Heap AP SH X → Call AP SH → Prop}
    (hPQ : ∀ h c, h.BlockInv S r → (P h c ↔ Q h c))
    (hinv : ∀ h c h', h.BlockInv S r → Q h c → c.run A tr r h = .ok h' → h'.BlockInv S r)
    (hB : h.BlockInv S r) (cs : List (Call AP SH)) : Along A tr r P h cs ↔ Along A tr r Q h cs := by
  induction cs generalizing h with
  | nil => rfl
  | cons c cs ih =>
    rw [Along, Along, hPQ h c hB]
    refine and_congr_right fun hQ => forall₂_congr fun h' hok => ?_
    exact ih (hinv h c h' hB hQ hok)

lemma Call.Clear.blockInv (hB : h.BlockInv S r) (hclear : c.Clear tr r h)
    (hok : c.run A tr r h = .ok h') : h'.BlockInv S r := by
  have hspec := hclear.spec (A := A) hB
  rw [hok] at hspec
  exact hspec.1

lemma Heap.BlockInv.runCalls (hB : h.BlockInv S r) {cs : List (Call AP SH)}
    (hclear : Along A tr r (fun h c => c.Clear tr r h) h cs)
    (hok : runCalls A tr r h cs = .ok h') : h'.BlockInv S r := by
  induction cs generalizing h with
  | nil =>
    cases hok
    exact hB
  | cons c cs ih =>
    obtain ⟨h₁, hok₁, hok⟩ := ok_of_bind hok
    exact ih (hclear.1.blockInv hB hok₁) (hclear.2 h₁ hok₁) hok

lemma Heap.block_init (t : UInt64) (i : Index) :
    (Heap.init r x : Heap AP SH X).block t i = none := by
  by_cases ht : t = r
  · have hn : (Heap.init r x : Heap AP SH X).tables t = some TTable.new := by
      simp only [ht, Heap.init, Function.update_self]
    rw [block_eq hn]
    rfl
  · refine block_of_none ?_
    simp only [Heap.init, Function.update_of_ne ht]

lemma blockInv_init (hr : S.live x r) : (Heap.init r x : Heap AP SH X).BlockInv S r := by
  refine ⟨?_, ?_⟩
  · rw [erase_eq_self block_init]
    exact (represents_init hr).inv
  · intro q j _ _
    rw [Heap.blockAt, Option.bind_eq_none_iff]
    exact fun t _ => block_init t j

lemma ClearRun.blockInv (hr : S.live x r) (hrun : ClearRun A tr r x h) : h.BlockInv S r := by
  induction hrun with
  | init => exact blockInv_init hr
  | op o _ hclear ho ih => exact ih.runCalls hclear (BlockOp.runCalls_of_run ho)

/-- After any operations that do not mix pages and blocks, the next operation is correct exactly
if it does not mix them either. -/
theorem ClearRun.correct_iff (S : AllocatorSpec A tr) (hr : S.live x r)
    (hrun : ClearRun A tr r x h) (o : BlockOp AP SH) : o.Correct A tr r h ↔ o.Clear A tr r h :=
  along_iff (fun _ _ hB => ⟨fun hcorrect => hcorrect.clear hB, fun hclear => hclear.correct hB⟩)
    (fun _ _ _ hB hclear hok => hclear.blockInv hB hok) (hrun.blockInv hr) o.calls

end Calls

/-! ### A small machine -/

def sampleAttrs : Attributes Bool Bool := ⟨true, true, false, false, 1⟩

/-- A block of memory at 32 MiB is mapped to the same address. The address of the block is no
table's, and `map_page` writes to it as if it were. `unmap_page` leaves the block mapped. If a
page was mapped there first, `map_l2_block` drops the third of its tables. -/
theorem pages_and_blocks_mixed :
    (∃ h : Heap Bool Bool Nat,
      ClearRun bumpAllocator identity 0x4000 0 h ∧
      mapPage bumpAllocator identity h 0x4000 0x80000 0x2004000 sampleAttrs = .error .badTable ∧
      unmapPage bumpAllocator identity h 0x4000 0x2004000 = .ok h ∧
      h.translate identity 0x4000 0x2004000 = some ⟨0x2004000, sampleAttrs⟩) ∧
    ∃ h h' : Heap Bool Bool Nat,
      ClearRun bumpAllocator identity 0x4000 0 h ∧
      mapL2Block bumpAllocator identity h 0x4000 0x2000000 0x2000000 sampleAttrs = .ok h' ∧
      ¬ h'.NoneLost identity 0x4000 := by
  have hnotable : (Heap.init 0x4000 0 : Heap Bool Bool Nat).tableOn identity 0x4000
      (pathOf 0x2000000) = none := by decide +kernel
  have hnoblock : (Heap.init 0x4000 0 : Heap Bool Bool Nat).blockAt identity 0x4000
      [calculateIndex 0x2000000 0, calculateIndex 0x2000000 1] (calculateIndex 0x2000000 2) =
      none := by decide +kernel
  have hroot : bumpSpec.live 0 0x4000 := Nat.le_refl _
  constructor
  · refine ⟨_, .op (.call (.mapL2Block 0x2000000 0x2000000 sampleAttrs)) .init
      ⟨hnotable, fun _ _ => trivial⟩ rfl, ?_, ?_, ?_⟩
    · rfl
    · rfl
    · decide +kernel
  · have hrun : ∃ h : Heap Bool Bool Nat, ClearRun bumpAllocator identity 0x4000 0 h ∧
        h.erase.tableAt identity 0x4000 (pathOf 0x2000000) = some 0x10000 :=
      ⟨_, .op (.call (.mapPage 0x80000 0x2000000 sampleAttrs)) .init
        ⟨hnoblock, fun _ _ => trivial⟩ rfl, by decide +kernel⟩
    obtain ⟨h, hrun, hu⟩ := hrun
    obtain ⟨h', hok, hlost⟩ := mapL2Block_loses (A := bumpAllocator) (hrun.blockInv hroot)
      0x2000000 sampleAttrs hu
    exact ⟨h, h', hrun, hok, hlost⟩

/-- Beside a block, `map_page` and `map_region` are correct. -/
theorem correct_beside_block : ∃ h : Heap Bool Bool Nat,
    ClearRun bumpAllocator identity 0x4000 0 h ∧
    h.translate identity 0x4000 0x2004000 = some ⟨0x2004000, sampleAttrs⟩ ∧
    BlockOp.Correct bumpAllocator identity 0x4000 h (.mapRegion 0x80000 0x4000000 0x4000
      sampleAttrs) := by
  have hnotable : (Heap.init 0x4000 0 : Heap Bool Bool Nat).tableOn identity 0x4000
      (pathOf 0x2000000) = none := by decide +kernel
  have hroot : bumpSpec.live 0 0x4000 := Nat.le_refl _
  have hrun : ∃ h : Heap Bool Bool Nat, ClearRun bumpAllocator identity 0x4000 0 h ∧
      h.translate identity 0x4000 0x2004000 = some ⟨0x2004000, sampleAttrs⟩ ∧
      h.blockAt identity 0x4000 [calculateIndex 0x4000000 0, calculateIndex 0x4000000 1]
        (calculateIndex 0x4000000 2) = none :=
    ⟨_, .op (.call (.mapL2Block 0x2000000 0x2000000 sampleAttrs)) .init
      ⟨hnotable, fun _ _ => trivial⟩ rfl, by decide +kernel, by decide +kernel⟩
  obtain ⟨h, hrun, htranslate, hclear⟩ := hrun
  refine ⟨h, hrun, htranslate, (ClearRun.correct_iff bumpSpec hroot hrun _).2 ?_⟩
  exact ⟨hclear, fun _ _ => trivial⟩

end Mars.Paging
