import Mars.Paging.Invariant

/-!
# Block mappings

Embedding of `map_l2_block` and `id_map` of `klib/src/pm/page/mapper.rs`. An entry of a level 2
table that is valid and not a table maps a block of 32 MiB. To the tables a block is as good as an
invalid entry: `Heap.erase` replaces blocks by invalid entries, and what was shown of trees without
blocks then holds of what is left.
-/

namespace Mars.Paging

open Function Lib.NodeTree Tte

variable {AP SH X : Type} {A : TableAllocator X} {tr : AddressTranslator}

/-! ### The code -/

/-- The level 2 entry that maps a block. Every field is set. -/
def blockEntry (pa : UInt64) (attrs : Attributes AP SH) : Tte AP SH :=
  { pageEntry pa attrs with isTable := false }

section Mapper

variable [Inhabited AP] [Inhabited SH] (A : TableAllocator X) (tr : AddressTranslator)

def mapL2Block (h : Heap AP SH X) (root pa va : UInt64) (attrs : Attributes AP SH) :
    Except Trap (Heap AP SH X) := do
  let (l1, h) ← childTable A tr hasTableAddress h root (calculateIndex va 0)
  let (l2, h) ← childTable A tr hasTableAddress h l1 (calculateIndex va 1)
  h.writeEntry l2 (calculateIndex va 2) (blockEntry pa attrs)

def l2BlockShift : Nat := 25

def l1BlockShift : Nat := 36

/-- The loop of `id_map` over the blocks that are left. -/
def mapBlocks (h : Heap AP SH X) (root : UInt64) (attrs : Attributes AP SH) :
    List Nat → Except Trap (Heap AP SH X)
  | []      => .ok h
  | i :: is => do
    let currentAddr := UInt64.ofNat (i * 2 ^ l2BlockShift)
    let h ← mapL2Block A tr h root currentAddr currentAddr attrs
    mapBlocks h root attrs is

def idMap (h : Heap AP SH X) (root : UInt64) (attrs : Attributes AP SH) :
    Except Trap (Heap AP SH X) :=
  mapBlocks A tr h root attrs (List.range (2 ^ l1BlockShift / 2 ^ l2BlockShift))

end Mapper

/-! ### Translation with blocks -/

/-- An entry that maps a block, in a table of level 1 or 2. -/
def Tte.isBlock (e : Tte AP SH) : Bool := e.isValid && !e.isTable

/-- The page of a block of the given size that `va` is in. -/
def Tte.blockMapping (e : Tte AP SH) (size : Nat) (va : UInt64) : Mapping AP SH :=
  { e.mapping with
    pa := e.address + UInt64.ofNat (va.toNat % size / 2 ^ pageShift * 2 ^ pageShift) }

namespace Heap

/-- The entry that the memory management unit finds, where it is valid. -/
def present (h : Heap AP SH X) (t : UInt64) (i : Index) : Option (Tte AP SH) :=
  (h.tables t).bind fun n => (n i).valid?

/-- The translation by the memory management unit, which ends at blocks. -/
def translate (tr : AddressTranslator) (h : Heap AP SH X) (root va : UInt64) :
    Option (Mapping AP SH) :=
  (h.present root (calculateIndex va 0)).bind fun e0 =>
    if e0.isTable then
      (h.present (tr.physToDmap e0.address) (calculateIndex va 1)).bind fun e1 =>
        if e1.isTable then
          (h.present (tr.physToDmap e1.address) (calculateIndex va 2)).bind fun e2 =>
            if e2.isTable then
              (h.present (tr.physToDmap e2.address) (calculateIndex va 3)).bind fun e3 =>
                if e3.isTable then some e3.mapping else none
            else some (e2.blockMapping (2 ^ l2BlockShift) va)
        else some (e1.blockMapping (2 ^ l1BlockShift) va)
    else none

end Heap

/-- The table that an entry leads to, if it is one for a table. -/
def Tte.tableChild (tr : AddressTranslator) (e : Tte AP SH) : Option UInt64 :=
  if e.isValid && e.isTable then some (tr.physToDmap e.address) else none

namespace Heap

/-- The table at the end of a path of table entries. -/
abbrev tableOn (tr : AddressTranslator) (h : Heap AP SH X) (r : UInt64) (p : List Index) :
    Option UInt64 :=
  follow (Tte.tableChild tr) h.tables r p

/-- The entry of a table, if it maps a block. -/
def block (h : Heap AP SH X) (t : UInt64) (i : Index) : Option (Tte AP SH) :=
  (h.tables t).bind fun n => if (n i).isBlock then some (n i) else none

/-- The block behind the entry `i` of the table at the end of a path. -/
def blockAt (tr : AddressTranslator) (h : Heap AP SH X) (r : UInt64) (p : List Index) (i : Index) :
    Option (Tte AP SH) :=
  (h.tableOn tr r p).bind fun t => h.block t i

end Heap

/-! ### Erasing blocks -/

/-- Blocks become invalid entries. -/
def Tte.erase (e : Tte AP SH) : Tte AP SH := if e.isBlock then e.clear else e

section Entries

variable {e : Tte AP SH}

lemma Tte.erase_of_block (he : e.isBlock = true) : e.erase = e.clear := if_pos he

lemma Tte.erase_of_not_block (he : e.isBlock = false) : e.erase = e := by
  rw [Tte.erase, he]
  rfl

lemma Tte.isBlock_of_not_valid (he : e.isValid = false) : e.isBlock = false := by
  rw [Tte.isBlock, he]
  rfl

lemma Tte.isBlock_of_table (he : e.isTable = true) : e.isBlock = false := by
  rw [Tte.isBlock, he, Bool.not_true, Bool.and_false]

lemma Tte.erase_isValid : e.erase.isValid = (e.isValid && e.isTable) := by
  rw [Tte.erase]
  split_ifs with he
  · rw [Tte.isBlock, Bool.and_eq_true, Bool.not_eq_true'] at he
    simp [Tte.clear, he]
  · cases hv : e.isValid
    · rfl
    · simpa [Tte.isBlock, hv] using he

/-- An erased entry leads to a table if the entry does. -/
lemma Tte.child_erase : e.erase.child tr = e.tableChild tr := by
  rw [Tte.child, erase_isValid, Tte.tableChild]
  split_ifs with he
  · rw [Bool.and_eq_true] at he
    rw [erase_of_not_block (isBlock_of_table he.2)]
  · rfl

lemma Tte.erase_clear : e.clear.erase = e.clear :=
  erase_of_not_block (isBlock_of_not_valid rfl)

lemma Tte.erase_linkTo (pa : UInt64) : (e.linkTo pa).erase = e.linkTo pa :=
  erase_of_not_block (isBlock_of_table rfl)

lemma pageEntry_erase (pa : UInt64) (attrs : Attributes AP SH) :
    (pageEntry pa attrs).erase = pageEntry pa attrs :=
  erase_of_not_block (isBlock_of_table rfl)

lemma blockEntry_isBlock (pa : UInt64) (attrs : Attributes AP SH) :
    (blockEntry pa attrs).isBlock = true := rfl

/-- The test for a table at levels 0 and 1 does not see blocks. -/
lemma hasTableAddress_erase : hasTableAddress e.erase = hasTableAddress e := by
  rw [Tte.erase]
  split_ifs with he
  · rw [Tte.isBlock, Bool.and_eq_true, Bool.not_eq_true'] at he
    simp [hasTableAddress, Tte.clear, he.2]
  · rfl

end Entries

namespace Heap

def erase (h : Heap AP SH X) : Heap AP SH X :=
  { h with tables := fun t => (h.tables t).map fun n i => (n i).erase }

variable {h h' : Heap AP SH X} {r t u : UInt64} {p q : List Index} {i j : Index}
  {n m : TTable AP SH} {e : Tte AP SH} {x : X}

lemma erase_tables_eq (hn : h.tables t = some n) :
    h.erase.tables t = some fun i => (n i).erase := by
  rw [erase]
  simp only [hn, Option.map_some]

lemma erase_tables_none : h.erase.tables t = none ↔ h.tables t = none := Option.map_eq_none_iff

/-- The tables of a heap are those of its erasure. -/
lemma tableOn_eq : h.tableOn tr r p = h.erase.tableAt tr r p := by
  induction p generalizing r with
  | nil => rfl
  | cons i p ih =>
    rw [tableOn, tableAt, follow, follow]
    cases hn : h.tables r with
    | none => rw [erase_tables_none.2 hn]; rfl
    | some n =>
      rw [erase_tables_eq hn, Option.bind_some, Option.bind_some, child_erase]
      exact Option.bind_congr fun c _ => ih

/-- Erase the blocks of a memory. -/
private abbrev eraseTables (tables : Nodes UInt64 Index (Tte AP SH)) :
    Nodes UInt64 Index (Tte AP SH) :=
  fun t => (tables t).map fun n i => (n i).erase

lemma eraseTables_setEntry (tables : Nodes UInt64 Index (Tte AP SH)) (e : Tte AP SH) :
    eraseTables (setEntry tables t i e) = setEntry (eraseTables tables) t i e.erase := by
  funext t'
  by_cases ht : t' = t
  · subst ht
    rw [eraseTables, setEntry, setEntry, update_self, update_self, Option.map_map, Option.map_map]
    refine Option.map_congr fun n _ => ?_
    funext j
    by_cases hj : j = i
    · subst hj
      simp
    · simp [hj]
  · rw [eraseTables, setEntry_of_ne ht, setEntry_of_ne ht]

lemma eraseTables_update (tables : Nodes UInt64 Index (Tte AP SH)) (y : Option (TTable AP SH)) :
    eraseTables (update tables u y) =
      update (eraseTables tables) u (y.map fun n i => (n i).erase) := by
  funext t
  by_cases ht : t = u
  · subst ht
    rw [eraseTables, update_self, update_self]
  · rw [eraseTables, update_of_ne ht, update_of_ne ht]

lemma put_erase : (h.put t i e).erase = h.erase.put t i e.erase :=
  congrArg (fun tables => (⟨tables, h.log, h.allocator⟩ : Heap AP SH X)) (eraseTables_setEntry _ e)

lemma link_erase [Inhabited AP] [Inhabited SH] :
    (h.link t i e u x).erase = h.erase.link t i e.erase u x := by
  have hnew : ((some TTable.new : Option (TTable AP SH)).map fun n i => (n i).erase) =
      some TTable.new := rfl
  have htables := eraseTables_setEntry (t := t) (i := i)
    (update h.tables u (some TTable.new)) e
  rw [eraseTables_update, hnew] at htables
  exact congrArg (fun tables => (⟨tables, h.log ++ [.alloc u], x⟩ : Heap AP SH X)) htables

lemma unlink_erase : (h.unlink t i e u x).erase = h.erase.unlink t i e u x := by
  have htables := eraseTables_setEntry (t := t) (i := i) (update h.tables u none) e.clear
  rw [eraseTables_update, Option.map_none, erase_clear] at htables
  exact congrArg (fun tables => (⟨tables, h.log ++ [.free u], x⟩ : Heap AP SH X)) htables

/-! ### Blocks after an edit -/

lemma block_eq (hn : h.tables t = some n) :
    h.block t i = if (n i).isBlock then some (n i) else none := by
  rw [block, hn, Option.bind_some]

lemma block_of_none (hn : h.tables t = none) : h.block t i = none := by
  rw [block, hn]
  rfl

lemma erase_eq_self (hnone : ∀ t i, h.block t i = none) : h.erase = h := by
  have htables : (fun t => (h.tables t).map fun n i => (n i).erase) = h.tables := by
    funext t
    cases hn : h.tables t with
    | none => rfl
    | some n =>
      rw [Option.map_some, Option.some.injEq]
      funext i
      refine erase_of_not_block ?_
      have hblock := hnone t i
      rw [block_eq hn] at hblock
      simpa using hblock
  rw [erase, htables]

lemma block_congr (htables : h'.tables t = h.tables t) : h'.block t i = h.block t i := by
  rw [block, block, htables]

lemma block_put (hn : h.tables t = some n) : (h.put t i e).block u j =
    if u = t ∧ j = i then if e.isBlock then some e else none else h.block u j := by
  by_cases hu : u = t
  · subst hu
    rw [block_eq (setEntry_self hn), block_eq hn]
    by_cases hj : j = i
    · subst hj
      simp
    · simp [hj]
  · rw [if_neg fun hc => hu hc.1]
    exact block_congr (setEntry_of_ne hu)

/-- Hanging a new table into an entry hides the block that was there, and no other. -/
lemma block_link [Inhabited AP] [Inhabited SH] (hn : h.tables t = some n) (hu : h.tables u = none)
    (he : e.isBlock = false) {v : UInt64} : (h.link t i e u x).block v j =
      if v = t ∧ j = i then none else h.block v j := by
  have htu : t ≠ u := by
    rintro rfl
    rw [hu] at hn
    cases hn
  by_cases hv : v = t
  · subst hv
    rw [block_eq (graft_self hn htu _), block_eq hn]
    by_cases hj : j = i
    · subst hj
      simp [he]
    · simp [hj]
  · rw [if_neg fun hc => hv hc.1]
    by_cases hvu : v = u
    · subst hvu
      rw [block_of_none hu, block_eq (graft_node htu _)]
      rfl
    · exact block_congr (graft_of_ne hv hvu _)

/-- Taking a table without blocks out hides no block but the one in the entry above. -/
lemma block_unlink (hn : h.tables t = some n) (htu : t ≠ u) (hu : ∀ j, h.block u j = none)
    (hi : h.block t i = none) {v : UInt64} : (h.unlink t i e u x).block v j = h.block v j := by
  by_cases hv : v = t
  · subst hv
    by_cases hj : j = i
    · subst hj
      rw [hi, block_eq (graft_self hn htu _)]
      simp [isBlock_of_not_valid, Tte.clear]
    · rw [block_eq (graft_self hn htu _), block_eq hn, update_of_ne hj]
  · by_cases hvu : v = u
    · subst hvu
      rw [hu, block_of_none (graft_node htu _)]
    · exact block_congr (graft_of_ne hv hvu _)

end Heap

end Mars.Paging
