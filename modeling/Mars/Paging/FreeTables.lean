import Mars.Paging.TableEntries

/-!
# Freeing a tree of tables

Embedding of `free_tables`. It visits the tree of tables in postorder: every table is passed to
`free_table` once, after the tables below it, and it is not read again. Blocks and pages are left
alone. The root loop looks at two entries only, which are all that the mapper uses.
-/

namespace Mars.Paging

open Function Lib.NodeTree Heap

variable {AP SH X : Type} {A : TableAllocator X} {tr : AddressTranslator}

/-! ### The code -/

section Code

variable (A : TableAllocator X) (tr : AddressTranslator)

/-- The loop over the entries of a level 3 table. Only `is_valid` is set. -/
def invalidatePages (h : Heap AP SH X) (t : UInt64) : List Index → Except Trap (Heap AP SH X)
  | []      => .ok h
  | i :: is => do
    let e ← h.readEntry t i
    if !e.isValid || !e.isTable then invalidatePages h t is
    else
      let h ← h.writeEntry t i { e with isValid := false }
      invalidatePages h t is

/-- The loop over the entries of a table of another level, with what is done to the tables below. -/
def freeEntries (next : Heap AP SH X → UInt64 → Except Trap (Heap AP SH X)) (h : Heap AP SH X)
    (t : UInt64) : List Index → Except Trap (Heap AP SH X)
  | []      => .ok h
  | i :: is => do
    let e ← h.readEntry t i
    if !e.isValid || !e.isTable then freeEntries next h t is
    else
      let h ← next h (tr.physToDmap e.address)
      freeEntries next h t is

/-- What the loops do to a table that has `level` more levels of tables below it. -/
def freeBelow : Nat → Heap AP SH X → UInt64 → Except Trap (Heap AP SH X)
  | 0, h, t         => do
    let h ← invalidatePages h t (List.finRange 2048)
    h.freeTable A t
  | level + 1, h, t => do
    let h ← freeEntries tr (freeBelow level) h t (List.finRange 2048)
    h.freeTable A t

def freeTables (h : Heap AP SH X) (root : UInt64) : Except Trap (Heap AP SH X) := do
  let h ← freeEntries tr (freeBelow A tr 2) h root [0, 1]
  h.freeTable A root

end Code

variable {S : AllocatorSpec A tr} {h h₀ h₁ h₂ h' : Heap AP SH X} {r t u : UInt64}
  {p q : List Index} {i j : Index} {n m : TTable AP SH} {l l₁ l₂ : List UInt64} {x : X}

/-! ### Freeing a list of tables -/

/-- The tables in `l` were passed to `free_table`, one after the other, and nothing else has
changed. -/
structure Heap.Frees (S : AllocatorSpec A tr) (l : List UInt64) (h h' : Heap AP SH X) : Prop where
  tables : ∀ t, h'.tables t = if t ∈ l then none else h.tables t
  log : h'.log = h.log ++ l.map .free
  live : ∀ t, t ∉ l → S.live h.allocator t → S.live h'.allocator t

/-- The tables in `l` are as they were, and in use. -/
def Heap.Intact (S : AllocatorSpec A tr) (l : List UInt64) (h₀ h : Heap AP SH X) : Prop :=
  ∀ t ∈ l, h.tables t = h₀.tables t ∧ S.live h.allocator t

lemma Heap.Frees.refl (h : Heap AP SH X) : h.Frees S [] h :=
  ⟨fun t => by simp, by simp, fun _ _ => id⟩

lemma Heap.Frees.trans (h₁₂ : h.Frees S l₁ h₁) (h₂₃ : h₁.Frees S l₂ h₂) :
    h.Frees S (l₁ ++ l₂) h₂ := by
  refine ⟨?_, ?_, ?_⟩
  · intro t
    rw [h₂₃.tables, h₁₂.tables]
    by_cases ht₂ : t ∈ l₂
    · simp [ht₂]
    · simp [ht₂]
  · rw [h₂₃.log, h₁₂.log, List.map_append, List.append_assoc]
  · intro t ht hlive
    rw [List.mem_append, not_or] at ht
    exact h₂₃.live t ht.2 (h₁₂.live t ht.1 hlive)

lemma Heap.Frees.intact (hfrees : h.Frees S l₁ h₁) (hintact : h₀.Intact S l₂ h)
    (hdisj : List.Disjoint l₁ l₂) : h₀.Intact S l₂ h₁ := by
  intro t ht
  obtain ⟨htables, hlive⟩ := hintact t ht
  have hnot : t ∉ l₁ := fun ht₁ => hdisj ht₁ ht
  exact ⟨by rw [hfrees.tables, if_neg hnot, htables], hfrees.live t hnot hlive⟩

lemma Heap.Intact.mono (hintact : h₀.Intact S l₂ h) (hsub : ∀ t ∈ l₁, t ∈ l₂) : h₀.Intact S l₁ h :=
  fun t ht => hintact t (hsub t ht)

lemma freeTable_spec (hn : h.tables t = some n) (hlive : S.live h.allocator t) :
    ∃ h', h.freeTable A t = .ok h' ∧ h.Frees S [t] h' := by
  obtain ⟨x, hx⟩ := S.free_ok _ _ hlive
  rw [Heap.freeTable, hn]
  simp only [hx, bind, Except.bind]
  refine ⟨_, rfl, ?_, rfl, ?_⟩
  · intro u
    by_cases hu : u = t
    · simp [hu]
    · simp [hu]
  · intro u hu hlive'
    exact S.live_free _ _ _ hx u (by simpa using hu) hlive'

/-! ### The loops -/

/-- The loop over pages reads and writes the level 3 table only. -/
lemma invalidatePages_spec (hn : h.tables t = some n) (is : List Index) :
    ∃ m, invalidatePages h t is = .ok { h with tables := update h.tables t (some m) } := by
  induction is generalizing h n with
  | nil =>
    refine ⟨n, ?_⟩
    rw [invalidatePages, ← hn, update_eq_self]
  | cons i is ih =>
    rw [invalidatePages, readEntry_eq hn]
    simp only [bind, Except.bind]
    split_ifs
    · exact ih hn
    · rw [writeEntry_eq hn]
      obtain ⟨m, hm⟩ := ih (h := h.put t i { n i with isValid := false }) (setEntry_self hn)
      refine ⟨m, hm.trans ?_⟩
      rw [Heap.put, setEntry, update_idem]

lemma freeBelow_zero_spec (hn : h.tables t = some n) (hlive : S.live h.allocator t) :
    ∃ h', freeBelow A tr 0 h t = .ok h' ∧ h.Frees S [t] h' := by
  obtain ⟨m, hm⟩ := invalidatePages_spec hn (List.finRange 2048)
  obtain ⟨h', hok, hfrees⟩ := freeTable_spec (S := S) (n := m)
    (h := { h with tables := update h.tables t (some m) })
    (update_self ..) hlive
  refine ⟨h', ?_, ?_, hfrees.log, hfrees.live⟩
  · rw [freeBelow, hm]
    exact hok
  · intro u
    rw [hfrees.tables]
    by_cases hu : u = t
    · simp [hu]
    · simp [hu]

/-- A loop that frees the tables in `L i` for the entry `i`, if these lists are disjoint. -/
lemma freeEntries_spec {next : Heap AP SH X → UInt64 → Except Trap (Heap AP SH X)}
    {L : Index → List UInt64} {is : List Index} (hn : h.tables t = some n)
    (hself : ∀ i ∈ is, t ∉ L i) (hdisj : is.Pairwise fun i j => List.Disjoint (L i) (L j))
    (hintact : ∀ i ∈ is, h₀.Intact S (L i) h)
    (hnext : ∀ i ∈ is, ∀ h₁ : Heap AP SH X, h₀.Intact S (L i) h₁ →
      if (n i).isValid && (n i).isTable then
        ∃ h₂, next h₁ (tr.physToDmap (n i).address) = .ok h₂ ∧ h₁.Frees S (L i) h₂
      else L i = []) : ∃ h', freeEntries tr next h t is = .ok h' ∧ h.Frees S (is.flatMap L) h' := by
  induction is generalizing h with
  | nil => exact ⟨h, rfl, .refl h⟩
  | cons i is ih =>
    have hstep := hnext i (.head _) h (hintact i (.head _))
    rw [freeEntries, readEntry_eq hn]
    simp only [bind, Except.bind, ← Bool.not_and]
    split_ifs at hstep with htable
    · obtain ⟨h₁, hok₁, hfrees₁⟩ := hstep
      have hn₁ : h₁.tables t = some n := by
        rw [hfrees₁.tables, if_neg (hself i (.head _)), hn]
      obtain ⟨h', hok, hfrees⟩ := ih hn₁ (fun j hj => hself j (.tail _ hj))
        (List.pairwise_cons.1 hdisj).2
        (fun j hj => hfrees₁.intact (hintact j (.tail _ hj))
          ((List.pairwise_cons.1 hdisj).1 j hj))
        fun j hj => hnext j (.tail _ hj)
      refine ⟨h', ?_, hfrees₁.trans hfrees⟩
      rw [htable, hok₁]
      exact hok
    · obtain ⟨h', hok, hfrees⟩ := ih hn (fun j hj => hself j (.tail _ hj))
        (List.pairwise_cons.1 hdisj).2 (fun j hj => hintact j (.tail _ hj))
        fun j hj => hnext j (.tail _ hj)
      refine ⟨h', ?_, ?_⟩
      · rw [Bool.not_eq_true] at htable
        rw [htable]
        exact hok
      · rw [List.flatMap_cons, hstep, List.nil_append]
        exact hfrees

/-! ### The tables of a tree -/

variable {level : Nat}

/-- The tables below a path, in the order in which they are freed. -/
abbrev Heap.tablesBelow (tr : AddressTranslator) (h : Heap AP SH X) (r : UInt64) (level : Nat)
    (p : List Index) : List UInt64 :=
  postorder (Tte.child tr) h.erase.tables r (List.finRange 2048) level p

lemma Heap.mem_tablesBelow : t ∈ h.tablesBelow tr r level p ↔
    ∃ q, q.length ≤ level ∧ h.erase.tableAt tr r (p ++ q) = some t :=
  mem_postorder List.mem_finRange

lemma Heap.tablesBelow_of_none (hp : h.erase.tableAt tr r p = none) :
    h.tablesBelow tr r level p = [] := by
  refine List.eq_nil_iff_forall_not_mem.2 fun t ht => ?_
  obtain ⟨q, -, hq⟩ := mem_tablesBelow.1 ht
  obtain ⟨u, hu⟩ := tableAt_of_prefix (List.prefix_append p q) hq
  rw [hp] at hu
  cases hu

lemma freeEntries_tablesBelow {is : List Index} (hI : h₀.erase.Inv S r)
    (hlen : p.length + level < 3) (hp : h₀.erase.tableAt tr r p = some t)
    (hn : h.tables t = h₀.tables t) (his : is.Nodup)
    (hintact : ∀ i ∈ is, h₀.Intact S (h₀.tablesBelow tr r level (p ++ [i])) h)
    (hnext : ∀ (i : Index) (u : UInt64) (h₁ : Heap AP SH X),
      h₀.erase.tableAt tr r (p ++ [i]) = some u →
      h₀.Intact S (h₀.tablesBelow tr r level (p ++ [i])) h₁ →
      ∃ h₂, freeBelow A tr level h₁ u = .ok h₂ ∧
        h₁.Frees S (h₀.tablesBelow tr r level (p ++ [i])) h₂) :
    ∃ h', freeEntries tr (freeBelow A tr level) h t is = .ok h' ∧
      h.Frees S (is.flatMap fun i => h₀.tablesBelow tr r level (p ++ [i])) h' := by
  obtain ⟨n, hn₀, -⟩ := hI.alive_erase hp (by omega)
  refine freeEntries_spec (hn.trans hn₀) ?_ ?_ hintact ?_
  · intro i _
    exact hI.tree.notMem_postorder List.mem_finRange hlen hp
  · exact his.imp fun hij => hI.tree.postorder_disjoint List.mem_finRange hlen hij
  · intro i _ h₁ hintact₁
    have hchild : h₀.erase.tableAt tr r (p ++ [i]) = (n i).tableChild tr := by
      rw [← Tte.child_erase]
      exact follow_snoc_of_node hp (erase_tables_eq hn₀)
    split_ifs with htable
    · rw [Tte.tableChild_of_table htable] at hchild
      exact hnext i _ h₁ hchild hintact₁
    · rw [Tte.tableChild_of_not_table (by simpa using htable)] at hchild
      exact tablesBelow_of_none hchild

lemma Heap.self_mem_tablesBelow (hp : h.erase.tableAt tr r p = some t) :
    t ∈ h.tablesBelow tr r level p :=
  mem_tablesBelow.2 ⟨[], Nat.zero_le _, by rwa [List.append_nil]⟩

lemma Heap.tablesBelow_sub (h : Heap AP SH X) (i : Index) :
    ∀ u ∈ h.tablesBelow tr r level (p ++ [i]), u ∈ h.tablesBelow tr r (level + 1) p := by
  intro u hu
  obtain ⟨q, hq, hqu⟩ := mem_tablesBelow.1 hu
  exact mem_tablesBelow.2 ⟨i :: q, Nat.succ_le_succ hq, by simpa using hqu⟩

/-- A table and all below it are freed, by induction on the levels below. -/
lemma freeBelow_spec (hI : h₀.erase.Inv S r) (hlen : p.length + level = 3)
    (hp : h₀.erase.tableAt tr r p = some t)
    (hintact : h₀.Intact S (h₀.tablesBelow tr r level p) h) :
    ∃ h', freeBelow A tr level h t = .ok h' ∧ h.Frees S (h₀.tablesBelow tr r level p) h' := by
  induction level generalizing p t h with
  | zero =>
    obtain ⟨n, hn, -⟩ := hI.alive_erase hp (by omega)
    obtain ⟨ht, hlive⟩ := hintact t (self_mem_tablesBelow hp)
    have hlist : h₀.tablesBelow tr r 0 p = [t] := by
      rw [Heap.tablesBelow, postorder, show follow _ h₀.erase.tables r p = some t from hp]
      rfl
    rw [hlist]
    exact freeBelow_zero_spec (ht.trans hn) hlive
  | succ level ih =>
    obtain ⟨n, hn, -⟩ := hI.alive_erase hp (by omega)
    obtain ⟨ht, hlive⟩ := hintact t (self_mem_tablesBelow hp)
    have hnext : ∀ (i : Index) (u : UInt64) (h₁ : Heap AP SH X),
        h₀.erase.tableAt tr r (p ++ [i]) = some u →
        h₀.Intact S (h₀.tablesBelow tr r level (p ++ [i])) h₁ →
        ∃ h₂, freeBelow A tr level h₁ u = .ok h₂ ∧
          h₁.Frees S (h₀.tablesBelow tr r level (p ++ [i])) h₂ := by
      intro i u h₁ hu hintact₁
      refine ih ?_ hu hintact₁
      rw [List.length_append, List.length_singleton]
      omega
    obtain ⟨h₁, hok₁, hfrees₁⟩ := freeEntries_tablesBelow hI (by omega) hp ht
      (List.nodup_finRange 2048) (fun i _ => hintact.mono (h₀.tablesBelow_sub i)) hnext
    have hnot : t ∉ (List.finRange 2048).flatMap fun i => h₀.tablesBelow tr r level (p ++ [i]) := by
      intro hmem
      obtain ⟨i, -, hmem⟩ := List.mem_flatMap.1 hmem
      exact hI.tree.notMem_postorder List.mem_finRange (by omega) hp hmem
    obtain ⟨h', hok, hfrees⟩ := freeTable_spec (h := h₁) (n := n)
      (by rw [hfrees₁.tables, if_neg hnot, ht, hn]) (hfrees₁.live t hnot hlive)
    refine ⟨h', ?_, ?_⟩
    · rw [freeBelow, hok₁]
      exact hok
    · rw [Heap.tablesBelow, postorder, show follow _ h₀.erase.tables r p = some t from hp]
      exact hfrees₁.trans hfrees

/-! ### The whole tree -/

/-- The root uses no entry but the two that `free_tables` looks at. -/
def Heap.LowRoot (tr : AddressTranslator) (r : UInt64) (h : Heap AP SH X) : Prop :=
  ∀ i : Index, 2 ≤ i.val → h.erase.tableAt tr r [i] = none

/-- What `free_tables` should do: it passes the tables that can be reached from the root to
`free_table`, each once, and nothing is left. -/
structure Heap.FreesTree (tr : AddressTranslator) (r : UInt64) (h h' : Heap AP SH X) : Prop where
  calls : ∃ l : List UInt64, h'.log = h.log ++ l.map .free ∧ l.Nodup ∧
    ∀ t, t ∈ l ↔ ∃ p, p.length ≤ 3 ∧ h.tableOn tr r p = some t
  gone : ∀ t, h'.tables t = none

/-- Every table but the root is below one of the first two entries of the root. -/
lemma Heap.LowRoot.mem_iff (hlow : h.LowRoot tr r) (t : UInt64) :
    t ∈ ([0, 1] : List Index).flatMap (fun i => h.tablesBelow tr r 2 ([] ++ [i])) ++ [r] ↔
      ∃ p, p.length ≤ 3 ∧ h.tableOn tr r p = some t := by
  rw [List.mem_append, List.mem_flatMap, List.mem_singleton]
  simp only [tableOn_eq, mem_tablesBelow]
  constructor
  · rintro (⟨i, -, q, hq, hqt⟩ | rfl)
    · exact ⟨i :: q, Nat.succ_le_succ hq, hqt⟩
    · exact ⟨[], Nat.zero_le 3, rfl⟩
  · rintro ⟨p, hp, hpt⟩
    cases p with
    | nil => exact .inr (Option.some.inj hpt).symm
    | cons i q =>
      refine .inl ⟨i, ?_, q, Nat.le_of_succ_le_succ hp, hpt⟩
      by_contra hi
      have htwo : 2 ≤ i.val := by
        rw [List.mem_cons, List.mem_singleton, not_or, Fin.ext_iff, Fin.ext_iff] at hi
        exact Nat.two_le_iff _ |>.2 hi
      obtain ⟨u, hu⟩ := tableAt_of_prefix (p := [i]) ⟨q, rfl⟩ hpt
      rw [hlow i htwo] at hu
      cases hu

lemma freeTables_spec (hI : h.erase.Inv S r) (hlow : h.LowRoot tr r) :
    ∃ h', freeTables A tr h r = .ok h' ∧ h.FreesTree tr r h' := by
  have hroot : h.erase.tableAt tr r [] = some r := rfl
  obtain ⟨n, hn, -⟩ := hI.alive_erase hroot (by simp)
  have hlive : ∀ p t, p.length ≤ 3 → h.erase.tableAt tr r p = some t →
      S.live h.allocator t := by
    intro p t hp ht
    obtain ⟨m, hm⟩ := hI.tree.alive p t hp ht
    exact hI.owned t m hm
  have hintact : ∀ i : Index, h.Intact S (h.tablesBelow tr r 2 ([] ++ [i])) h := by
    intro i t ht
    obtain ⟨q, hq, hqt⟩ := mem_tablesBelow.1 ht
    exact ⟨rfl, hlive _ t (by simp; omega) hqt⟩
  have hpair : ([0, 1] : List Index).Nodup := by decide
  obtain ⟨h₁, hok₁, hfrees₁⟩ := freeEntries_tablesBelow hI (by simp) hroot rfl hpair
    (fun i _ => hintact i) fun i u h₁ hu hintact₁ => freeBelow_spec hI rfl hu hintact₁
  have hnot : r ∉ ([0, 1] : List Index).flatMap fun i => h.tablesBelow tr r 2 ([] ++ [i]) := by
    intro hmem
    obtain ⟨i, -, hmem⟩ := List.mem_flatMap.1 hmem
    exact hI.tree.notMem_postorder List.mem_finRange (by simp) hroot hmem
  obtain ⟨h', hok, hfrees⟩ := freeTable_spec (h := h₁) (n := n)
    (by rw [hfrees₁.tables, if_neg hnot, hn]) (hfrees₁.live r hnot (hlive [] r (by simp) hroot))
  have hall := hfrees₁.trans hfrees
  refine ⟨h', ?_, ⟨_, hall.log, ?_, hlow.mem_iff⟩, ?_⟩
  · rw [freeTables, hok₁]
    exact hok
  · refine List.Nodup.append ?_ (List.nodup_singleton r) ?_
    · refine List.nodup_flatMap.2 ⟨fun i _ => ?_, ?_⟩
      · exact hI.tree.nodup_postorder List.mem_finRange (List.nodup_finRange 2048) (by simp)
      · exact hpair.imp fun hij => hI.tree.postorder_disjoint List.mem_finRange (by simp) hij
    · intro t ht htr
      rw [List.mem_singleton] at htr
      rw [htr] at ht
      exact hnot ht
  · intro t
    rw [hall.tables]
    split_ifs with ht
    · rfl
    · cases hm : h.tables t with
      | none => rfl
      | some m =>
        obtain ⟨q, hq, hqt⟩ := hI.tree.reached t _ (erase_tables_eq hm)
        exact absurd ((hlow.mem_iff t).2 ⟨q, hq, tableOn_eq.trans hqt⟩) ht

/-! ### Pages and blocks in different places -/

/-- The calls for pages in one region and blocks in another. -/
def Call.Within (pages blocks : UInt64 → Prop) : Call AP SH → Prop
  | .mapPage _ va _    => pages va
  | .mapL2Block _ va _ => blocks va
  | .unmapPage _       => True

/-- No page is in the 32 MiB of a block. -/
def DisjointRegions (pages blocks : UInt64 → Prop) : Prop :=
  ∀ va va', pages va → blocks va' → pathOf va ≠ pathOf va'

section Run

variable [Inhabited AP] [Inhabited SH] {pages blocks : UInt64 → Prop} {va : UInt64}
  {c : Call AP SH}

inductive RegionRun (A : TableAllocator X) (tr : AddressTranslator) (r : UInt64) (x : X)
    (pages blocks : UInt64 → Prop) : Heap AP SH X → Prop where
  | init : RegionRun A tr r x pages blocks (Heap.init r x)
  | call {h h' : Heap AP SH X} (c : Call AP SH) (hrun : RegionRun A tr r x pages blocks h)
      (hc : c.Within pages blocks) (hok : c.run A tr r h = .ok h') :
      RegionRun A tr r x pages blocks h'

/-- Level 3 tables are in the region of the pages and blocks in theirs. -/
structure Heap.RegionInv (S : AllocatorSpec A tr) (r : UInt64) (pages blocks : UInt64 → Prop)
    (h : Heap AP SH X) : Prop where
  inv : h.BlockInv S r
  low : h.LowRoot tr r
  page : ∀ va, (h.erase.tableAt tr r (pathOf va)).isSome → ∃ va', pages va' ∧ pathOf va' = pathOf va
  block : ∀ va, (h.blockAt tr r [calculateIndex va 0, calculateIndex va 1]
    (calculateIndex va 2)).isSome → ∃ va', blocks va' ∧ pathOf va' = pathOf va

omit [Inhabited AP] [Inhabited SH] in
/-- Calls that map something in their region do not mix pages and blocks. -/
lemma Heap.RegionInv.clear (hR : h.RegionInv S r pages blocks)
    (hdisj : DisjointRegions pages blocks) (hc : c.Within pages blocks)
    (hne : ∀ va, c ≠ .unmapPage va) : c.Clear tr r h := by
  cases c with
  | mapPage pa va attrs =>
    rw [Call.Clear, ← Option.not_isSome_iff_eq_none]
    intro hblock
    obtain ⟨va', hva', hpath⟩ := hR.block va hblock
    exact hdisj va va' hc hva' hpath.symm
  | mapL2Block pa va attrs =>
    rw [Call.Clear, tableOn_eq, ← Option.not_isSome_iff_eq_none]
    intro htable
    obtain ⟨va', hva', hpath⟩ := hR.page va htable
    exact hdisj va' va hva' hc hpath
  | unmapPage va => exact absurd rfl (hne va)

lemma regionInv_init (hr : S.live x r) :
    (Heap.init r x : Heap AP SH X).RegionInv S r pages blocks := by
  have hB : (Heap.init r x : Heap AP SH X).BlockInv S r := blockInv_init hr
  have hnone : ∀ i p, (Heap.init r x : Heap AP SH X).erase.tableAt tr r (i :: p) = none := by
    intro i p
    rw [erase_eq_self block_init, Option.eq_none_iff_forall_ne_some]
    intro t ht
    cases (tableAt_init ht).1
  refine ⟨hB, fun i _ => hnone i [], ?_, ?_⟩
  · intro va hsome
    rw [pathOf, hnone] at hsome
    cases hsome
  · intro va hsome
    rw [blockAt_of_none (hnone _ _)] at hsome
    cases hsome

omit [Inhabited AP] [Inhabited SH] in
/-- The entry of the root that a call uses is one of the first two. -/
lemma not_prefix_of_two_le (hi : 2 ≤ i.val) (q : List Index) :
    ¬ [i] <+: calculateIndex va 0 :: q := by
  rintro ⟨q', hq'⟩
  have hroot : i = calculateIndex va 0 := (List.cons.inj hq').1
  rw [hroot] at hi
  exact absurd (calculateIndex_root_lt va) (not_lt.2 hi)

omit [Inhabited AP] [Inhabited SH] in
lemma Heap.RegionInv.mapsPage {e : Tte AP SH} (hR : h.RegionInv S r pages blocks)
    (hmaps : h.MapsPage S r va e h') (hva : pages va) : h'.RegionInv S r pages blocks := by
  obtain ⟨hB', hblock⟩ := hmaps.blockInv hR.inv
  refine ⟨hB', ?_, ?_, ?_⟩
  · intro i hi
    rw [hmaps.tableAt_of_ne [i] (by simp) (not_prefix_of_two_le hi _), hR.low i hi]
  · intro va' hsome
    by_cases hpath : pathOf va' = pathOf va
    · exact ⟨va, hva, hpath.symm⟩
    · rw [hmaps.tableAt_of_ne _ (by simp [pathOf])] at hsome
      · exact hR.page va' hsome
      · exact fun hpre => hpath (hpre.eq_of_length rfl)
  · intro va' hsome
    rw [hblock _ _ (by simp)] at hsome
    exact hR.block va' hsome

omit [Inhabited AP] [Inhabited SH] in
lemma Heap.RegionInv.mapsBlock {e : Tte AP SH} (hR : h.RegionInv S r pages blocks)
    (hmaps : h.MapsBlock S r va e h') (hva : blocks va) : h'.RegionInv S r pages blocks := by
  refine ⟨hmaps.blockInv hR.inv, ?_, ?_, ?_⟩
  · intro i hi
    rw [hmaps.tableAt_of_ne [i] (by simp) (not_prefix_of_two_le hi _), hR.low i hi]
  · intro va' hsome
    rw [hmaps.tableAt_of_ne _ (by simp [pathOf])] at hsome
    · exact hR.page va' hsome
    · exact fun hpre => absurd hpre.length_le (by simp [pathOf])
  · intro va' hsome
    rw [hmaps.blockAt _ _ (by simp)] at hsome
    by_cases hpath : pathOf va' = pathOf va
    · exact ⟨va, hva, hpath.symm⟩
    · rw [if_neg (mt (pathOf_eq_iff_slot va' va).2 hpath)] at hsome
      exact hR.block va' hsome

omit [Inhabited AP] [Inhabited SH] in
lemma Heap.RegionInv.unmapsPage (hR : h.RegionInv S r pages blocks)
    (hunmaps : h.UnmapsPage S r va h') : h'.RegionInv S r pages blocks := by
  obtain ⟨hB', hblock⟩ := hunmaps.blockInv hR.inv
  have htable : ∀ q, q.length ≤ 3 → (h'.erase.tableAt tr r q).isSome →
      (h.erase.tableAt tr r q).isSome := by
    intro q hq hsome
    obtain ⟨t, ht⟩ := Option.isSome_iff_exists.1 hsome
    exact Option.isSome_of_eq_some (hunmaps.shrinks q t hq ht).1
  refine ⟨hB', ?_, ?_, ?_⟩
  · intro i hi
    rw [← Option.not_isSome_iff_eq_none]
    intro hsome
    have hold := htable [i] (by simp) hsome
    rw [hR.low i hi] at hold
    cases hold
  · exact fun va' hsome => hR.page va' (htable _ (by simp [pathOf]) hsome)
  · intro va' hsome
    rw [hblock _ _ (by simp)] at hsome
    exact hR.block va' hsome

/-- Every call keeps pages and blocks in their regions. -/
lemma Heap.RegionInv.call (hR : h.RegionInv S r pages blocks)
    (hdisj : DisjointRegions pages blocks) (hc : c.Within pages blocks)
    (hok : c.run A tr r h = .ok h') : h'.RegionInv S r pages blocks := by
  cases c with
  | mapPage pa va attrs =>
    have hclear := hR.clear hdisj hc nofun
    have hmaps := mapPage_block_spec (A := A) hR.inv.tree pa va attrs hclear
    rw [show mapPage A tr h r pa va attrs = .ok h' from hok] at hmaps
    exact hR.mapsPage hmaps hc
  | mapL2Block pa va attrs =>
    have hclear := hR.clear hdisj hc nofun
    have hmaps := mapL2Block_spec (A := A) hR.inv.tree pa va attrs hR.inv.upper
      (tableOn_eq.symm.trans hclear)
    rw [show mapL2Block A tr h r pa va attrs = .ok h' from hok] at hmaps
    exact hR.mapsBlock hmaps hc
  | unmapPage va =>
    obtain ⟨h'', hok', hunmaps⟩ := unmapPage_block_spec (A := A) hR.inv.tree va
      (hR.inv.level _ _ (by simp [pathOf]) (by simp [pathOf]))
    rw [show unmapPage A tr h r va = .ok h' from hok] at hok'
    cases hok'
    exact hR.unmapsPage hunmaps

lemma RegionRun.regionInv (hr : S.live x r) (hdisj : DisjointRegions pages blocks)
    (hrun : RegionRun A tr r x pages blocks h) : h.RegionInv S r pages blocks := by
  induction hrun with
  | init => exact regionInv_init hr
  | call c _ hc hok ih => exact ih.call hdisj hc hok

/-- `free_tables` returns, and passes the tables of the tree to `free_table`, each once. -/
theorem RegionRun.freeTables_once (S : AllocatorSpec A tr) (hr : S.live x r)
    (hdisj : DisjointRegions pages blocks) (hrun : RegionRun A tr r x pages blocks h) :
    ∃ h', freeTables A tr h r = .ok h' ∧ h.FreesTree tr r h' := by
  have hR := hrun.regionInv hr hdisj
  exact freeTables_spec hR.inv.tree hR.low

end Run

/-- A block, and a page in another 32 MiB: the level 3 table of the page, the two tables above
both and the root are freed. -/
theorem freeTables_page_and_block : ∃ h h' : Heap Bool Bool Nat,
    RegionRun bumpAllocator identity 0x4000 0 (· = 0x4000000) (· = 0x2000000) h ∧
    freeTables bumpAllocator identity h 0x4000 = .ok h' ∧ h.FreesTree identity 0x4000 h' := by
  have hrun : ∃ h : Heap Bool Bool Nat,
      RegionRun bumpAllocator identity 0x4000 0 (· = 0x4000000) (· = 0x2000000) h :=
    ⟨_, .call (.mapPage 0x80000 0x4000000 sampleAttrs)
      (.call (.mapL2Block 0x2000000 0x2000000 sampleAttrs) .init rfl rfl) rfl rfl⟩
  obtain ⟨h, hrun⟩ := hrun
  have hroot : bumpSpec.live 0 0x4000 := Nat.le_refl _
  have hdisj : DisjointRegions (· = 0x4000000) (· = 0x2000000) := by
    rintro va va' rfl rfl
    decide
  obtain ⟨h', hok, hfrees⟩ := RegionRun.freeTables_once bumpSpec hroot hdisj hrun
  exact ⟨h, h', hrun, hok, hfrees⟩

end Mars.Paging
