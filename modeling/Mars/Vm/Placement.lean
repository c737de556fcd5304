import Mars.Vm.Threads
import Mars.Vm.Cursor

/-!
# What agents know about the tree of tables

A cursor has locked the covering table for writing and every table above it for reading. While
tables are only added, these are still the tables on the way to the range. If two covering tables
lie on one way from the root, one of them is locked by both agents, at least once for writing.
-/

namespace Mars.Vm

open Paging Lib.NodeTree

variable {T AP SH X : Type} {s : AddressSpace X} {r : UInt64}

/-! ### What an agent knows about the tree -/

abbrev Tables (AP SH : Type) := Nodes UInt64 Index (Tte AP SH)

abbrev tableIn (s : AddressSpace X) (r : UInt64) (m : Tables AP SH) (p : List Index) :
    Option UInt64 :=
  follow (Tte.child s.translator) m r p

def Grown (s : AddressSpace X) (r : UInt64) (m m' : Tables AP SH) : Prop :=
  ∀ q t, q.length ≤ 3 → tableIn s r m q = some t → tableIn s r m' q = some t

/-- There is a guard for every table above the one at `p`. -/
def Guarded (s : AddressSpace X) (r : UInt64) (m : Tables AP SH) (p : List Index)
    (guards : List (UInt64 × Nat)) : Prop :=
  ∀ q, q <+: p → q ≠ p → ∃ t d, tableIn s r m q = some t ∧
    s.allocator.descriptor (s.translator.dmapToPhys t) = .ok d ∧
    (s.translator.dmapToPhys t, d) ∈ guards

def Search.path (v : Search) : List Index := (route v.start).take (3 - v.level)

structure Search.Placed (s : AddressSpace X) (r : UInt64) (m : Tables AP SH) (v : Search) :
    Prop where
  level_le : v.level ≤ 3
  stop_le : v.stop.toNat ≤ 2 ^ 48
  table : ∃ t, tableIn s r m v.path = some t ∧ v.pa = s.translator.dmapToPhys t
  guards : Guarded s r m v.path v.guards
  spans : v.start < v.stop →
    v.start.toNat / entryCover (v.level + 1) = (v.stop.toNat - 1) / entryCover (v.level + 1)

structure Cursor.Placed (s : AddressSpace X) (r : UInt64) (m : Tables AP SH) (c : Cursor) :
    Prop where
  level_le : c.coveringLevel ≤ 3
  stop_le : c.stop.toNat ≤ 2 ^ 48
  spans : c.start < c.stop → c.start.toNat / entryCover (c.coveringLevel + 1) =
    (c.stop.toNat - 1) / entryCover (c.coveringLevel + 1)
  covering : ∃ t d, tableIn s r m c.path = some t ∧ c.coveringPa = s.translator.dmapToPhys t ∧
    s.allocator.descriptor (s.translator.dmapToPhys t) = .ok d ∧
    c.writeGuard = some (c.coveringPa, d)
  guards : Guarded s r m c.path c.readGuards

def MapPc.Placed (s : AddressSpace X) (r : UInt64) (m : Tables AP SH) (va : UInt64) :
    MapPc → Prop
  | .walk level table      => level < 3 ∧ tableIn s r m ((pathOf va).take level) = some table
  | .alloc level table     => level < 3 ∧ tableIn s r m ((pathOf va).take level) = some table
  | .track level table _   => level < 3 ∧ tableIn s r m ((pathOf va).take level) = some table
  | .reset level table _ _ => level < 3 ∧ tableIn s r m ((pathOf va).take level) = some table
  | .install level table _ => level < 3 ∧ tableIn s r m ((pathOf va).take level) = some table
  | .leaf table            => tableIn s r m (pathOf va) = some table
  | .update _ _            => True
  | .write _               => True

/-- The page is in the range, and so are those after it. -/
structure MapJob.Placed (s : AddressSpace X) (r : UInt64) (m : Tables AP SH) (c : Cursor)
    (job : MapJob AP SH) : Prop where
  start_le : c.start.toNat ≤ job.va.toNat
  left : job.va.toNat + job.left * pageSize < c.stop.toNat
  pc : job.pc.Placed s r m job.va

def Phase.Placed (s : AddressSpace X) (r : UInt64) (m : Tables AP SH) : Phase AP SH → Prop
  | .idle          => True
  | .search v      => v.Placed s r m
  | .peek v d      => v.Placed s r m ∧ s.allocator.descriptor v.pa = .ok d ∧ 0 < v.level ∧
      entryIndex v.start v.level = entryIndex (UInt64.ofNat (v.stop.toNat - 1)) v.level
  | .release v _   => v.Placed s r m
  | .claim v       => v.Placed s r m
  | .held c        => c.Placed s r m
  | .mapping c job => c.Placed s r m ∧ job.Placed s r m c
  | .unwind _      => True

/-- The level of the entry that `map_page` found absent. -/
def MapPc.vacant : MapPc → Option Nat
  | .alloc level _     => some level
  | .track level _ _   => some level
  | .reset level _ _ _ => some level
  | .install level _ _ => some level
  | _                  => none

/-- The path of a table that the agent is about to add. -/
def Phase.vacant : Phase AP SH → Option (List Index)
  | .mapping _ job => job.pc.vacant.map fun level => (pathOf job.va).take (level + 1)
  | _              => none

/-- A table that was handed out and is not in the tree yet. -/
def MapPc.pending : MapPc → Option UInt64
  | .track _ _ new   => some new
  | .reset _ _ new _ => some new
  | .install _ _ new => some new
  | _                => none

def Phase.pending : Phase AP SH → Option UInt64
  | .mapping _ job => job.pc.pending
  | _              => none

def Phase.cursor : Phase AP SH → Option Cursor
  | .held c      => some c
  | .mapping c _ => some c
  | _            => none

section Mono

variable {m m' : Tables AP SH}
variable {c : Cursor} {va : UInt64} {ph : Phase AP SH} {level : Nat} {p : List Index} {v : Search}

lemma Guarded.mono {guards : List (UInt64 × Nat)} (hp : p.length ≤ 3) (hg : Guarded s r m p guards)
    (hm : Grown s r m m') : Guarded s r m' p guards := by
  intro q hq hne
  obtain ⟨t, d, ht, hrest⟩ := hg q hq hne
  exact ⟨t, d, hm q t (hq.length_le.trans hp) ht, hrest⟩

lemma Search.path_length_le (v : Search) : v.path.length ≤ 3 := by
  rw [path, route_take_length]
  exact Nat.sub_le 3 _

lemma Search.Placed.mono (hv : v.Placed s r m) (hm : Grown s r m m') : v.Placed s r m' := by
  obtain ⟨t, ht, hpa⟩ := hv.table
  exact ⟨hv.level_le, hv.stop_le, ⟨t, hm _ t v.path_length_le ht, hpa⟩,
    hv.guards.mono v.path_length_le hm, hv.spans⟩

lemma Cursor.Placed.mono (hc : c.Placed s r m) (hm : Grown s r m m') : c.Placed s r m' := by
  obtain ⟨t, d, ht, hrest⟩ := hc.covering
  exact ⟨hc.level_le, hc.stop_le, hc.spans, ⟨t, d, hm _ t c.path_length_le ht, hrest⟩,
    hc.guards.mono c.path_length_le hm⟩

lemma pathOf_take_length_le (va : UInt64) (n : Nat) : ((pathOf va).take n).length ≤ 3 :=
  (List.length_take_le' n (pathOf va)).trans le_rfl

lemma MapPc.Placed.mono {pc : MapPc} (hpc : pc.Placed s r m va) (hm : Grown s r m m') :
    pc.Placed s r m' va := by
  cases pc with
  | walk level table => exact ⟨hpc.1, hm _ _ (pathOf_take_length_le va level) hpc.2⟩
  | alloc level table => exact ⟨hpc.1, hm _ _ (pathOf_take_length_le va level) hpc.2⟩
  | track level table new => exact ⟨hpc.1, hm _ _ (pathOf_take_length_le va level) hpc.2⟩
  | reset level table new d => exact ⟨hpc.1, hm _ _ (pathOf_take_length_le va level) hpc.2⟩
  | install level table new => exact ⟨hpc.1, hm _ _ (pathOf_take_length_le va level) hpc.2⟩
  | leaf table => exact hm _ _ le_rfl hpc
  | update level pa => trivial
  | write d => trivial

/-- What agents know stays true when tables are added. -/
lemma Phase.Placed.mono (hph : ph.Placed s r m) (hm : Grown s r m m') : ph.Placed s r m' := by
  cases ph with
  | idle => trivial
  | search v => exact Search.Placed.mono hph hm
  | peek v d => exact ⟨hph.1.mono hm, hph.2⟩
  | release v d => exact Search.Placed.mono hph hm
  | claim v => exact Search.Placed.mono hph hm
  | held c => exact Cursor.Placed.mono hph hm
  | mapping c job =>
    exact ⟨hph.1.mono hm, hph.2.start_le, hph.2.left, hph.2.pc.mono hm⟩
  | unwind guards => trivial

lemma Phase.Placed.cursor (hph : ph.Placed s r m) (hc : ph.cursor = some c) : c.Placed s r m := by
  cases ph with
  | held c' =>
    cases hc
    exact hph
  | mapping c' job =>
    cases hc
    exact hph.1
  | idle => cases hc
  | search v => cases hc
  | peek v d => cases hc
  | release v d => cases hc
  | claim v => cases hc
  | unwind guards => cases hc

lemma Phase.cursor_locks (hc : ph.cursor = some c) {l : Nat × Mode} (hl : l ∈ c.locks) :
    l ∈ ph.locks := by
  cases ph with
  | held c' =>
    cases hc
    exact hl
  | mapping c' job =>
    cases hc
    exact List.mem_append_right _ hl
  | idle => cases hc
  | search v => cases hc
  | peek v d => cases hc
  | release v d => cases hc
  | claim v => cases hc
  | unwind guards => cases hc

/-- A cursor has locked every table on the way to the covering table, and that one for writing. -/
lemma Cursor.Placed.locks (hc : c.Placed s r m) (hp : p <+: c.path) :
    ∃ t d mode, tableIn s r m p = some t ∧
      s.allocator.descriptor (s.translator.dmapToPhys t) = .ok d ∧ (d, mode) ∈ c.locks ∧
      (p = c.path → mode = .write) := by
  by_cases heq : p = c.path
  · obtain ⟨t, d, ht, -, hd, hwrite⟩ := hc.covering
    refine ⟨t, d, .write, heq ▸ ht, hd, ?_, fun _ => rfl⟩
    rw [Cursor.locks, hwrite]
    exact List.mem_append_left _ (List.mem_singleton.2 rfl)
  · obtain ⟨t, d, ht, hd, hmem⟩ := hc.guards p hp heq
    refine ⟨t, d, .read, ht, hd, ?_, fun hp => absurd hp heq⟩
    exact List.mem_append_right _ (List.mem_map.2 ⟨_, hmem, rfl⟩)

/-- The way to a page of the range goes through the covering table. -/
lemma Cursor.Placed.path_eq (hc : c.Placed s r m) (hva : c.Contains va) :
    (pathOf va).take (3 - c.coveringLevel) = c.path := by
  have hlt : va.toNat < 2 ^ 48 :=
    (UInt64.lt_iff_toNat_lt.1 hva.2).trans_le hc.stop_le
  rw [← route_eq hlt]
  exact route_take_of_spans hc.level_le hc.spans hva.1 hva.2

lemma Cursor.Placed.prefix_pathOf (hc : c.Placed s r m) (hva : c.Contains va) :
    c.path <+: pathOf va := by
  rw [← hc.path_eq hva]
  exact List.take_prefix _ _

/-- The covering table has entries for the whole range. -/
lemma Cursor.Placed.cover_eq (hc : c.Placed s r m) (hva : c.Contains va) :
    va.toNat / entryCover (c.coveringLevel + 1) =
      c.start.toNat / entryCover (c.coveringLevel + 1) := by
  have hle := UInt64.le_iff_toNat_le.1 hva.1
  have hlt := UInt64.lt_iff_toNat_lt.1 hva.2
  have hspans := hc.spans (UInt64.lt_iff_toNat_lt.2 (hle.trans_lt hlt))
  refine le_antisymm ?_ (Nat.div_le_div_right hle)
  rw [hspans]
  exact Nat.div_le_div_right (Nat.le_sub_one_of_lt hlt)

/-- A table of the way to a page that is missing is below the covering table. -/
lemma MapJob.Placed.prefix_take {job : MapJob AP SH} (hc : c.Placed s r m)
    (hjob : job.Placed s r m c) (hnone : tableIn s r m ((pathOf job.va).take level) = none) :
    c.path <+: (pathOf job.va).take level := by
  have hva : c.Contains job.va := by
    refine ⟨UInt64.le_iff_toNat_le.2 hjob.start_le, UInt64.lt_iff_toNat_lt.2 ?_⟩
    exact (Nat.le_add_right _ _).trans_lt hjob.left
  rcases List.prefix_or_prefix_of_prefix (hc.prefix_pathOf hva)
    (List.take_prefix level (pathOf job.va)) with h | h
  · exact h
  · obtain ⟨t, d, ht, -⟩ := hc.covering
    obtain ⟨u, hu⟩ := follow_of_prefix h ht
    rw [tableIn, hu] at hnone
    cases hnone

lemma Search.Placed.down {t u : UInt64} {d : Nat} (hv : v.Placed s r m) (hpos : 0 < v.level)
    (hindex : entryIndex v.start v.level = entryIndex (UInt64.ofNat (v.stop.toNat - 1)) v.level)
    (ht : tableIn s r m v.path = some t) (hpa : v.pa = s.translator.dmapToPhys t)
    (hd : s.allocator.descriptor v.pa = .ok d)
    (hu : tableIn s r m (v.path ++ [entryIndex v.start v.level]) = some u) :
    Search.Placed s r m { v with
      guards := v.guards ++ [(v.pa, d)]
      level := v.level - 1
      pa := s.translator.dmapToPhys u } := by
  obtain ⟨start, stop, guards, level, pa⟩ := v
  obtain ⟨level, rfl⟩ : ∃ l, level = l + 1 := ⟨level - 1, (Nat.sub_add_cancel hpos).symm⟩
  have hsucc := route_take_succ start hv.level_le
  have hpath : (route start).take (3 - level) =
      Search.path ⟨start, stop, guards, level + 1, pa⟩ ++ [entryIndex start (level + 1)] := hsucc
  refine ⟨Nat.le_of_succ_le hv.level_le, hv.stop_le, ⟨u, ?_, rfl⟩, ?_, ?_⟩
  · exact (congrArg (tableIn s r m) hpath).trans hu
  · intro q hq hne
    have hq' : q <+: Search.path ⟨start, stop, guards, level + 1, pa⟩ ++
        [entryIndex start (level + 1)] := hpath ▸ hq
    have hne' : q ≠ Search.path ⟨start, stop, guards, level + 1, pa⟩ ++
        [entryIndex start (level + 1)] := hpath ▸ hne
    rcases List.prefix_concat_iff.1 hq' with heq | hpre
    · exact absurd heq hne'
    · by_cases hqp : q = Search.path ⟨start, stop, guards, level + 1, pa⟩
      · subst hqp
        refine ⟨t, d, ht, hpa ▸ hd, List.mem_append_right _ ?_⟩
        rw [hpa]
        exact List.mem_singleton.2 rfl
      · obtain ⟨t', d', ht', hd', hmem⟩ := hv.guards q hpre hqp
        exact ⟨t', d', ht', hd', List.mem_append_left _ hmem⟩
  · exact spans_of_entryIndex_eq hv.spans hindex

lemma Search.Placed.cursor {d : Nat} (hv : v.Placed s r m)
    (hd : s.allocator.descriptor v.pa = .ok d) :
    Cursor.Placed s r m ⟨v.start, v.stop, v.guards, some (v.pa, d), v.pa, v.level⟩ := by
  obtain ⟨t, ht, hpa⟩ := hv.table
  exact ⟨hv.level_le, hv.stop_le, hv.spans, ⟨t, d, ht, hpa, hpa ▸ hd, rfl⟩, hv.guards⟩

lemma pathOf_take_succ (va : UInt64) (hl : level < 3) :
    (pathOf va).take (level + 1) = (pathOf va).take level ++ [calculateIndex va level] := by
  interval_cases level <;> rfl

lemma pathOf_take_lt (va : UInt64) (hl : level < 3) : ((pathOf va).take level).length < 3 :=
  (List.length_take_le _ _).trans_lt hl

lemma Phase.vacant_length_le (hp : ph.vacant = some p) : p.length ≤ 3 := by
  cases ph with
  | mapping c job =>
    obtain ⟨level, -, rfl⟩ := Option.map_eq_some_iff.1 hp
    exact pathOf_take_length_le _ _
  | idle => cases hp
  | search v => cases hp
  | peek v d => cases hp
  | release v d => cases hp
  | claim v => cases hp
  | held c => cases hp
  | unwind guards => cases hp

/-- `map_page` goes down to a table. -/
lemma MapPc.enter_placed {table : UInt64} (hl : level < 3)
    (ht : tableIn s r m ((pathOf va).take (level + 1)) = some table) :
    (MapPc.enter level table).Placed s r m va := by
  unfold MapPc.enter
  split_ifs with hlt
  · exact ⟨by omega, ht⟩
  · obtain rfl : level = 2 := by omega
    exact ht

lemma MapPc.enter_pending (level : Nat) (table : UInt64) :
    (MapPc.enter level table).pending = none := by
  unfold MapPc.enter
  split_ifs <;> rfl

lemma MapPc.enter_vacant (level : Nat) (table : UInt64) :
    (MapPc.enter level table).vacant = none := by
  unfold MapPc.enter
  split_ifs <;> rfl

lemma MapPc.enter_locks (level : Nat) (table : UInt64) : (MapPc.enter level table).locks = [] := by
  unfold MapPc.enter
  split_ifs <;> rfl

/-- On coherent entries the tests of `map_page` agree. -/
lemma presentAt_eq {tr : AddressTranslator} {e : Tte AP SH} (he : e.Coherent tr) (level : Nat) :
    presentAt level e = e.isValid := by
  unfold presentAt
  split_ifs
  · exact he.hasTableAddress_eq
  · rfl

end Mono

/-! ### The invariant -/

namespace System

variable {t : UInt64} {p : List Index}

/-- The tables that are in the tree, without those that are about to be added. -/
noncomputable def tree (σ : System T AP SH X) : Tables AP SH :=
  open Classical in
  fun t => if ∃ i, (σ.phase i).pending = some t then none else σ.heap.tables t

lemma tree_of_pending {σ : System T AP SH X} {i : T} (hp : (σ.phase i).pending = some t) :
    σ.tree t = none := by
  rw [tree, if_pos ⟨i, hp⟩]

lemma tree_of_not_pending {σ : System T AP SH X} (hp : ¬ ∃ i, (σ.phase i).pending = some t) :
    σ.tree t = σ.heap.tables t := by
  rw [tree, if_neg hp]

lemma tables_of_tree {σ : System T AP SH X} {n : TTable AP SH} (ht : σ.tree t = some n) :
    σ.heap.tables t = some n := by
  unfold tree at ht
  split_ifs at ht
  exact ht

lemma tableAt_of_tree {σ : System T AP SH X} (hp : tableIn s r σ.tree p = some t) :
    σ.heap.tableAt s.translator r p = some t :=
  follow_of_le (fun _ _ => tables_of_tree) hp

/-- What holds of the memory in every state. -/
structure Memory (B : s.allocator.Spec) (r : UInt64) (σ : System T AP SH X) [Inhabited AP]
    [Inhabited SH] : Prop where
  tree : IsTree (Tte.child s.translator) σ.tree r 3
  coherent : ∀ p n, p.length < 3 → nodeAt (Tte.child s.translator) σ.tree r p = some n →
    ∀ i, (n i).Coherent s.translator
  owned : ∀ t n, σ.heap.tables t = some n →
    B.base.live σ.heap.allocator.inner t ∧ s.allocator.Tracked t
  pending : ∀ i u, (σ.phase i).pending = some u →
    σ.heap.tables u = some TTable.new ∧ s.translator.dmapToPhys u ≠ 0
  distinct : ∀ i j u, (σ.phase i).pending = some u → (σ.phase j).pending = some u → i = j

/-- What holds of the agents in every state. -/
structure Agents (s : AddressSpace X) (r : UInt64) (σ : System T AP SH X) : Prop where
  placed : ∀ i, (σ.phase i).Placed s r σ.tree
  vacant : ∀ i p, (σ.phase i).vacant = some p → tableIn s r σ.tree p = none
  exclusive : ∀ i j d m m', i ≠ j → (d, m) ∈ (σ.phase i).locks → (d, m') ∈ (σ.phase j).locks →
    m = .read ∧ m' = .read

variable {σ : System T AP SH X} {i j : T}

/-- Two covering tables are never on one way from the root. -/
lemma Agents.not_comparable (hA : σ.Agents s r) (hij : i ≠ j) {c c' : Cursor}
    (hc : (σ.phase i).cursor = some c) (hc' : (σ.phase j).cursor = some c') (hp : c.path <+: p)
    (hp' : c'.path <+: p) : False := by
  -- the covering table of `k` is on the way to that of `l`
  have hkey : ∀ {k l : T} {a b : Cursor}, k ≠ l → (σ.phase k).cursor = some a →
      (σ.phase l).cursor = some b → a.path <+: b.path → False := by
    intro k l a b hkl ha hb hab
    obtain ⟨t, d, m, ht, hd, hmem, hwrite⟩ := ((hA.placed k).cursor ha).locks List.prefix_rfl
    obtain ⟨t', d', m', ht', hd', hmem', -⟩ := ((hA.placed l).cursor hb).locks hab
    rw [ht] at ht'
    cases ht'
    rw [hd] at hd'
    cases hd'
    obtain ⟨hm, -⟩ := hA.exclusive k l d m m' hkl (Phase.cursor_locks ha hmem)
      (Phase.cursor_locks hb hmem')
    rw [hwrite rfl] at hm
    cases hm
  rcases List.prefix_or_prefix_of_prefix hp hp' with h | h
  · exact hkey hij hc hc' h
  · exact hkey hij.symm hc' hc h

/-- No two agents are about to add the same table. -/
lemma Agents.vacant_ne (hA : σ.Agents s r) (hij : i ≠ j) {q : List Index}
    (hp : (σ.phase i).vacant = some p) (hq : (σ.phase j).vacant = some q) : p ≠ q := by
  -- a table that is about to be added is below the covering table
  have hbelow : ∀ k p, (σ.phase k).vacant = some p →
      ∃ c, (σ.phase k).cursor = some c ∧ c.path <+: p := by
    intro k p hp
    have hplaced := hA.placed k
    have hnone := hA.vacant k p hp
    cases hk : σ.phase k with
    | mapping c job =>
      rw [hk] at hplaced hp
      obtain ⟨level, -, rfl⟩ := Option.map_eq_some_iff.1 hp
      exact ⟨c, rfl, hplaced.2.prefix_take hplaced.1 hnone⟩
    | idle => rw [hk] at hp; cases hp
    | search v => rw [hk] at hp; cases hp
    | peek v d => rw [hk] at hp; cases hp
    | release v d => rw [hk] at hp; cases hp
    | claim v => rw [hk] at hp; cases hp
    | held c => rw [hk] at hp; cases hp
    | unwind guards => rw [hk] at hp; cases hp
  rintro rfl
  obtain ⟨c, hc, hpre⟩ := hbelow i p hp
  obtain ⟨c', hc', hpre'⟩ := hbelow j p hq
  exact hA.not_comparable hij hc hc' hpre hpre'

section Read

variable [Inhabited AP] [Inhabited SH] {B : s.allocator.Spec}

/-- An entry of a table in the tree tells which table is below. -/
lemma Memory.read (hM : σ.Memory B r) {x : Index} {e : Tte AP SH}
    (hp : tableIn s r σ.tree p = some t) (hpd : p.length < 3)
    (hread : σ.heap.readEntry t x = .ok e) :
    e.Coherent s.translator ∧ tableIn s r σ.tree (p ++ [x]) = e.child s.translator := by
  obtain ⟨n, hn⟩ := hM.tree.alive p t hpd.le hp
  rw [Heap.readEntry_eq (tables_of_tree hn)] at hread
  cases hread
  exact ⟨hM.coherent p n hpd ((nodeAt_of_follow hp).trans hn) x, follow_snoc_of_node hp hn⟩

lemma Memory.tracked (hM : σ.Memory B r) (hp : tableIn s r σ.tree p = some t) (hpd : p.length ≤ 3) :
    s.allocator.Tracked t := by
  obtain ⟨n, hn⟩ := hM.tree.alive p t hpd hp
  exact (hM.owned t n (tables_of_tree hn)).2

end Read

end System

end Mars.Vm
