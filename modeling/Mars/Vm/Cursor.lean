import Mars.Vm.View
import Mathlib.Tactic.IntervalCases

/-!
# Cursors

`AddressSpace::lock` finds a table that covers the whole range and locks the tables above it for
reading and that table for writing. From the covering table on, the operations of a cursor find
the tables that the mapper finds from the root on.
-/

namespace Mars.Vm

open Paging Lib.NodeTree

variable {AP SH X : Type}

/-! ### Indices -/

variable {va : UInt64}

/-- The indices on the way to the leaf table of `va`. -/
def route (va : UInt64) : List Index := [entryIndex va 3, entryIndex va 2, entryIndex va 1]

lemma entryIndex_zero (va : UInt64) : entryIndex va 0 = calculateIndex va 3 := rfl

lemma route_eq (hva : va.toNat < 2 ^ 48) : route va = pathOf va := by
  have hroot : entryIndex va 3 = calculateIndex va 0 := by
    simp only [entryIndex, calculateIndex, pageShift, Fin.mk.injEq]
    omega
  rw [route, hroot]
  rfl

lemma route_length (va : UInt64) : (route va).length = 3 := rfl

lemma route_take_length (va : UInt64) (level : Nat) :
    ((route va).take (3 - level)).length = 3 - level := by
  rw [List.length_take, route_length]
  exact Nat.min_eq_left (Nat.sub_le 3 level)

lemma route_take_succ (va : UInt64) {level : Nat} (hl : level < 3) :
    (route va).take (3 - level) =
      (route va).take (3 - (level + 1)) ++ [entryIndex va (level + 1)] := by
  interval_cases level <;> rfl

/-- Two addresses in the reach of one table of a level have the same route to it. -/
lemma route_take_congr {a b : UInt64} {level : Nat} (hl : level ≤ 3)
    (hab : a.toNat / entryCover (level + 1) = b.toNat / entryCover (level + 1)) :
    (route a).take (3 - level) = (route b).take (3 - level) := by
  unfold entryCover pageShift at hab
  interval_cases level
  all_goals
    simp only [route, entryIndex, pageShift, Nat.reduceSub, Nat.reduceMul, Nat.reduceAdd,
      List.take_zero, List.take_succ_cons, List.cons.injEq, Fin.mk.injEq, and_true] at *
    try omega

/-- If one entry covers two addresses in the reach of a table, then the table below covers both. -/
lemma cover_of_entryIndex_eq {a b : UInt64} {level : Nat}
    (htable : a.toNat / entryCover (level + 1) = b.toNat / entryCover (level + 1))
    (hentry : entryIndex a level = entryIndex b level) :
    a.toNat / entryCover level = b.toNat / entryCover level := by
  have hsplit : ∀ n : Nat, n / entryCover (level + 1) = n / entryCover level / 2048 := by
    intro n
    rw [Nat.div_div_eq_div_mul, entryCover, entryCover, Nat.succ_mul, ← Nat.add_assoc, Nat.pow_add]
  rw [hsplit, hsplit] at htable
  have hmod : a.toNat / entryCover level % 2048 = b.toNat / entryCover level % 2048 :=
    congrArg Fin.val hentry
  omega

/-- If a table covers both ends of a range, then it covers every address of it. -/
lemma route_take_of_spans {start stop : UInt64} {level : Nat} (hl : level ≤ 3)
    (hspans : start < stop →
      start.toNat / entryCover (level + 1) = (stop.toNat - 1) / entryCover (level + 1))
    (hle : start ≤ va) (hlt : va < stop) :
    (route va).take (3 - level) = (route start).take (3 - level) := by
  refine route_take_congr hl ?_
  refine le_antisymm ?_ (Nat.div_le_div_right hle)
  rw [hspans (UInt64.lt_iff_toNat_lt.2 (hle.trans_lt hlt))]
  exact Nat.div_le_div_right (Nat.le_sub_one_of_lt hlt)

/-- One entry for both ends of the range is one entry for all of it. -/
lemma spans_of_entryIndex_eq {start stop : UInt64} {level : Nat}
    (hspans : start < stop →
      start.toNat / entryCover (level + 1) = (stop.toNat - 1) / entryCover (level + 1))
    (hindex : entryIndex start level = entryIndex (UInt64.ofNat (stop.toNat - 1)) level)
    (hlt : start < stop) :
    start.toNat / entryCover level = (stop.toNat - 1) / entryCover level := by
  have hlast : (UInt64.ofNat (stop.toNat - 1)).toNat = stop.toNat - 1 := by
    rw [UInt64.toNat_ofNat']
    have := stop.toNat_lt
    omega
  have htable := hspans hlt
  rw [← hlast] at htable ⊢
  exact cover_of_entryIndex_eq htable hindex

/-! ### Reading tables -/

variable {s : AddressSpace X} {B : s.allocator.Spec} {h h' : UserHeap AP SH X} {r : UInt64}
variable {t : UInt64} {p : List Index}

/-- Reading the entry `i` of the table at `p` tells which table is at `p ++ [i]`. -/
lemma readEntry_cases (hI : h.Inv B.user r) (hp : h.tableAt s.translator r p = some t)
    (hpd : p.length < 3) (i : Index) :
    ∃ e, h.readEntry (s.translator.physToDmap (s.translator.dmapToPhys t)) i = .ok e ∧
      (e.isValid = false ∧ h.tableAt s.translator r (p ++ [i]) = none ∨
        e.isValid = true ∧ e.isTable = true ∧ ∃ u,
          h.tableAt s.translator r (p ++ [i]) = some u ∧
            e.address = s.translator.dmapToPhys u) := by
  obtain ⟨n, hn, hentries⟩ := hI.alive hp hpd.le
  have hnext : h.tableAt s.translator r (p ++ [i]) = (n i).child s.translator :=
    follow_snoc_of_node hp hn
  refine ⟨n i, ?_, ?_⟩
  · rw [(tracked_of_tableAt hI hpd.le hp).translate]
    exact Heap.readEntry_eq hn
  · rcases hI.coherent p n hpd hentries i with ⟨hv, ht, -, haddress⟩ | ⟨hv, -⟩
    · rw [Tte.child_of_valid hv] at hnext
      exact .inr ⟨hv, ht, _, hnext, haddress.symm⟩
    · rw [Tte.child_of_not_valid hv] at hnext
      exact .inl ⟨hv, hnext⟩

lemma route_take_lt (va : UInt64) {level : Nat} :
    ((route va).take (3 - (level + 1))).length < 3 := by
  rw [route_take_length]
  omega

lemma tableAt_route_none {n : Nat} (hnone : h.tableAt s.translator r ((route va).take n) = none) :
    h.tableAt s.translator r (route va) = none := by
  rw [← List.take_append_drop n (route va), Heap.tableAt, follow_append]
  rw [show follow _ h.tables r ((route va).take n) = none from hnone]
  rfl

/-- From any table on the route, `update_leaf_meta` finds the leaf table. -/
lemma leafTable_eq (hI : h.Inv B.user r) {level : Nat} (hl : level ≤ 3)
    (ht : h.tableAt s.translator r ((route va).take (3 - level)) = some t) :
    Cursor.leafTable s h va level (s.translator.dmapToPhys t) =
      .ok ((h.tableAt s.translator r (route va)).map s.translator.dmapToPhys) := by
  induction level generalizing t with
  | zero =>
    have hroute : h.tableAt s.translator r (route va) = some t := ht
    rw [hroute]
    rfl
  | succ level ih =>
    obtain ⟨e, he, hcases⟩ := readEntry_cases hI ht (route_take_lt va) (entryIndex va (level + 1))
    rw [← route_take_succ va hl] at hcases
    simp only [Cursor.leafTable, he, bind, Except.bind]
    rcases hcases with ⟨hv, hnone⟩ | ⟨hv, htable, u, hu, haddress⟩
    · rw [hv, tableAt_route_none hnone]
      rfl
    · rw [hv, htable, haddress]
      exact ih (Nat.le_of_lt hl) hu

/-- From any table on the route, `query` finds the leaf entry, and locks its table to read the
status. -/
lemma queryFrom_eq (hI : h.Inv B.user r) (g : Guards) {level : Nat} (hl : level ≤ 3)
    (ht : h.tableAt s.translator r ((route va).take (3 - level)) = some t) :
    Cursor.queryFrom s g h va level (s.translator.dmapToPhys t) =
      match h.tableAt s.translator r (route va),
        h.entryAt s.translator r (route va) (entryIndex va 0) with
      | some u, some _ => do
        let d ← s.allocator.descriptor (s.translator.dmapToPhys u)
        acquire g d .read
        .ok (getStatus h d (entryIndex va 0))
      | _, _ => .ok .invalid := by
  induction level generalizing t with
  | zero =>
    have hroute : h.tableAt s.translator r (route va) = some t := ht
    obtain ⟨n, hn, hentries⟩ := hI.alive hroute (route_length va).le
    have htracked := tracked_of_tableAt hI (route_length va).le hroute
    rw [hroute, Heap.entryAt_eq hentries]
    unfold Cursor.queryFrom
    simp only [htracked.translate, Heap.readEntry_eq hn, bind, Except.bind, Tte.valid?]
    cases (n (entryIndex va 0)).isValid <;> rfl
  | succ level ih =>
    obtain ⟨e, he, hcases⟩ := readEntry_cases hI ht (route_take_lt va) (entryIndex va (level + 1))
    rw [← route_take_succ va hl] at hcases
    unfold Cursor.queryFrom
    simp only [he, bind, Except.bind]
    rcases hcases with ⟨hv, hnone⟩ | ⟨hv, -, u, hu, haddress⟩
    · rw [hv, tableAt_route_none hnone]
      rfl
    · rw [hv, haddress]
      exact ih (Nat.le_of_lt hl) hu

/-! ### Valid cursors -/

def Cursor.path (c : Cursor) : List Index := (route c.start).take (3 - c.coveringLevel)

/-- The address is one that the cursor may access. -/
def Cursor.Contains (c : Cursor) (va : UInt64) : Prop := c.start ≤ va ∧ va < c.stop

instance (c : Cursor) (va : UInt64) : Decidable (c.Contains va) :=
  inferInstanceAs (Decidable (_ ∧ _))

/-- A cursor whose covering table and locked tables are in the tree. -/
structure Cursor.Valid (s : AddressSpace X) (r : UInt64) (h : UserHeap AP SH X) (c : Cursor) :
    Prop where
  level_le : c.coveringLevel ≤ 3
  stop_le : c.stop.toNat ≤ 2 ^ 48
  spans : ∀ va, c.Contains va → (route va).take (3 - c.coveringLevel) = c.path
  covering : ∃ t, h.tableAt s.translator r c.path = some t ∧
    c.coveringPa = s.translator.dmapToPhys t
  write : ∃ d, c.writeGuard = some (c.coveringPa, d) ∧ s.allocator.descriptor c.coveringPa = .ok d
  reads : ∀ pa d, (pa, d) ∈ c.readGuards → s.allocator.descriptor pa = .ok d ∧
    ∃ q t, q <+: c.path ∧ q ≠ c.path ∧ h.tableAt s.translator r q = some t ∧
      pa = s.translator.dmapToPhys t

namespace Cursor

variable {c : Cursor}

lemma path_length (c : Cursor) : c.path.length = 3 - c.coveringLevel :=
  route_take_length c.start c.coveringLevel

lemma path_length_le (c : Cursor) : c.path.length ≤ 3 := by
  rw [path_length]
  exact Nat.sub_le 3 _

/-- Only the tables on the way to the covering table matter. -/
lemma Valid.congr (hc : c.Valid s r h)
    (heq : ∀ q, q <+: c.path → h'.tableAt s.translator r q = h.tableAt s.translator r q) :
    c.Valid s r h' := by
  refine ⟨hc.level_le, hc.stop_le, hc.spans, ?_, hc.write, ?_⟩
  · obtain ⟨t, ht, hpa⟩ := hc.covering
    exact ⟨t, (heq _ List.prefix_rfl).trans ht, hpa⟩
  · intro pa d hmem
    obtain ⟨hd, q, t, hq, hne, ht, hpa⟩ := hc.reads pa d hmem
    exact ⟨hd, q, t, hq, hne, (heq q hq).trans ht, hpa⟩

lemma Valid.toNat_lt (hc : c.Valid s r h) (hva : c.Contains va) : va.toNat < 2 ^ 48 :=
  (UInt64.lt_iff_toNat_lt.1 hva.2).trans_le hc.stop_le

end Cursor

/-! ### Locking -/

variable {d : Nat}

lemma readLocks_ne_write (guards : List (UInt64 × Nat)) (d : Nat) :
    acquire (readLocks guards) d .read = .ok () := by
  unfold acquire readLocks
  split_ifs <;> rfl

lemma acquire_of_none {g : Guards} (hd : g d = none) (mode : Mode) : acquire g d mode = .ok () := by
  unfold acquire
  rw [hd]

namespace AddressSpace

variable {start stop : UInt64} {guards : List (UInt64 × Nat)} {level : Nat}

/-- The guards taken so far, on the way to the table at `p`. -/
def GuardsAbove (s : AddressSpace X) (r : UInt64) (h : UserHeap AP SH X) (p : List Index)
    (guards : List (UInt64 × Nat)) : Prop :=
  ∀ pa d, (pa, d) ∈ guards → s.allocator.descriptor pa = .ok d ∧
    ∃ q t, q <+: p ∧ q ≠ p ∧ h.tableAt s.translator r q = some t ∧
      pa = s.translator.dmapToPhys t

/-- No guard is for the table itself. -/
lemma GuardsAbove.readLocks_eq (hI : h.Inv B.user r) (hg : s.GuardsAbove r h p guards)
    (hp : p.length ≤ 3) (ht : h.tableAt s.translator r p = some t)
    (hd : s.allocator.descriptor (s.translator.dmapToPhys t) = .ok d) :
    readLocks guards d = none := by
  refine if_neg ?_
  intro hin
  obtain ⟨⟨pa, d'⟩, hmem, rfl⟩ := List.mem_map.1 hin
  obtain ⟨hd', q, u, hq, hne, hu, rfl⟩ := hg pa d' hmem
  exact hne (path_eq_of_descriptor hI (hq.length_le.trans hp) hp hu ht hd' hd)

lemma GuardsAbove.snoc {i : Index} (hg : s.GuardsAbove r h p guards)
    (ht : h.tableAt s.translator r p = some t)
    (hd : s.allocator.descriptor (s.translator.dmapToPhys t) = .ok d) :
    s.GuardsAbove r h (p ++ [i]) (guards ++ [(s.translator.dmapToPhys t, d)]) := by
  have hne : ∀ q, q <+: p → q ≠ p ++ [i] := by
    rintro q hq rfl
    have hlen := hq.length_le
    rw [List.length_append, List.length_singleton] at hlen
    omega
  intro pa d' hmem
  rcases List.mem_append.1 hmem with hmem | hmem
  · obtain ⟨hd', q, u, hq, -, hu, hpa⟩ := hg pa d' hmem
    exact ⟨hd', q, u, hq.trans (List.prefix_append p [i]), hne q hq, hu, hpa⟩
  · cases List.mem_singleton.1 hmem
    exact ⟨hd, p, t, List.prefix_append p [i], hne p List.prefix_rfl, ht, rfl⟩

/-- What `lock` knows on the level it has reached. -/
structure Descent (s : AddressSpace X) (r : UInt64) (h : UserHeap AP SH X) (start stop : UInt64)
    (guards : List (UInt64 × Nat)) (level : Nat) (t : UInt64) : Prop where
  level_le : level ≤ 3
  table : h.tableAt s.translator r ((route start).take (3 - level)) = some t
  guards : s.GuardsAbove r h ((route start).take (3 - level)) guards
  spans : start < stop →
    start.toNat / entryCover (level + 1) = (stop.toNat - 1) / entryCover (level + 1)

lemma cover_spec (hI : h.Inv B.user r) (hstop : stop.toNat ≤ 2 ^ 48)
    (hD : s.Descent r h start stop guards level t) :
    ∃ c, s.cover start stop guards level (s.translator.dmapToPhys t) = .ok c ∧
      c.start = start ∧ c.stop = stop ∧ c.Valid s r h := by
  have hlen : ((route start).take (3 - level)).length ≤ 3 := by
    rw [route_take_length start level]
    exact Nat.sub_le 3 level
  obtain ⟨d, hd⟩ := (tracked_of_tableAt hI hlen hD.table).described
  have hfree := acquire_of_none (hD.guards.readLocks_eq hI hlen hD.table hd) .write
  refine ⟨⟨start, stop, guards, some (s.translator.dmapToPhys t, d), s.translator.dmapToPhys t,
    level⟩, ?_, rfl, rfl, hD.level_le, hstop, ?_, ⟨t, hD.table, rfl⟩, ⟨d, rfl, hd⟩, hD.guards⟩
  · simp only [cover, hd, hfree, bind, Except.bind]
  · rintro va ⟨hle, hlt⟩
    exact route_take_of_spans hD.level_le hD.spans hle hlt

lemma lockFrom_spec (hI : h.Inv B.user r) (hstop : stop.toNat ≤ 2 ^ 48)
    (hD : s.Descent r h start stop guards level t) :
    ∃ c, s.lockFrom h start stop guards level (s.translator.dmapToPhys t) = .ok c ∧
      c.start = start ∧ c.stop = stop ∧ c.Valid s r h := by
  induction level generalizing guards t with
  | zero => exact cover_spec hI hstop hD
  | succ level ih =>
    rw [lockFrom]
    split_ifs with hindex
    · have hlen : ((route start).take (3 - (level + 1))).length < 3 := route_take_lt start
      obtain ⟨d, hd⟩ := (tracked_of_tableAt hI hlen.le hD.table).described
      obtain ⟨e, he, hcases⟩ := readEntry_cases hI hD.table hlen (entryIndex start (level + 1))
      have hsucc := route_take_succ start hD.level_le
      simp only [hd, readLocks_ne_write, he, bind, Except.bind]
      rcases hcases with ⟨hv, -⟩ | ⟨hv, htable, u, hu, haddress⟩
      · rw [hv]
        exact cover_spec hI hstop hD
      · rw [hv, htable, haddress]
        refine ih ⟨Nat.le_of_succ_le hD.level_le, ?_, ?_, ?_⟩
        · rw [hsucc]
          exact hu
        · rw [hsucc]
          exact hD.guards.snoc hD.table hd
        · exact spans_of_entryIndex_eq hD.spans hindex
    · exact cover_spec hI hstop hD

lemma lock_spec (hI : h.Inv B.user r) (hroot : s.root = some r) (hlevel : s.maxLevel = 3)
    (hstop : stop.toNat ≤ 2 ^ 48) (start : UInt64) :
    ∃ c, s.lock h start stop = .ok c ∧ c.start = start ∧ c.stop = stop ∧ c.Valid s r h := by
  have hD : s.Descent r h start stop [] 3 r := by
    refine ⟨Nat.le_refl 3, rfl, ?_, ?_⟩
    · intro pa d hmem
      cases hmem
    · intro hlt
      rw [UInt64.lt_iff_toNat_lt] at hlt
      unfold entryCover pageShift
      omega
  obtain ⟨c, hc, hstart, hend, hvalid⟩ := lockFrom_spec hI hstop hD
  refine ⟨c, ?_, hstart, hend, hvalid⟩
  simp only [lock, rootMut, hroot, hlevel, bind, Except.bind, hc]

end AddressSpace

end Mars.Vm
