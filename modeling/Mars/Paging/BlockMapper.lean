import Mars.Paging.Mapper
import Mars.Paging.Reclaim

/-!
# Writing blocks and finding them

What `map_l2_block` does to a tree, and what the memory management unit finds in a tree in which
some entries map blocks, in terms of the tree that is left when the blocks are erased and of the
blocks themselves.
-/

namespace Mars.Paging

open Function Lib.NodeTree Heap Tte

variable {AP SH X : Type} {A : TableAllocator X} {tr : AddressTranslator}
  {S : AllocatorSpec A tr} {h h' : Heap AP SH X} {r t u : UInt64} {p q : List Index} {i j : Index}
  {n m : TTable AP SH} {e : Tte AP SH} {va pa : UInt64} {attrs : Attributes AP SH}

/-! ### Writing a block -/

namespace Heap

section Invalid

variable (hI : h.Inv S r) (hp : h.tableAt tr r p = some t) (hpd : p.length < 3)
  (hn : h.tables t = some n) (hv : (n i).isValid = false) (he : e.isValid = false)

include hn hv he

/-- An invalid entry that replaces an invalid one is on no path. -/
lemma tableAt_put_invalid (q : List Index) : (h.put t i e).tableAt tr r q = h.tableAt tr r q := by
  refine follow_setEntry_of_child_eq hn ?_
  rw [child_of_not_valid he, child_of_not_valid hv]

include hI hp hpd

lemma Inv.entriesAt_put_invalid (hq : q.length ≤ 3) : (h.put t i e).entriesAt tr r q =
    if q = p then some (Function.update n i e) else h.entriesAt tr r q := by
  have htable : follow (Tte.child tr) (h.put t i e).tables r q = h.tableAt tr r q :=
    tableAt_put_invalid hn hv he q
  rw [entriesAt, nodeAt, htable]
  by_cases hqp : q = p
  · rw [if_pos hqp, hqp, hp, Option.bind_some]
    exact setEntry_self hn
  · rw [if_neg hqp, entriesAt, nodeAt]
    refine Option.bind_congr fun b hb => ?_
    have hbt : b ≠ t := by
      rintro rfl
      exact hqp (hI.tree.inj _ _ _ hq hpd.le hb hp)
    exact setEntry_of_ne hbt

lemma Inv.put_invalid (ha : e.address = 0) : (h.put t i e).Inv S r := by
  have hold : h.entriesAt tr r p = some n := (nodeAt_of_follow hp).trans hn
  refine ⟨hI.tree.of_follow_eq (fun q _ => tableAt_put_invalid hn hv he q)
    fun b => setEntry_isSome, ?_, ?_, hI.owned_put, hI.logged_put⟩
  · intro q m hq hm j
    rw [hI.entriesAt_put_invalid hp hpd hn hv he hq.le] at hm
    split_ifs at hm with hqp
    · cases hm
      by_cases hji : j = i
      · rw [hji, Function.update_self]
        exact .inr ⟨he, ha⟩
      · rw [Function.update_of_ne hji]
        exact hI.coherent p n hpd hold j
    · exact hI.coherent q m hq hm j
  · intro q m hq hm j hj
    rw [hI.entriesAt_put_invalid hp hpd hn hv he hq.le] at hm
    rw [if_neg] at hm
    · exact hI.page q m hq hm j hj
    · rintro rfl
      exact absurd hpd (not_lt.2 hq.symm.le)

lemma Inv.entryAt_put_invalid (hq : q.length = 3) (j : Index) :
    (h.put t i e).entryAt tr r q j = h.entryAt tr r q j := by
  have hqp : q ≠ p := by
    rintro rfl
    exact absurd hpd (not_lt.2 hq.symm.le)
  rw [entryAt, hI.entriesAt_put_invalid hp hpd hn hv he hq.le, if_neg hqp, entryAt]

end Invalid

end Heap

structure Heap.MapsBlock (S : AllocatorSpec A tr) (r : UInt64) (h : Heap AP SH X) (va : UInt64)
    (e : Tte AP SH) (h' : Heap AP SH X) : Prop where
  inv : h'.erase.Inv S r
  extension : h.erase.Extends S r h'.erase
  tableAt_of_ne : ∀ q, q.length ≤ 3 → ¬ q <+: [calculateIndex va 0, calculateIndex va 1] →
    h'.erase.tableAt tr r q = h.erase.tableAt tr r q
  entryAt : ∀ q j, q.length = 3 → h'.erase.entryAt tr r q j = h.erase.entryAt tr r q j
  blockAt : ∀ q j, q.length ≤ 3 → h'.blockAt tr r q j =
    if q = [calculateIndex va 0, calculateIndex va 1] ∧ j = calculateIndex va 2 then some e
    else h.blockAt tr r q j

/-- `map_l2_block` writes one block, if there is no level 3 table in its place. -/
lemma mapL2Block_spec [Inhabited AP] [Inhabited SH] (hI : h.erase.Inv S r) (pa va : UInt64)
    (attrs : Attributes AP SH) (hnone : ∀ q j, q.length < 2 → h.blockAt tr r q j = none)
    (hclear : h.erase.tableAt tr r (pathOf va) = none) :
    Gives A (mapL2Block A tr h r pa va attrs) (h.MapsBlock S r va (blockEntry pa attrs)) := by
  refine opensL2_bind hI va fun l2 h₂ ho => ?_
  have hblock := ho.block_eq hnone
  have hslot : ¬ pathOf va <+: [calculateIndex va 0, calculateIndex va 1] := by
    intro hpre
    exact absurd hpre.length_le (by simp [pathOf])
  obtain ⟨n, hn, -⟩ := ho.inv.alive_erase ho.tableAt (by simp)
  have hn' := erase_tables_eq hn
  have hv : (n (calculateIndex va 2)).erase.isValid = false := by
    have hgone : h₂.erase.tableAt tr r (pathOf va) = none :=
      (ho.tableAt_of_ne _ (by simp [pathOf]) hslot).trans hclear
    rw [← tableAt_snoc_isSome ho.tableAt hn']
    exact Option.isSome_eq_false_iff.2 (Option.isNone_iff_eq_none.2 hgone)
  have hput : (h₂.put l2 (calculateIndex va 2) (blockEntry pa attrs)).erase =
      h₂.erase.put l2 (calculateIndex va 2) (blockEntry pa attrs).clear := by
    rw [put_erase, erase_of_block (blockEntry_isBlock pa attrs)]
  have htable : ∀ q, (h₂.erase.put l2 (calculateIndex va 2) (blockEntry pa attrs).clear).tableAt
      tr r q = h₂.erase.tableAt tr r q :=
    fun q => tableAt_put_invalid hn' hv rfl q
  simp only [writeEntry_eq hn]
  change h.MapsBlock S r va (blockEntry pa attrs)
    (h₂.put l2 (calculateIndex va 2) (blockEntry pa attrs))
  refine ⟨?_, ?_, ?_, ?_, ?_⟩
  · rw [hput]
    exact ho.inv.put_invalid ho.tableAt (by simp) hn' hv rfl rfl
  · rw [hput]
    refine ho.extension.trans ?_
    intro q t hq ht
    exact ⟨(htable q).trans ht, .refl _⟩
  · intro q hq hne
    rw [hput, htable q, ho.tableAt_of_ne q hq hne]
  · intro q j hq
    rw [hput, ho.inv.entryAt_put_invalid ho.tableAt (by simp) hn' hv rfl hq j, ho.entryAt q j hq]
  · intro q j hq
    have hold := blockAt_extends (i := j) hI ho.inv ho.extension hblock hq
    rw [← hold, Heap.blockAt, tableOn_eq, hput, htable q, Heap.blockAt, tableOn_eq]
    cases ht : h₂.erase.tableAt tr r q with
    | none =>
      rw [if_neg]
      · rfl
      · rintro ⟨rfl, -⟩
        rw [ho.tableAt] at ht
        cases ht
    | some t =>
      rw [Option.bind_some, Option.bind_some, block_put hn, blockEntry_isBlock, if_pos rfl]
      have hiff : t = l2 ↔ q = [calculateIndex va 0, calculateIndex va 1] := by
        constructor
        · rintro rfl
          exact ho.inv.tree.inj _ _ t hq (by simp) ht ho.tableAt
        · rintro rfl
          rw [ho.tableAt] at ht
          exact (Option.some.inj ht).symm
      simp only [hiff]

/-! ### Translation -/

namespace Heap

/-- An entry of a table of the tree is invalid, an entry for a table or a block. -/
lemma Inv.present_cases (hI : h.erase.Inv S r) (hp : h.erase.tableAt tr r p = some t)
    (hpd : p.length ≤ 3) (i : Index) :
    (h.present t i = none ∧ h.blockAt tr r p i = none ∧
      h.erase.tableAt tr r (p ++ [i]) = none ∧ h.erase.entryAt tr r p i = none) ∨
    (∃ e, h.present t i = some e ∧ e.isTable = true ∧ h.blockAt tr r p i = none ∧
      h.erase.tableAt tr r (p ++ [i]) = some (tr.physToDmap e.address) ∧
      h.erase.entryAt tr r p i = some e) ∨
    (∃ e, h.present t i = some e ∧ e.isTable = false ∧ h.blockAt tr r p i = some e ∧
      h.erase.tableAt tr r (p ++ [i]) = none ∧ h.erase.entryAt tr r p i = none) := by
  obtain ⟨n, hn, hentries⟩ := hI.alive_erase hp hpd
  have hpresent : h.present t i = (n i).valid? := by rw [present, hn, Option.bind_some]
  have hchild : h.erase.tableAt tr r (p ++ [i]) = (n i).tableChild tr := by
    rw [← child_erase]
    exact follow_snoc_of_node hp (erase_tables_eq hn)
  rw [hpresent, blockAt_eq hp, block_eq hn, hchild, entryAt_eq hentries, Tte.valid?, Tte.valid?,
    erase_isValid, Tte.tableChild]
  cases hv : (n i).isValid with
  | false => exact .inl ⟨rfl, by rw [isBlock_of_not_valid hv]; rfl, rfl, rfl⟩
  | true =>
    cases ht : (n i).isTable with
    | true =>
      have hblock := isBlock_of_table ht
      refine .inr (.inl ⟨n i, rfl, ht, by rw [hblock]; rfl, rfl, ?_⟩)
      rw [erase_of_not_block hblock]
      rfl
    | false =>
      have hblock : (n i).isBlock = true := by rw [Tte.isBlock, hv, ht]; rfl
      exact .inr (.inr ⟨n i, rfl, ht, by rw [hblock]; rfl, rfl, rfl⟩)

lemma blockAt_of_prefix_none (hp : h.erase.tableAt tr r p = none) (q : List Index) (i : Index) :
    h.blockAt tr r (p ++ q) i = none := by
  refine blockAt_of_none ?_
  rw [tableAt, follow_append, show follow _ h.erase.tables r p = none from hp]
  rfl

section Levels

variable (hI : h.erase.Inv S r) (hp : h.erase.tableAt tr r p = some t)

include hI hp

lemma Inv.translate_l3 (hpd : p.length = 3) (i : Index) :
    ((h.present t i).bind fun e => if e.isTable then some e.mapping else none) =
      (h.erase.entryAt tr r p i).map Tte.mapping := by
  rcases hI.present_cases hp hpd.le i with
    ⟨hpresent, -, -, he⟩ | ⟨e, hpresent, htable, -, -, he⟩ | ⟨e, hpresent, htable, -, -, he⟩
  · simp [hpresent, he]
  · simp [hpresent, htable, he]
  · simp [hpresent, htable, he]

lemma Inv.translate_l2 (hpd : p.length = 2) (i j : Index) (va : UInt64) :
    ((h.present t i).bind fun e2 => if e2.isTable then
        (h.present (tr.physToDmap e2.address) j).bind fun e3 =>
          if e3.isTable then some e3.mapping else none
      else some (e2.blockMapping (2 ^ l2BlockShift) va)) =
      ((h.erase.entryAt tr r (p ++ [i]) j).map Tte.mapping).or
        ((h.blockAt tr r p i).map (·.blockMapping (2 ^ l2BlockShift) va)) := by
  rcases hI.present_cases hp (by omega) i with
    ⟨hpresent, hb, hnext, -⟩ | ⟨e, hpresent, htable, hb, hnext, -⟩ |
      ⟨e, hpresent, htable, hb, hnext, -⟩
  · simp [hpresent, hb, entryAt_none (nodeAt_of_follow_none hnext)]
  · simp [hpresent, htable, hb, hI.translate_l3 hnext (by simp [hpd])]
  · simp [hpresent, htable, hb, entryAt_none (nodeAt_of_follow_none hnext)]

lemma Inv.translate_l1 (hpd : p.length = 1) (i j k : Index) (va : UInt64) :
    ((h.present t i).bind fun e1 => if e1.isTable then
        (h.present (tr.physToDmap e1.address) j).bind fun e2 => if e2.isTable then
          (h.present (tr.physToDmap e2.address) k).bind fun e3 =>
            if e3.isTable then some e3.mapping else none
        else some (e2.blockMapping (2 ^ l2BlockShift) va)
      else some (e1.blockMapping (2 ^ l1BlockShift) va)) =
      ((h.erase.entryAt tr r (p ++ [i] ++ [j]) k).map Tte.mapping).or
        (((h.blockAt tr r (p ++ [i]) j).map (·.blockMapping (2 ^ l2BlockShift) va)).or
          ((h.blockAt tr r p i).map (·.blockMapping (2 ^ l1BlockShift) va))) := by
  rcases hI.present_cases hp (by omega) i with
    ⟨hpresent, hb, hnext, -⟩ | ⟨e, hpresent, htable, hb, hnext, -⟩ |
      ⟨e, hpresent, htable, hb, hnext, -⟩
  · simp only [hpresent, hb, entryAt_of_prefix_none hnext, blockAt_of_none hnext]
    rfl
  · simp only [hpresent, htable, hb, Option.bind_some, if_true, Option.map_none, Option.or_none]
    exact hI.translate_l2 hnext (by simp [hpd]) j k va
  · simp only [hpresent, htable, hb, entryAt_of_prefix_none hnext, blockAt_of_none hnext,
      Option.bind_some, Bool.false_eq_true, if_false]
    rfl

end Levels

/-- The memory management unit finds a page, or a block of level 2, or a block of level 1. -/
lemma Inv.translate_eq (hI : h.erase.Inv S r) (va : UInt64) : h.translate tr r va =
    ((h.erase.entryAt tr r (pathOf va) (calculateIndex va 3)).map Tte.mapping).or
      (((h.blockAt tr r [calculateIndex va 0, calculateIndex va 1] (calculateIndex va 2)).map
          (·.blockMapping (2 ^ l2BlockShift) va)).or
        ((h.blockAt tr r [calculateIndex va 0] (calculateIndex va 1)).map
          (·.blockMapping (2 ^ l1BlockShift) va))) := by
  have hroot : h.erase.tableAt tr r [] = some r := rfl
  have hnone : h.erase.tableAt tr r [calculateIndex va 0] = none →
      h.erase.entryAt tr r (pathOf va) (calculateIndex va 3) = none ∧
      h.blockAt tr r [calculateIndex va 0, calculateIndex va 1] (calculateIndex va 2) = none ∧
      h.blockAt tr r [calculateIndex va 0] (calculateIndex va 1) = none := fun hnext =>
    ⟨entryAt_of_prefix_none hnext [_, _] _, blockAt_of_prefix_none hnext [_] _,
      blockAt_of_none hnext⟩
  rw [translate]
  rcases hI.present_cases hroot (by simp) (calculateIndex va 0) with
    ⟨hpresent, -, hnext, -⟩ | ⟨e, hpresent, htable, -, hnext, -⟩ |
      ⟨e, hpresent, htable, -, hnext, -⟩
  · obtain ⟨he, hb2, hb1⟩ := hnone hnext
    simp [hpresent, he, hb2, hb1]
  · rw [hpresent, Option.bind_some, if_pos htable]
    exact hI.translate_l1 hnext rfl _ _ _ va
  · obtain ⟨he, hb2, hb1⟩ := hnone hnext
    simp [hpresent, htable, he, hb2, hb1]

end Heap

end Mars.Paging
