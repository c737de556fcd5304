import Mars.Paging.Apart
import Mars.Paging.TableEntries

/-!
# Copies are independent

The copy that `clone_page_tables` makes translates like the original and shares no table with it.
Later calls of `map_page` and `unmap_page` on one of the two leave the other one unchanged, until
`map_page` is called inside a block of level 2. Such a call writes an entry to whatever is at the
address of the block, and it changes a translation of the other tree exactly if that entry is on
the walk of some address there.
-/

namespace Mars.Paging

open Lib.NodeTree Heap

variable {AP SH X : Type} {A : TableAllocator X} {S : AllocatorSpec A identity}
  {H H' H₁ : Heap AP SH X} {f g : Nodes UInt64 Index (Tte AP SH)} {r r' t u va : UInt64}
  {p q : List Index} {i j : Index} {n m : TTable AP SH} {e : Tte AP SH}

/-! ### Walks -/

/-- The entries on the walk for `va`, one in each level. -/
def walkOf (va : UInt64) : List Index := pathOf va ++ [calculateIndex va 3]

/-- Every list of indices is a walk, if the first one is an index of the root. -/
lemma exists_walkOf (i0 i1 i2 i3 : Index) (hroot : i0.val < 2) :
    ∃ va, walkOf va = [i0, i1, i2, i3] := by
  have hsize : i0.val * 2 ^ 47 + i1.val * 2 ^ 36 + i2.val * 2 ^ 25 + i3.val * 2 ^ 14 < 2 ^ 64 := by
    omega
  refine ⟨UInt64.ofNat (i0.val * 2 ^ 47 + i1.val * 2 ^ 36 + i2.val * 2 ^ 25 + i3.val * 2 ^ 14), ?_⟩
  simp only [walkOf, pathOf, calculateIndex, UInt64.toNat_ofNat_of_lt' hsize, List.cons_append,
    List.nil_append, List.cons.injEq, Fin.ext_iff, and_true]
  refine ⟨?_, ?_, ?_, ?_⟩ <;> omega

namespace Heap

/-- The entry `i` of the table `t` is on the walk of some address. -/
def OnWalk (r : UInt64) (H : Heap AP SH X) (t : UInt64) (i : Index) : Prop :=
  ∃ p va, p ++ [i] <+: walkOf va ∧ H.tableOn identity r p = some t

lemma length_of_walk (hpre : p ++ [i] <+: walkOf va) : p.length ≤ 3 := by
  have hlen := hpre.length_le
  simp only [walkOf, pathOf, List.length_append, List.length_cons, List.length_nil] at hlen
  omega

lemma tableOn_of_present (hp : H.tableOn identity r p = some t) (he : H.present t i = some e)
    (htable : e.isTable = true) :
    H.tableOn identity r (p ++ [i]) = some (identity.physToDmap e.address) := by
  obtain ⟨n, hn, hv⟩ := Option.bind_eq_some_iff.1 he
  rw [Tte.valid?] at hv
  split_ifs at hv with hvalid
  cases hv
  rw [tableOn, follow_snoc_of_node hp hn, Tte.tableChild_of_table (by rw [hvalid, htable]; rfl)]

/-- The translation of an address depends on the entries on its walk only. -/
lemma translate_congr (hag : ∀ p i t, p ++ [i] <+: walkOf va → H.tableOn identity r p = some t →
    H'.present t i = H.present t i) : H'.translate identity r va = H.translate identity r va := by
  have hroot : H.tableOn identity r [] = some r := rfl
  rw [translate, translate, hag [] _ r ⟨[_, _, _], rfl⟩ hroot]
  refine Option.bind_congr fun e0 h0 => ?_
  split_ifs with ht0
  · have h1 := tableOn_of_present hroot h0 ht0
    rw [hag [_] _ _ ⟨[_, _], rfl⟩ h1]
    refine Option.bind_congr fun e1 he1 => ?_
    split_ifs with ht1
    · have h2 := tableOn_of_present h1 he1 ht1
      rw [hag [_, _] _ _ ⟨[_], rfl⟩ h2]
      refine Option.bind_congr fun e2 he2 => ?_
      split_ifs with ht2
      · have h3 := tableOn_of_present h2 he2 ht2
        rw [hag [_, _, _] _ _ List.prefix_rfl h3]
      · rfl
    · rfl
  · rfl

lemma translate_eq_of_inTree (hag : ∀ t, H.InTree r t → H'.tables t = H.tables t) (va : UInt64) :
    H'.translate identity r va = H.translate identity r va := by
  refine translate_congr fun p i t hpre hp => ?_
  rw [present, present, hag t (inTree_of_tableOn hp (length_of_walk hpre))]

/-- The entry above a table of the tree. -/
lemma present_of_child (hp : H.tableOn identity r p = some t)
    (hpi : H.tableOn identity r (p ++ [i]) = some u) :
    ∃ e, H.present t i = some e ∧ e.isTable = true ∧ identity.physToDmap e.address = u := by
  rw [tableOn, follow_snoc, show follow _ H.tables r p = some t from hp, Option.bind_some] at hpi
  obtain ⟨n, hn, hchild⟩ := Option.bind_eq_some_iff.1 hpi
  rw [Tte.tableChild] at hchild
  split_ifs at hchild with htable
  rw [Bool.and_eq_true] at htable
  refine ⟨n i, ?_, htable.2, Option.some.inj hchild⟩
  rw [present, hn, Option.bind_some, Tte.valid?, if_pos htable.1]

lemma translate_of_tableOn (hp : H.tableOn identity r (pathOf va) = some t)
    (he : H.present t (calculateIndex va 3) = some e) (htable : e.isTable = true) :
    H.translate identity r va = some e.mapping := by
  have hroot : H.tableOn identity r [] = some r := rfl
  obtain ⟨l1, h1⟩ := follow_of_prefix (p := [calculateIndex va 0]) ⟨[_, _], rfl⟩ hp
  obtain ⟨l2, h2⟩ := follow_of_prefix (p := [calculateIndex va 0, calculateIndex va 1])
    ⟨[_], rfl⟩ hp
  obtain ⟨e0, he0, ht0, rfl⟩ := present_of_child hroot h1
  obtain ⟨e1, he1, ht1, rfl⟩ := present_of_child h1 h2
  obtain ⟨e2, he2, ht2, rfl⟩ := present_of_child h2 hp
  simp only [translate, he0, he1, he2, he, ht0, ht1, ht2, htable, Option.bind_some, if_true]

/-! ### Writing to a table of the other tree -/

/-- The entry that `map_page` writes on the tree below `r`, inside of a block, is on the walk of
some address of the tree below `r'`. -/
def Collides (r r' : UInt64) (H : Heap AP SH X) (va : UInt64) : Prop :=
  ∃ e, H.blockAt identity r [calculateIndex va 0, calculateIndex va 1] (calculateIndex va 2) =
    some e ∧ H.OnWalk r' e.address (calculateIndex va 3)

lemma present_put_of_ne (hne : ¬ (u = t ∧ j = i)) : (H.put t i e).present u j = H.present u j := by
  by_cases hu : u = t
  · subst hu
    have hj : j ≠ i := fun hj => hne ⟨rfl, hj⟩
    cases hn : H.tables u with
    | none => simp [present, put, setEntry, hn]
    | some n => simp [present, put, setEntry, hn, hj]
  · rw [present, present, put]
    simp only [setEntry_of_ne hu]

/-- An entry that is on no walk can be written. -/
lemma translate_put (hoff : ¬ H.OnWalk r t i) (e : Tte AP SH) (va : UInt64) :
    (H.put t i e).translate identity r va = H.translate identity r va := by
  refine translate_congr fun p j u hpre hp => present_put_of_ne ?_
  rintro ⟨rfl, rfl⟩
  exact hoff ⟨p, va, hpre, hp⟩

/-- Every mapping of a page differs from some other one at the same address. -/
lemma exists_attrs_ne [Inhabited AP] [Inhabited SH] (old : Option (Mapping AP SH)) (pa : UInt64) :
    ∃ attrs, old ≠ some ⟨pa, attrs⟩ := by
  cases old with
  | none => exact ⟨⟨default, default, false, false, 0⟩, nofun⟩
  | some m =>
    refine ⟨{ m.attrs with uxn := !m.attrs.uxn }, ?_⟩
    intro heq
    have huxn := congrArg (fun m => m.attrs.uxn) (Option.some.inj heq)
    simp at huxn

/-- The walk that goes through an entry and then through the same entry of every table. -/
lemma exists_walk_replicate (hpre : p ++ [i] <+: walkOf va) : ∃ va',
    pathOf va' = p ++ List.replicate (3 - p.length) i ∧ calculateIndex va' 3 = i := by
  have hlen := length_of_walk hpre
  have hlt : (calculateIndex va 0).val < 2 := Nat.mod_lt _ (Nat.zero_lt_two)
  obtain ⟨s, hs⟩ := hpre
  have hsplit : ∀ i0 i1 i2 i3 : Index, i0.val < 2 → ∃ va', pathOf va' = [i0, i1, i2] ∧
      calculateIndex va' 3 = i3 := by
    intro i0 i1 i2 i3 hroot
    obtain ⟨va', hva'⟩ := exists_walkOf i0 i1 i2 i3 hroot
    have hparts := List.append_inj' (show pathOf va' ++ [calculateIndex va' 3] =
      [i0, i1, i2] ++ [i3] from hva') rfl
    exact ⟨va', hparts.1, (List.cons.inj hparts.2).1⟩
  rcases p with - | ⟨i0, - | ⟨i1, - | ⟨i2, - | ⟨i3, p⟩⟩⟩⟩
  case cons.cons.cons.cons =>
    simp only [List.length_cons] at hlen
    omega
  all_goals
    obtain ⟨rfl, -⟩ := List.cons.inj hs
    exact hsplit _ _ _ _ hlt

/-- A page at the address of the table that its own entry is in: the walk through the entry comes
back to it until it ends, so that some address is translated to this page. -/
lemma translate_put_self (hwf : H.WellFormed r) (hon : H.OnWalk r t i) : ∃ va, ∀ attrs,
    (H.put t i (pageEntry t attrs)).translate identity r va = some ⟨t, attrs⟩ := by
  obtain ⟨p, va₀, hpre, hp⟩ := hon
  have hpd := length_of_walk hpre
  obtain ⟨va, hpath, hi⟩ := exists_walk_replicate hpre
  obtain ⟨n, hn⟩ := hwf.alive t (inTree_of_tableOn hp hpd)
  refine ⟨va, fun attrs => ?_⟩
  have hself : (H.put t i (pageEntry t attrs)).tables t =
      some (Function.update n i (pageEntry t attrs)) := setEntry_self hn
  have hp' : (H.put t i (pageEntry t attrs)).tableOn identity r p = some t := by
    rw [← hp]
    refine follow_congr fun q j b hq hb => ?_
    have hlen := hq.length_le
    rw [List.length_append, List.length_singleton] at hlen
    have hbt : b ≠ t := by
      rintro rfl
      obtain rfl := hwf.inj p q b hpd (by omega) hp hb
      omega
    rw [show (H.put t i (pageEntry t attrs)).tables b = H.tables b from setEntry_of_ne hbt]
  have hloop : (H.put t i (pageEntry t attrs)).tableOn identity t
      (List.replicate (3 - p.length) i) = some t := by
    refine follow_replicate hself ?_ _
    rw [Function.update_self]
    rfl
  rw [← pageEntry_mapping t attrs]
  refine translate_of_tableOn (t := t) ?_ ?_ rfl
  · rw [hpath, tableOn, follow_append, show follow _ _ r p = some t from hp', Option.bind_some]
    exact hloop
  · rw [hi, present, hself, Option.bind_some, Function.update_self]
    rfl

end Heap

/-! ### `map_page` inside a block -/

section Mapper

variable [Inhabited AP] [Inhabited SH]

/-- `map_page` inside a block of level 2 takes the address of the block for that of a table. -/
lemma mapPage_of_block (hwf : H.WellFormed r)
    (he : H.blockAt identity r [calculateIndex va 0, calculateIndex va 1] (calculateIndex va 2) =
      some e) (pa : UInt64) (attrs : Attributes AP SH) :
    mapPage A identity H r pa va attrs =
      H.writeEntry e.address (calculateIndex va 3) (pageEntry pa attrs) := by
  have hroot : H.tableOn identity r [] = some r := rfl
  -- an entry above a table passes the test of the upper levels
  have hdown : ∀ {p t i u}, H.tableOn identity r p = some t → p.length < 3 →
      H.tableOn identity r (p ++ [i]) = some u →
      childTable A identity hasTableAddress H t i = .ok (u, H) := by
    intro p t i u hp hpd hpi
    obtain ⟨n, hn⟩ := hwf.alive t (inTree_of_tableOn hp hpd.le)
    obtain ⟨e, hpresent, htable, rfl⟩ := present_of_child hp hpi
    rw [Heap.present, hn, Option.bind_some, Tte.valid?] at hpresent
    split_ifs at hpresent with hv
    cases hpresent
    have hpass : hasTableAddress (n i) = true := by
      rcases hwf.upper p t n hpd hp hn i with hblock | hcoherent
      · rw [Tte.isBlock_of_table htable] at hblock
        cases hblock
      · rw [hcoherent.hasTableAddress_eq, hv]
    rw [childTable, readEntry_eq hn]
    simp only [bind, Except.bind, hpass, if_true]
  obtain ⟨l2, h2, hblock⟩ := Option.bind_eq_some_iff.1 he
  obtain ⟨l1, h1⟩ := follow_of_prefix (p := [calculateIndex va 0]) ⟨[_], rfl⟩ h2
  obtain ⟨n, hn⟩ := alive_of_block hblock
  rw [block_eq hn] at hblock
  split_ifs at hblock with hisBlock
  obtain rfl := Option.some.inj hblock
  rw [Tte.isBlock, Bool.and_eq_true] at hisBlock
  have hlast : childTable A identity Tte.isValid H l2 (calculateIndex va 2) =
      .ok ((n (calculateIndex va 2)).address, H) := by
    rw [childTable, readEntry_eq hn]
    simp only [bind, Except.bind, hisBlock.1, if_true]
    rfl
  rw [mapPage, hdown hroot (by simp) h1]
  simp only [bind, Except.bind]
  rw [hdown h1 (by simp) h2]
  simp only [hlast]

/-- What `map_page` and `unmap_page` on the tree below `r` do to the translations of the tree
below `r'`. -/
structure Heap.Independent (A : TableAllocator X) (r r' : UInt64) (H : Heap AP SH X) : Prop where
  unmapPage : ∀ va H', unmapPage A identity H r va = .ok H' →
    ∀ va', H'.translate identity r' va' = H.translate identity r' va'
  mapPage_iff : ∀ va, (∀ pa attrs H', mapPage A identity H r pa va attrs = .ok H' →
    ∀ va', H'.translate identity r' va' = H.translate identity r' va') ↔ ¬ H.Collides r r' va

lemma PageCall.Clear.translate_eq {c : PageCall AP SH} (hH : H.Apart S r r') (hclear : c.Clear r H)
    (hok : c.run A r H = .ok H') :
    H'.Apart S r r' ∧ ∀ va, H'.translate identity r' va = H.translate identity r' va := by
  have hapart := hclear.apart (A := A) hH
  rw [hok] at hapart
  exact ⟨hapart.1, translate_eq_of_inTree hapart.2⟩

lemma Heap.Apart.independent (hH : H.Apart S r r') : H.Independent A r r' := by
  constructor
  · intro va H' hok
    exact (PageCall.Clear.translate_eq (c := .unmapPage va) hH trivial hok).2
  · intro va
    constructor
    · rintro hsame ⟨e, he, hon⟩
      obtain ⟨p, va₀, hpre, hp⟩ := id hon
      obtain ⟨n, hn⟩ := hH.right.alive _ (inTree_of_tableOn hp (length_of_walk hpre))
      obtain ⟨va', hva'⟩ := translate_put_self hH.right hon
      obtain ⟨attrs, hne⟩ := exists_attrs_ne (H.translate identity r' va') e.address
      refine hne ((hsame e.address attrs _ ?_ va').symm.trans (hva' attrs))
      rw [mapPage_of_block hH.left he]
      exact writeEntry_eq hn _ _
    · intro hnot pa attrs H' hok va'
      cases he : H.blockAt identity r [calculateIndex va 0, calculateIndex va 1]
          (calculateIndex va 2) with
      | none => exact (PageCall.Clear.translate_eq (c := .mapPage pa va attrs) hH he hok).2 va'
      | some e =>
        rw [mapPage_of_block hH.left he] at hok
        cases hn : H.tables e.address with
        | none =>
          rw [Heap.writeEntry, hn] at hok
          cases hok
        | some n =>
          rw [writeEntry_eq hn] at hok
          rw [← Except.ok.inj hok]
          exact translate_put (fun hon => hnot ⟨e, he, hon⟩) _ va'

/-! ### The copy -/

lemma Copies.alive {level : Nat} (hcopies : Copies f g level t u) : ∃ n, g u = some n := by
  cases level with
  | zero =>
    obtain ⟨n, -, hn⟩ := hcopies
    exact ⟨n, hn⟩
  | succ level =>
    obtain ⟨-, n, -, hn, -⟩ := hcopies
    exact ⟨n, hn⟩

lemma Heap.ClonedTo.wellFormed (hwf : H.WellFormed r)
    (hcloned : H.ClonedTo S H.tables 3 r r' g H') :
    ({ H' with tables := g } : Heap AP SH X).WellFormed r' := by
  refine ⟨?_, hcloned.tree.inj, ?_, ?_⟩
  · rintro t ⟨p, hp, hpt⟩
    exact hcloned.tree.alive p t hp hpt
  · intro p u m hp hpu hm i
    obtain ⟨t, ht, hcopies⟩ := hcloned.copies.follow hp.le hpu
    obtain ⟨level, hlevel⟩ : ∃ level, 3 - p.length = level + 1 := ⟨2 - p.length, by omega⟩
    rw [hlevel] at hcopies
    obtain ⟨n, m', hn, hm', hentries⟩ := hcopies
    obtain rfl : m = m' := Option.some.inj (hm.symm.trans hm')
    generalize hi : m i = e'
    have hentry := hentries i
    rw [hi] at hentry
    cases hentry with
    | invalid hv => exact .inr (.inr ⟨rfl, rfl⟩)
    | block hv htable =>
      refine .inl ?_
      rw [Tte.isBlock, hv, htable]
      rfl
    | table hv htable hc =>
      obtain ⟨n', hn'⟩ := hc.alive
      exact .inr (.inl ⟨hv, htable, hcloned.grows.nonzero _ n' hn', rfl⟩)
  · intro p u m hp hpu hm i
    obtain ⟨t, ht, hcopies⟩ := hcloned.copies.follow hp.le hpu
    rw [hp, Nat.sub_self] at hcopies
    obtain ⟨n, hn, hm'⟩ := hcopies
    obtain rfl : m = n := Option.some.inj (hm.symm.trans hm')
    exact hwf.page p t m hp ht hn i

lemma Heap.ClonedTo.apart (hwf : H.WellFormed r) (howned : H.Owned S)
    (hcloned : H.ClonedTo S H.tables 3 r r' g H') : H'.Apart S r r' := by
  have hold : ∀ t, H.InTree r t → H'.tables t = H.tables t := by
    intro t ht
    obtain ⟨n, hn⟩ := hwf.alive t ht
    rw [hcloned.grows.of_old hn, hn]
  have hwf' := hcloned.wellFormed hwf
  have hnew : ∀ t, ({ H' with tables := g } : Heap AP SH X).InTree r' t → H'.tables t = g t := by
    intro t ht
    obtain ⟨n, hn⟩ := hwf'.alive t ht
    rw [hcloned.grows.of_new howned hn]
    exact hn.symm
  refine ⟨hcloned.grows.owned howned, hwf.congr hold, hwf'.congr hnew, ?_⟩
  intro t ht ht'
  obtain ⟨n, hn⟩ := hwf.alive t ((reached_congr hold).1 ht)
  obtain ⟨m, hm⟩ := hwf'.alive t ((reached_congr hnew).1 ht')
  rw [howned.disjoint hcloned.grows hm] at hn
  cases hn

/-! ### Runs -/

/-- Histories of calls on the given trees that returned and were not `map_page` inside a block. -/
inductive CallsOn (A : TableAllocator X) (roots : List UInt64) (H : Heap AP SH X) :
    Heap AP SH X → Prop where
  | init : CallsOn A roots H H
  | call {H₁ H₂ : Heap AP SH X} {s : UInt64} (c : PageCall AP SH) (hrun : CallsOn A roots H H₁)
      (hs : s ∈ roots) (hclear : c.Clear s H₁) (hok : c.run A s H₁ = .ok H₂) :
      CallsOn A roots H H₂

lemma CallsOn.apart (hH : H.Apart S r r') (hrun : CallsOn A [r, r'] H H') : H'.Apart S r r' := by
  induction hrun with
  | init => exact hH
  | call c hrun hs hclear hok ih =>
    rcases List.mem_cons.1 hs with rfl | hs
    · exact (hclear.translate_eq ih hok).1
    · obtain rfl := List.mem_singleton.1 hs
      exact (hclear.translate_eq ih.symm hok).1.symm

/-- Calls on one tree only. -/
lemma CallsOn.translate_eq (hH : H.Apart S r r') (hrun : CallsOn A [r] H H') :
    H'.Apart S r r' ∧ ∀ va, H'.translate identity r' va = H.translate identity r' va := by
  induction hrun with
  | init => exact ⟨hH, fun _ => rfl⟩
  | call c hrun hs hclear hok ih =>
    obtain rfl := List.mem_singleton.1 hs
    obtain ⟨hapart, hsame⟩ := hclear.translate_eq ih.1 hok
    exact ⟨hapart, fun va => (hsame va).trans (ih.2 va)⟩

/-- The tree below `r'` is an independent copy of the tree below `r`. -/
structure Heap.IndependentCopy (A : TableAllocator X) (r : UInt64) (H : Heap AP SH X) (r' : UInt64)
    (H₁ : Heap AP SH X) : Prop where
  copy : ∀ va, H₁.translate identity r' va = H.translate identity r va
  original : ∀ va, H₁.translate identity r va = H.translate identity r va
  disjoint : ∀ t, H₁.InTree r t → ¬ H₁.InTree r' t
  after_copy : ∀ H₂, CallsOn A [r'] H₁ H₂ →
    ∀ va, H₂.translate identity r va = H.translate identity r va
  after_original : ∀ H₂, CallsOn A [r] H₁ H₂ →
    ∀ va, H₂.translate identity r' va = H.translate identity r va
  /-- Whatever was called on both, the next call on one of them changes a translation of the other
  one exactly if it writes to an entry there, from inside a block. -/
  independent : ∀ H₂, CallsOn A [r, r'] H₁ H₂ → H₂.Independent A r r' ∧ H₂.Independent A r' r

/-- `clone_page_tables` makes an independent copy of a well-formed tree. -/
theorem clonePageTables_independent (S : AllocatorSpec A identity) (hwf : H.WellFormed r)
    (howned : H.Owned S) :
    Gives A (clonePageTables A H r) fun res => H.IndependentCopy A r res.1 res.2 := by
  have hread : Readable H.tables 3 r := fun p u hp hu => hwf.alive u ⟨p, hp, hu⟩
  refine (cloneLevel_spec (S := S) howned (fun _ _ hn => hn) hread).mono ?_
  rintro ⟨r', H₁⟩ ⟨g, hcloned⟩
  have hapart := hcloned.apart hwf howned
  have hold : ∀ t n, H.tables t = some n → H₁.tables t = some n :=
    fun t n hn => hcloned.grows.of_old hn
  have horiginal : ∀ va, H₁.translate identity r va = H.translate identity r va := by
    refine translate_eq_of_inTree fun t ht => ?_
    obtain ⟨n, hn⟩ := hwf.alive t ht
    rw [hold t n hn, hn]
  have hcopy : ∀ va, H₁.translate identity r' va = H.translate identity r va := by
    intro va
    rw [← horiginal va]
    exact (hcloned.copies.translate_eq hold (fun t n hn => hcloned.grows.of_new howned hn) va).symm
  refine ⟨hcopy, horiginal, hapart.disjoint, ?_, ?_, ?_⟩
  · intro H₂ hrun va
    rw [(hrun.translate_eq hapart.symm).2 va, horiginal va]
  · intro H₂ hrun va
    rw [(hrun.translate_eq hapart).2 va, hcopy va]
  · intro H₂ hrun
    have hapart₂ := hrun.apart hapart
    exact ⟨hapart₂.independent, hapart₂.symm.independent⟩

end Mapper

/-! ### A small machine -/

/-- Hands out tables from 32 MiB on. -/
def highAllocator : TableAllocator Nat where
  allocTable n :=
    if n < 1000 then .ok (UInt64.ofNat (0x2000000 + n * 0x4000), n + 1) else .error .outOfMemory
  freeTable _ n := .ok n

lemma highAllocator_ok {n m : Nat} {t : UInt64} (h : highAllocator.allocTable n = .ok (t, m)) :
    t.toNat = 0x2000000 + n * 0x4000 ∧ m = n + 1 := by
  simp only [highAllocator] at h
  split_ifs at h with hlt
  cases h
  refine ⟨?_, rfl⟩
  rw [UInt64.toNat_ofNat', Nat.mod_eq_of_lt]
  omega

def highSpec : AllocatorSpec highAllocator identity where
  live n t := t.toNat < 0x2000000 + n * 0x4000
  fresh n t m h := by
    have ht := (highAllocator_ok h).1
    omega
  phys_ne_zero n t m h := by
    have ht := (highAllocator_ok h).1
    rintro rfl
    rw [UInt64.toNat_zero] at ht
    omega
  translate n t m _ := rfl
  live_alloc n t m h u hu := by
    obtain ⟨ht, rfl⟩ := highAllocator_ok h
    rw [Nat.add_mul]
    rcases hu with rfl | hu
    · omega
    · exact Nat.lt_of_lt_of_le hu (Nat.add_le_add_left (Nat.le_add_right _ _) _)
  alloc_error n e h := by
    rw [highAllocator] at h
    dsimp only at h
    split_ifs at h with hlt
    exact (Except.error.inj h).symm
  free_ok n t _ := ⟨n, rfl⟩
  live_free n t m h u _ hu := by
    cases h
    exact hu

/-- A tree with one block, of 32 MiB at 32 MiB. -/
def oneBlock (A : TableAllocator Nat) : Except Trap (Heap Bool Bool Nat) :=
  mapL2Block A identity (Heap.init 0x4000 0) 0x4000 0x2000000 0x2000000 sampleAttrs

lemma oneBlock_treeOf {A : TableAllocator Nat} {S : AllocatorSpec A identity}
    {H : Heap Bool Bool Nat} (hr : S.live 0 0x4000) (hok : oneBlock A = .ok H) :
    H.TreeOf S 0x4000 := by
  have hnotable : (Heap.init 0x4000 0 : Heap Bool Bool Nat).tableOn identity 0x4000
      (pathOf 0x2000000) = none := by decide +kernel
  have hrun : ClearRun A identity 0x4000 0 H :=
    .op (.call (.mapL2Block 0x2000000 0x2000000 sampleAttrs)) .init
      ⟨hnotable, fun _ _ => trivial⟩ hok
  have hB := hrun.blockInv hr
  exact ⟨hB.tree, fun q j hq => hB.level q j (by omega) (by omega)⟩

/-- The block contains the tables that map it, and its address is that of the level 1 table. A
page that is mapped inside the block in the copy overwrites the first entry of that table, and the
original does not map the block any more. -/
theorem mapPage_in_copy_changes_original : ∃ (H H₁ H₂ : Heap Bool Bool Nat) (new : UInt64),
    H.WellFormed 0x4000 ∧ H.Owned highSpec ∧
    clonePageTables highAllocator H 0x4000 = .ok (new, H₁) ∧
    mapPage highAllocator identity H₁ new 0x80000 0x2000000 sampleAttrs = .ok H₂ ∧
    H₁.translate identity 0x4000 0x2000000 = some ⟨0x2000000, sampleAttrs⟩ ∧
    H₂.translate identity 0x4000 0x2000000 = none := by
  have hrun : (oneBlock highAllocator >>= fun H =>
      clonePageTables highAllocator H 0x4000 >>= fun res =>
      mapPage highAllocator identity res.2 res.1 0x80000 0x2000000 sampleAttrs >>= fun H₂ =>
      .ok (res.2.translate identity 0x4000 0x2000000, H₂.translate identity 0x4000 0x2000000)) =
      .ok (some ⟨0x2000000, sampleAttrs⟩, none) := by
    decide +kernel
  obtain ⟨H, hH, hrun⟩ := ok_of_bind hrun
  obtain ⟨⟨new, H₁⟩, hclone, hrun⟩ := ok_of_bind hrun
  obtain ⟨H₂, hmap, hrun⟩ := ok_of_bind hrun
  have hT : H.TreeOf highSpec 0x4000 := oneBlock_treeOf (show 0x4000 < 0x2000000 by decide) hH
  obtain ⟨h₁, h₂⟩ := Prod.mk.inj (Except.ok.inj hrun)
  exact ⟨H, H₁, H₂, new, hT.wellFormed, hT.owned, hclone, hmap, h₁, h₂⟩

theorem clone_of_block_independent : ∃ (H H₁ : Heap Bool Bool Nat) (new : UInt64),
    clonePageTables bumpAllocator H 0x4000 = .ok (new, H₁) ∧
    H.translate identity 0x4000 0x2004000 = some ⟨0x2004000, sampleAttrs⟩ ∧
    H.IndependentCopy bumpAllocator 0x4000 new H₁ := by
  have hrun : (oneBlock bumpAllocator >>= fun H =>
      clonePageTables bumpAllocator H 0x4000 >>= fun _ =>
      .ok (H.translate identity 0x4000 0x2004000)) =
      .ok (some ⟨0x2004000, sampleAttrs⟩) := by
    decide +kernel
  obtain ⟨H, hH, hrun⟩ := ok_of_bind hrun
  obtain ⟨⟨new, H₁⟩, hclone, hrun⟩ := ok_of_bind hrun
  have hT : H.TreeOf bumpSpec 0x4000 := oneBlock_treeOf le_rfl hH
  have hcopy := clonePageTables_independent bumpSpec hT.wellFormed hT.owned
  rw [hclone] at hcopy
  exact ⟨H, H₁, new, hclone, Except.ok.inj hrun, hcopy⟩

/-! ### The tables that a tree has -/

variable [Inhabited AP] [Inhabited SH] {tr : AddressTranslator} {S : AllocatorSpec A tr}
  {h : Heap AP SH X} {x : X} {Φ : Translation AP SH}

/-- In every history, a table below the root is there exactly if it is on the way to a page that
is mapped. -/
theorem Run.table_iff (hr : S.live x r) (hrun : Run A tr r x h Φ) (va : UInt64) {n : Nat}
    (hn : n < 3) : (h.tableAt tr r ((pathOf va).take (n + 1))).isSome ↔
      ∃ va', (pathOf va).take (n + 1) <+: pathOf va' ∧ (Φ (pageNumber va')).isSome := by
  have hR := hrun.represents hr
  constructor
  · intro htable
    by_contra hnone
    have hdoomed : Doomed tr r h ((pathOf va).take (n + 1)) fun _ _ => False := by
      refine ⟨fun p m _ => hR.occupied p m trivial, fun q i hq hpre hsome => hnone ?_⟩
      obtain ⟨i0, i1, i2, rfl⟩ := List.length_eq_three.1 hq
      -- the path starts at an entry of the root that addresses have
      obtain ⟨rfl, -⟩ := List.cons_prefix_cons.1 hpre
      obtain ⟨va', hva'⟩ := exists_walkOf _ i1 i2 i (calculateIndex_root_lt va)
      obtain ⟨hpath, rfl⟩ : pathOf va' = [calculateIndex va 0, i1, i2] ∧
          calculateIndex va' 3 = i := by
        simpa [walkOf, pathOf, and_assoc] using hva'
      refine ⟨va', hpath ▸ hpre, ?_⟩
      rwa [← hR.entry, Option.isSome_map, hpath]
    have hlen := (List.length_take_le (n + 1) (pathOf va)).trans hn
    exact Option.isSome_iff_ne_none.1 htable (hdoomed.gone hR.inv (List.cons_ne_nil _ _) hlen)
  · rintro ⟨va', hpre, hpage⟩
    rw [← hR.entry, Option.isSome_map] at hpage
    obtain ⟨e, he⟩ := Option.isSome_iff_exists.1 hpage
    obtain ⟨t, ht⟩ := Heap.tableAt_of_entryAt he
    obtain ⟨u, hu⟩ := Heap.tableAt_of_prefix hpre ht
    exact Option.isSome_of_eq_some hu

theorem table_after_mapPage : ∃ (h : Heap Bool Bool Nat) (Φ : Translation Bool Bool),
    Run bumpAllocator identity 0x4000 0 h Φ ∧
      (h.tableAt identity 0x4000 ((pathOf 0x7fff0000).take 3)).isSome := by
  let o : Op Bool Bool := .mapPage 0x80000 0x7fff0000 ⟨true, true, false, false, 1⟩
  obtain ⟨h, hrun⟩ : ∃ h, Run bumpAllocator identity 0x4000 0 h (o.apply fun _ => none) :=
    ⟨_, .op o .init rfl⟩
  refine ⟨h, _, hrun, (Run.table_iff (S := bumpSpec) (Nat.le_refl _) hrun _ (by decide)).2 ?_⟩
  refine ⟨0x7fff0000, List.take_prefix _ _, ?_⟩
  rw [Op.apply, Function.update_self, Option.isSome_some]

end Mars.Paging
