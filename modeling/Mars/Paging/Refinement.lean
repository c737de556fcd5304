import Mars.Paging.Mapper

/-!
# Page tables refine a partial map

Seen through the walk of the hardware, a tree of page tables is a partial map from page numbers,
and every operation of the mapper updates that map at the pages it is given.
-/

namespace Mars.Paging

open Function Lib.NodeTree Heap

variable {AP SH X : Type} {A : TableAllocator X} {tr : AddressTranslator}

/-! ### Pages -/

/-- The number of a page among the 2³⁴ pages of a 48-bit address space. -/
def pageNumber (va : UInt64) : Nat := va.toNat / 2 ^ 14 % 2 ^ 34

lemma pageNumber_eq (va : UInt64) : pageNumber va =
    (((calculateIndex va 0).val * 2048 + (calculateIndex va 1).val) * 2048 +
      (calculateIndex va 2).val) * 2048 + (calculateIndex va 3).val := by
  simp only [pageNumber, calculateIndex]
  omega

/-- The indices of all levels together are the page number. -/
lemma pathOf_eq_iff (va va' : UInt64) :
    (pathOf va = pathOf va' ∧ calculateIndex va 3 = calculateIndex va' 3) ↔
      pageNumber va = pageNumber va' := by
  rw [pageNumber_eq, pageNumber_eq]
  simp only [pathOf, List.cons.injEq, and_true, Fin.ext_iff]
  omega

lemma calculateIndex_root_lt (va : UInt64) : (calculateIndex va 0).val < 2 :=
  Nat.mod_lt _ Nat.two_pos

variable {S : AllocatorSpec A tr} {h h' : Heap AP SH X} {r : UInt64}

lemma Heap.step_eq {t : UInt64} {n : TTable AP SH} (hn : h.tables t = some n) (i : Index) :
    h.step t i = if (n i).isValid && (n i).isTable then some (n i) else none := by
  simp only [Heap.step, hn]

/-- From the table at `q` on, the hardware finds the entry at the end of the path. -/
lemma Heap.Inv.walkFrom_eq (hI : h.Inv S r) (p q : List Index) (t : UInt64) (i : Index)
    (hq : h.tableAt tr r q = some t) (hlen : q.length + p.length = 3) :
    h.walkFrom tr t p i = h.entryAt tr r (q ++ p) i := by
  induction p generalizing q t with
  | nil =>
    rw [List.append_nil]
    obtain ⟨n, hn, hentries⟩ := hI.alive hq hlen.le
    rw [Heap.walkFrom, entryAt_eq hentries, Tte.valid?, step_eq hn]
    cases hv : (n i).isValid with
    | false => rfl
    | true =>
      rw [hI.page q n hlen hentries i hv]
      rfl
  | cons j p ih =>
    have hlt : q.length < 3 := by
      rw [List.length_cons] at hlen
      omega
    obtain ⟨n, hn, hentries⟩ := hI.alive hq hlt.le
    have hnext : h.tableAt tr r (q ++ [j]) = (n j).child tr := follow_snoc_of_node hq hn
    have happ : q ++ j :: p = q ++ [j] ++ p := by simp
    rw [Heap.walkFrom, step_eq hn, happ]
    rcases hI.coherent q n hlt hentries j with ⟨hv, ht, -⟩ | ⟨hv, -⟩
    · rw [Tte.child_of_valid hv] at hnext
      simp only [hv, ht, Bool.and_true, if_true, Option.bind_some]
      refine ih _ _ hnext ?_
      rw [List.length_append, List.length_singleton]
      rw [List.length_cons] at hlen
      omega
    · rw [Tte.child_of_not_valid hv] at hnext
      rw [entryAt_of_prefix_none hnext, hv]
      rfl

lemma Heap.Inv.walk_eq (hI : h.Inv S r) (va : UInt64) :
    h.walk tr r va = (h.entryAt tr r (pathOf va) (calculateIndex va 3)).map Tte.mapping :=
  congrArg (Option.map Tte.mapping) (hI.walkFrom_eq (pathOf va) [] r _ rfl rfl)

/-! ### Operations -/

abbrev Translation (AP SH : Type) := Nat → Option (Mapping AP SH)

inductive Op (AP SH : Type) where
  | mapPage (pa va : UInt64) (attrs : Attributes AP SH)
  | mapRegion (pa va size : UInt64) (attrs : Attributes AP SH)
  | unmapPage (va : UInt64)
  | unmapRegion (va size : UInt64)

def pagesOf (size : UInt64) : List Nat := List.range (size.toNat / 2 ^ pageShift)

/-- What the operations mean: the last one to mention a page wins. -/
def Op.apply (Φ : Translation AP SH) : Op AP SH → Translation AP SH
  | .mapPage pa va attrs        => update Φ (pageNumber va) (some ⟨pa, attrs⟩)
  | .mapRegion pa va size attrs => (pagesOf size).foldl (fun Φ i =>
      update Φ (pageNumber (pageAfter va i)) (some ⟨pageAfter pa i, attrs⟩)) Φ
  | .unmapPage va               => update Φ (pageNumber va) none
  | .unmapRegion va size        => (pagesOf size).foldl (fun Φ i =>
      update Φ (pageNumber (pageAfter va i)) none) Φ

/-- The operation is on a region that is not aligned, or shorter than a page if it is mapped. -/
def Op.refused : Op AP SH → Bool
  | .mapRegion pa va size _ => !(pageAligned va && pageAligned pa && pageAligned size) ||
      decide (size.toNat < 2 ^ pageShift)
  | .unmapRegion va size    => !(pageAligned va && pageAligned size)
  | _                       => false

/-- The tree stands for the map `Φ`. -/
structure Represents (S : AllocatorSpec A tr) (r : UInt64) (h : Heap AP SH X)
    (Φ : Translation AP SH) : Prop where
  inv : h.Inv S r
  occupied : h.Occupied tr r (fun _ => True) []
  entry : ∀ va, (h.entryAt tr r (pathOf va) (calculateIndex va 3)).map Tte.mapping =
    Φ (pageNumber va)

variable {Φ : Translation AP SH} {x : X}

lemma pageEntry_mapping (pa : UInt64) (attrs : Attributes AP SH) :
    (pageEntry pa attrs).mapping = ⟨pa, attrs⟩ := by
  simp [pageEntry, Tte.mapping]

lemma Represents.unmapPage (hR : Represents S r h Φ) (va : UInt64) :
    ∃ h', unmapPage A tr h r va = .ok h' ∧ Represents S r h' (update Φ (pageNumber va) none) := by
  obtain ⟨h', hok, hunmaps⟩ := unmapPage_spec hR.inv va
  refine ⟨h', hok, hunmaps.inv, hunmaps.occupied _ hR.occupied, ?_⟩
  intro va'
  rw [hunmaps.entryAt _ _ rfl]
  by_cases hpage : pageNumber va' = pageNumber va
  · rw [if_pos ((pathOf_eq_iff va' va).2 hpage), hpage, update_self]
    rfl
  · rw [if_neg (mt (pathOf_eq_iff va' va).1 hpage), update_of_ne hpage, hR.entry]

lemma Represents.unmapPages (hR : Represents S r h Φ) (va : UInt64) (l : List Nat) :
    ∃ h', unmapPages A tr h r va l = .ok h' ∧ Represents S r h' (l.foldl (fun Φ i =>
      update Φ (pageNumber (pageAfter va i)) none) Φ) := by
  induction l generalizing h Φ with
  | nil => exact ⟨h, rfl, hR⟩
  | cons i l ih =>
    obtain ⟨h', hok, hR'⟩ := hR.unmapPage (pageAfter va i)
    rw [Mars.Paging.unmapPages, hok]
    exact ih hR'

section Run

variable [Inhabited AP] [Inhabited SH]

def Op.run (A : TableAllocator X) (tr : AddressTranslator) (h : Heap AP SH X) (r : UInt64) :
    Op AP SH → Except Trap (Heap AP SH X)
  | .mapPage pa va attrs        => Mars.Paging.mapPage A tr h r pa va attrs
  | .mapRegion pa va size attrs => Mars.Paging.mapRegion A tr h r pa va size attrs
  | .unmapPage va               => Mars.Paging.unmapPage A tr h r va
  | .unmapRegion va size        => Mars.Paging.unmapRegion A tr h r va size

def Heap.init (r : UInt64) (x : X) : Heap AP SH X :=
  { tables := update (fun _ => none) r (some TTable.new), log := [], allocator := x }

/-- Histories of operations that returned, with what they mean. -/
inductive Run (A : TableAllocator X) (tr : AddressTranslator) (r : UInt64) (x : X) :
    Heap AP SH X → Translation AP SH → Prop where
  | init : Run A tr r x (Heap.init r x) fun _ => none
  | op {h h' : Heap AP SH X} {Φ : Translation AP SH} (o : Op AP SH) (hrun : Run A tr r x h Φ)
      (ho : o.run A tr h r = .ok h') : Run A tr r x h' (o.apply Φ)

lemma Represents.mapPage (hR : Represents S r h Φ) (pa va : UInt64) (attrs : Attributes AP SH) :
    Gives A (mapPage A tr h r pa va attrs) fun h' =>
      Represents S r h' (update Φ (pageNumber va) (some ⟨pa, attrs⟩)) := by
  refine (mapPage_spec hR.inv pa va attrs).mono ?_
  intro h' hmaps
  refine ⟨hmaps.inv, hmaps.occupied _ hR.occupied, ?_⟩
  intro va'
  rw [hmaps.entryAt _ _ rfl]
  by_cases hpage : pageNumber va' = pageNumber va
  · rw [if_pos ((pathOf_eq_iff va' va).2 hpage), hpage, update_self, Option.map_some,
      pageEntry_mapping]
  · rw [if_neg (mt (pathOf_eq_iff va' va).1 hpage), update_of_ne hpage, hR.entry]

/-- The loop of `map_region`, by induction on the pages that are left. -/
lemma Represents.mapPages (hR : Represents S r h Φ) (pa va : UInt64) (attrs : Attributes AP SH)
    (l : List Nat) : Gives A (mapPages A tr h r pa va attrs l) fun h' =>
      Represents S r h' (l.foldl (fun Φ i =>
        update Φ (pageNumber (pageAfter va i)) (some ⟨pageAfter pa i, attrs⟩)) Φ) := by
  induction l generalizing h Φ with
  | nil => exact hR
  | cons i l ih =>
    exact (hR.mapPage (pageAfter pa i) (pageAfter va i) attrs).bind fun h' hR' => ih hR'

/-- Every operation that is not refused returns and means what it should, or the allocator refuses
a table. -/
lemma Represents.run (hR : Represents S r h Φ) (o : Op AP SH) :
    if o.refused then o.run A tr h r = .error .assertion
    else Gives A (o.run A tr h r) fun h' => Represents S r h' (o.apply Φ) := by
  cases o with
  | mapPage pa va attrs => exact hR.mapPage pa va attrs
  | mapRegion pa va size attrs =>
    rw [Op.run, mapRegion, Op.refused]
    split_ifs with hrefused hok hok
    · simp_all
      omega
    · rfl
    · exact hR.mapPages pa va attrs _
    · simp_all
  | unmapPage va =>
    obtain ⟨h', hok, hR'⟩ := hR.unmapPage va
    rw [Op.run, hok]
    exact hR'
  | unmapRegion va size =>
    rw [Op.run, unmapRegion, Op.refused]
    split_ifs with hrefused hok hok
    · simp_all
    · rfl
    · obtain ⟨h', hok, hR'⟩ := hR.unmapPages va (pagesOf size)
      rw [show List.range (size.toNat / 2 ^ pageShift) = pagesOf size from rfl, hok]
      exact hR'
    · simp_all

lemma Heap.init_root (r : UInt64) (x : X) :
    (Heap.init r x : Heap AP SH X).tables r = some TTable.new := by
  simp only [Heap.init, update_self]

lemma Heap.tableAt_init {p : List Index} {t : UInt64}
    (hp : (Heap.init r x : Heap AP SH X).tableAt tr r p = some t) : p = [] ∧ t = r := by
  cases p with
  | nil => exact ⟨rfl, (Option.some.inj hp).symm⟩
  | cons i p =>
    rw [Heap.tableAt, follow, init_root, Option.bind_some,
      Tte.child_of_not_valid (TTable.new_isValid i)] at hp
    cases hp

lemma represents_init (hr : S.live x r) :
    Represents S r (Heap.init r x : Heap AP SH X) fun _ => none := by
  have hroot : (Heap.init r x : Heap AP SH X).tables r = some TTable.new := init_root r x
  have htable : ∀ p t, (Heap.init r x : Heap AP SH X).tableAt tr r p = some t → p = [] ∧ t = r :=
    fun _ _ => tableAt_init
  have hentries : ∀ p n, (Heap.init r x : Heap AP SH X).entriesAt tr r p = some n →
      p = [] ∧ n = TTable.new := by
    intro p n hp
    obtain ⟨t, ht, hn⟩ := Option.bind_eq_some_iff.1 hp
    obtain ⟨rfl, rfl⟩ := htable p t ht
    rw [hroot] at hn
    exact ⟨rfl, (Option.some.inj hn).symm⟩
  have halive : ∀ t n, (Heap.init r x : Heap AP SH X).tables t = some n → t = r := by
    intro t n hn
    by_contra hne
    have hdead : (Heap.init r x : Heap AP SH X).tables t = none := by
      simp only [Heap.init, update_of_ne hne]
    rw [hdead] at hn
    cases hn
  refine ⟨⟨⟨?_, ?_, ?_⟩, ?_, ?_, ?_, ?_⟩, ?_, ?_⟩
  · intro p t _ hp
    obtain ⟨-, rfl⟩ := htable p t hp
    exact ⟨_, hroot⟩
  · intro p q t _ _ hp hq
    rw [(htable p t hp).1, (htable q t hq).1]
  · intro t n hn
    exact ⟨[], Nat.zero_le 3, by rw [halive t n hn]; rfl⟩
  · intro p n _ hp i
    rw [(hentries p n hp).2]
    exact .inr ⟨rfl, rfl⟩
  · intro p n hlen hp
    rw [(hentries p n hp).1] at hlen
    cases hlen
  · intro t n hn
    rw [halive t n hn]
    exact hr
  · intro t
    have hnone : ¬ (t ≠ r ∧ ((Heap.init r x : Heap AP SH X).tables t).isSome) := by
      rintro ⟨hne, hsome⟩
      obtain ⟨n, hn⟩ := Option.isSome_iff_exists.1 hsome
      exact hne (halive t n hn)
    rw [if_neg hnone]
    rfl
  · intro p n _ _ hne _ hp
    exact absurd (hentries p n hp).1 hne
  · intro va
    cases he : (Heap.init r x : Heap AP SH X).entryAt tr r (pathOf va) (calculateIndex va 3) with
    | none => rfl
    | some e =>
      obtain ⟨n, hn, -⟩ := Option.bind_eq_some_iff.1 he
      cases (hentries _ n hn).1

lemma Run.represents (hr : S.live x r) (hrun : Run A tr r x h Φ) : Represents S r h Φ := by
  induction hrun with
  | init => exact represents_init hr
  | op o _ ho ih =>
    have hrun := ih.run o
    rw [ho] at hrun
    split_ifs at hrun
    exact hrun

/-! ### Refinement -/

/-- What a tree of tables has to do with the partial map it implements. -/
structure Refines (A : TableAllocator X) (tr : AddressTranslator) (r : UInt64)
    (h : Heap AP SH X) (Φ : Translation AP SH) : Prop where
  /-- The hardware finds the mapping of every page. -/
  walk : ∀ va, h.walk tr r va = Φ (pageNumber va)
  /-- Tables other than the root have a valid entry. -/
  occupied : h.Occupied tr r (fun _ => True) []
  /-- There is one way to each table. -/
  one_parent : ∀ p q t, p.length ≤ 3 → q.length ≤ 3 → h.tableAt tr r p = some t →
    h.tableAt tr r q = some t → p = q
  /-- The tables handed out and not freed are those in the tree. -/
  accounted : ∀ t, (t ≠ r ∧ (∃ p, p.length ≤ 3 ∧ h.tableAt tr r p = some t) ∧
      h.log.count (.alloc t) = h.log.count (.free t) + 1) ∨
    ((t = r ∨ ∀ p, p.length ≤ 3 → h.tableAt tr r p ≠ some t) ∧
      h.log.count (.alloc t) = h.log.count (.free t))
  /-- No operation accesses or frees a table that is not alive: an assertion fails on misaligned or
  empty regions, and the others return unless the allocator has no table left. -/
  safe : ∀ o : Op AP SH, if o.refused then o.run A tr h r = .error .assertion
    else (∃ h', o.run A tr h r = .ok h') ∨
      (o.run A tr h r = .error .outOfMemory ∧ ∃ x, A.allocTable x = .error .outOfMemory)

/-- In every history, the tree of page tables is the partial map that the operations describe. -/
theorem Run.refines (S : AllocatorSpec A tr) (hr : S.live x r) (hrun : Run A tr r x h Φ) :
    Refines A tr r h Φ := by
  have hR := hrun.represents hr
  refine ⟨?_, hR.occupied, hR.inv.tree.inj, ?_, ?_⟩
  · intro va
    rw [hR.inv.walk_eq, hR.entry]
  · intro t
    have hlog := hR.inv.logged t
    by_cases ht : t ≠ r ∧ (h.tables t).isSome
    · rw [if_pos ht] at hlog
      obtain ⟨n, hn⟩ := Option.isSome_iff_exists.1 ht.2
      exact .inl ⟨ht.1, hR.inv.tree.reached t n hn, hlog⟩
    · rw [if_neg ht] at hlog
      refine .inr ⟨?_, hlog⟩
      by_cases htr : t = r
      · exact .inl htr
      · refine .inr fun p hp hpt => ht ⟨htr, ?_⟩
        obtain ⟨n, hn⟩ := hR.inv.tree.alive p t hp hpt
        exact Option.isSome_of_eq_some hn
  · intro o
    have hgives := hR.run o
    split_ifs with hrefused
    · rwa [if_pos hrefused] at hgives
    · rw [if_neg hrefused] at hgives
      cases hres : o.run A tr h r with
      | ok h' => exact .inl ⟨h', rfl⟩
      | error e =>
        rw [hres] at hgives
        obtain ⟨rfl, hx⟩ := hgives
        exact .inr ⟨rfl, hx⟩

end Run

/-! ### A small machine -/

/-- An allocator that hands out the pages from the third one on, each once. -/
def bumpAllocator : TableAllocator Nat where
  allocTable n :=
    if n < 1000 then .ok (UInt64.ofNat ((n + 2) * 16384), n + 1) else .error .outOfMemory
  freeTable _ n := .ok n

def identity : AddressTranslator := ⟨id, id⟩

lemma bumpAllocator_ok {n m : Nat} {t : UInt64} (h : bumpAllocator.allocTable n = .ok (t, m)) :
    t.toNat = (n + 2) * 16384 ∧ m = n + 1 := by
  simp only [bumpAllocator] at h
  split_ifs at h with hlt
  cases h
  refine ⟨?_, rfl⟩
  rw [UInt64.toNat_ofNat', Nat.mod_eq_of_lt]
  omega

def bumpSpec : AllocatorSpec bumpAllocator identity where
  live n t := t.toNat ≤ (n + 1) * 16384
  fresh n t m h := by
    have ht := (bumpAllocator_ok h).1
    omega
  phys_ne_zero n t m h := by
    have ht := (bumpAllocator_ok h).1
    rintro rfl
    simp at ht
  translate n t m _ := rfl
  live_alloc n t m h u hu := by
    obtain ⟨ht, rfl⟩ := bumpAllocator_ok h
    rcases hu with rfl | hu
    · exact Nat.le_of_eq ht
    · exact Nat.le_trans hu (Nat.mul_le_mul_right _ (Nat.le_succ _))
  alloc_error n e h := by
    simp only [bumpAllocator] at h
    split_ifs at h
    cases h
    rfl
  free_ok n t _ := ⟨n, rfl⟩
  live_free n t m h u _ hu := by
    cases h
    exact hu

theorem walk_after_mapPage : ∃ (h : Heap Bool Bool Nat) (Φ : Translation Bool Bool),
    Run bumpAllocator identity 0x4000 0 h Φ ∧
      h.walk identity 0x4000 0x7fff0000 = some ⟨0x80000, ⟨true, true, false, false, 1⟩⟩ := by
  let o : Op Bool Bool := .mapPage 0x80000 0x7fff0000 ⟨true, true, false, false, 1⟩
  have hrun : ∃ h, Run bumpAllocator identity 0x4000 0 h (o.apply fun _ => none) :=
    ⟨_, .op o .init rfl⟩
  obtain ⟨h, hrun⟩ := hrun
  have hroot : bumpSpec.live 0 0x4000 := Nat.le_refl _
  refine ⟨h, _, hrun, ?_⟩
  rw [(Run.refines bumpSpec hroot hrun).walk, Op.apply, update_self]

end Mars.Paging
