import Mars.Vm.Status

/-!
# Locks that a cursor holds

While a cursor holds its guards, an operation either does what it does without them or waits for
a lock of its own cursor. It waits if it updates or reads the status of a page of the covering
table, which is locked for writing, and if it frees the covering table.
-/

namespace Mars.Vm

open Paging Lib.NodeTree

variable {AP SH X : Type} {s : AddressSpace X} {B : s.allocator.Spec} {h h₀ h' : UserHeap AP SH X}
  {r : UInt64} {c : Cursor} {g : Guards}

/-! ### Held locks -/

variable {d : Nat}

lemma acquire_of_write (hd : g d = some .write) (mode : Mode) :
    acquire g d mode = .error .deadlock := by
  unfold acquire
  rw [hd]

/-- Every lock that is held is that of a table in the tree. -/
def Held (s : AddressSpace X) (r : UInt64) (h : UserHeap AP SH X) (g : Guards) : Prop :=
  ∀ d, g d ≠ none → ∃ q t, q.length ≤ 3 ∧ h.tableAt s.translator r q = some t ∧
    s.allocator.descriptor (s.translator.dmapToPhys t) = .ok d

lemma Held.of_keeps (hg : Held s r h g) (hx : Keeps s r h h') : Held s r h' g := by
  intro d hd
  obtain ⟨q, t, hq, ht, hdesc⟩ := hg d hd
  exact ⟨q, t, hq, hx q t hq ht, hdesc⟩

namespace Cursor

/-- The locks of a cursor are those of the tables on the way to the covering table. -/
lemma Valid.guards_cases (hc : c.Valid s r h) (hd : c.guards d ≠ none) :
    ∃ q t, q <+: c.path ∧ h.tableAt s.translator r q = some t ∧
      s.allocator.descriptor (s.translator.dmapToPhys t) = .ok d := by
  unfold guards at hd
  split_ifs at hd with hwrite
  · obtain ⟨d', hguard, hdesc⟩ := hc.write
    rw [hguard] at hwrite
    cases hwrite
    obtain ⟨t, ht, hpa⟩ := hc.covering
    rw [hpa] at hdesc
    exact ⟨c.path, t, List.prefix_rfl, ht, hdesc⟩
  · unfold readLocks at hd
    split_ifs at hd with hmem
    · obtain ⟨⟨pa, d'⟩, hguard, rfl⟩ := List.mem_map.1 hmem
      obtain ⟨hdesc, q, t, hq, -, ht, rfl⟩ := hc.reads pa d' hguard
      exact ⟨q, t, hq, ht, hdesc⟩
    · exact absurd rfl hd

lemma Valid.held (hc : c.Valid s r h) : Held s r h c.guards := by
  intro d hd
  obtain ⟨q, t, hq, ht, hdesc⟩ := hc.guards_cases hd
  exact ⟨q, t, hq.length_le.trans c.path_length_le, ht, hdesc⟩

lemma Valid.guards_covering (hc : c.Valid s r h) :
    ∃ d, s.allocator.descriptor c.coveringPa = .ok d ∧ c.guards d = some .write := by
  obtain ⟨d, hguard, hdesc⟩ := hc.write
  refine ⟨d, hdesc, if_pos ?_⟩
  rw [hguard]
  rfl

/-- Unless it is the covering table, no leaf table is locked. -/
lemma Valid.guards_leaf (hc : c.Valid s r h) (hI : h.Inv B.user r) (hl : 1 ≤ c.coveringLevel)
    {va t : UInt64} (ht : h.tableAt s.translator r (pathOf va) = some t)
    (hd : s.allocator.descriptor (s.translator.dmapToPhys t) = .ok d) : c.guards d = none := by
  by_contra hne
  obtain ⟨q, u, hq, hu, hdesc⟩ := hc.guards_cases hne
  have heq := path_eq_of_descriptor hI (hq.length_le.trans c.path_length_le) (pathOf_length_le va)
    hu ht hdesc hd
  have hlen := hq.length_le
  rw [heq, c.path_length] at hlen
  have hthree : (pathOf va).length = 3 := rfl
  omega

end Cursor

/-! ### The table allocator -/

lemma allocTable_guarded (hI : h.Inv B.user r) (hg : Held s r h g) :
    (s.allocator.tables g).allocTable h.allocator = (s.unlocked AP).allocTable h.allocator := by
  simp only [UserAllocator.tables, bind, Except.bind]
  cases hx : s.allocator.inner.allocTable h.allocator.inner with
  | error e => rfl
  | ok res =>
    obtain ⟨t, y⟩ := res
    have htracked := B.tracked _ _ _ hx
    obtain ⟨d, hd⟩ := htracked.described
    have hfree : g d = none := by
      by_contra hne
      obtain ⟨q, u, hq, hu, hdesc⟩ := hg d hne
      obtain rfl := (tracked_of_tableAt hI hq hu).eq_of_descriptor htracked hdesc hd
      obtain ⟨n, hn, -⟩ := hI.alive hu hq
      exact B.base.fresh _ _ _ hx (hI.owned _ n hn).1
    simp only [hd, acquire_of_none hfree, acquire_none]

lemma tables_refuses (U : UserAllocator X) (g : Guards) :
    Refuses (fun t => ∃ d, U.descriptor (U.translator.dmapToPhys t) = .ok d ∧ g d ≠ none)
      (U.tables .none : TableAllocator (UserState AP X)) (U.tables g) := by
  intro t x
  constructor
  · rintro ⟨d, hd, hne⟩
    simp only [UserAllocator.tables, bind, Except.bind, hd]
    have hwait : acquire g d .write = .error .deadlock := by
      unfold acquire
      cases hg : g d with
      | none => exact absurd hg hne
      | some mode => cases mode <;> rfl
    rw [hwait]
  · intro hnot
    simp only [UserAllocator.tables, bind, Except.bind]
    cases hd : U.descriptor (U.translator.dmapToPhys t) with
    | error e => rfl
    | ok d =>
      have hfree : g d = none := by
        by_contra hne
        exact hnot ⟨d, hd, hne⟩
      simp only [acquire_of_none hfree, acquire_none]

section Map

variable [Inhabited AP] [Inhabited SH]

lemma childTable_guarded (hI : h.Inv B.user r) (hg : Held s r h g) (present : Tte AP SH → Bool)
    (t : UInt64) (i : Index) :
    childTable (s.allocator.tables g) s.translator present h t i =
      childTable (s.unlocked AP) s.translator present h t i := by
  simp only [childTable, Heap.allocTable, allocTable_guarded hI hg]

/-- `map_page` only creates tables. -/
lemma mapPage_guarded (hI : h.Inv B.user r) (hg : Held s r h g) (pa va : UInt64)
    (attrs : Attributes AP SH) : mapPage (s.allocator.tables g) s.translator h r pa va attrs =
      mapPage (s.unlocked AP) s.translator h r pa va attrs := by
  have htable : ∀ e : Tte AP SH, e.Coherent s.translator → hasTableAddress e = e.isValid :=
    fun e he => he.hasTableAddress_eq
  have hkeeps : ∀ {h₁ h₂ : UserHeap AP SH X} {p i u}, h₁.Descends B.user r p i u h₂ →
      Keeps s r h₁ h₂ := fun hd q t hq ht => (hd.extension q t hq ht).1
  have hroot : h.tableAt s.translator r [] = some r := rfl
  rw [mapPage, mapPage, childTable_guarded hI hg]
  refine (childTable_spec hasTableAddress htable hI hroot (by decide) _).bind_congr ?_
  rintro ⟨l1, h₁⟩ hd₁
  have hg₁ := hg.of_keeps (hkeeps hd₁)
  simp only [childTable_guarded hd₁.inv hg₁]
  refine (childTable_spec hasTableAddress htable hd₁.inv hd₁.tableAt (by simp) _).bind_congr ?_
  rintro ⟨l2, h₂⟩ hd₂
  simp only [childTable_guarded hd₂.inv (hg₁.of_keeps (hkeeps hd₂))]

lemma ensureFrom_guarded (hI : h.Inv B.user r) (hg : Held s r h g) {va t : UInt64} {level : Nat}
    (hl : level ≤ 3) (ht : h.tableAt s.translator r ((route va).take (3 - level)) = some t) :
    Cursor.ensureFrom s g va level (s.translator.dmapToPhys t) h =
      Cursor.ensureFrom s .none va level (s.translator.dmapToPhys t) h := by
  induction level generalizing h t with
  | zero => rfl
  | succ level ih =>
    have hlen : ((route va).take (3 - (level + 1))).length < 3 := route_take_lt va
    obtain ⟨n, hn, -⟩ := hI.alive ht hlen.le
    have htranslate := (tracked_of_tableAt hI hlen.le ht).translate
    have hsucc := route_take_succ va hl
    obtain ⟨e, he, hcases⟩ := readEntry_cases hI ht hlen (entryIndex va (level + 1))
    simp only [Cursor.ensureFrom, he, bind, Except.bind, Heap.allocTable, allocTable_guarded hI hg]
    rcases hcases with ⟨hv, hnone⟩ | ⟨hv, -, u, hu, haddress⟩
    · rw [hv]
      cases hx : (s.unlocked AP).allocTable h.allocator with
      | error err => rfl
      | ok res =>
        obtain ⟨u, x⟩ := res
        have hut : t ≠ u := by
          rintro rfl
          rw [hI.fresh hx] at hn
          cases hn
        have htables : Function.update h.tables u (some TTable.new) t = some n := by
          rw [Function.update_of_ne hut, hn]
        rw [htranslate, Heap.readEntry_eq hn] at he
        cases he
        have hD := hI.descends_link ht hlen hn hv hx (links_linkTo Tte.invalid u)
        simp only [Heap.writeEntry, htranslate, htables]
        exact ih hD.inv (hg.of_keeps fun q t hq ht => (hD.extension q t hq ht).1)
          (Nat.le_of_lt hl) (hsucc ▸ hD.tableAt)
    · rw [hv, haddress]
      exact ih hI hg (Nat.le_of_lt hl) (hsucc ▸ hu)

end Map

/-! ### Steps that do not touch the covering table's descriptor -/

namespace Cursor

variable {va : UInt64}

lemma Valid.updateLeafMeta_guarded (hc : c.Valid s r h) (hI : h.Inv B.user r)
    (hl : 1 ≤ c.coveringLevel) (hva : c.Contains va) (status : Status AP) :
    c.updateLeafMeta s c.guards h va status = c.updateLeafMeta s .none h va status := by
  rw [hc.updateLeafMeta_eq hI c.guards hva, hc.updateLeafMeta_eq hI .none hva]
  cases ht : h.tableAt s.translator r (pathOf va) with
  | none => rfl
  | some t =>
    obtain ⟨d, hd⟩ := (tracked_of_tableAt hI (pathOf_length_le va) ht).described
    simp only [hd, bind, Except.bind, acquire_of_none (hc.guards_leaf hI hl ht hd), acquire_none]

section Map

variable [Inhabited AP] [Inhabited SH]

lemma Valid.mapStep_guarded (hc : c.Valid s r h) (hI : h.Inv B.user r) (hroot : s.root = some r)
    (hl : 1 ≤ c.coveringLevel) (hva : c.Contains va) (pa : UInt64) (attrs : Attributes AP SH) :
    c.mapStep s c.guards attrs va (pa, h) = c.mapStep s .none attrs va (pa, h) := by
  rw [mapStep_eq hroot, mapStep_eq hroot, mapPage_guarded hI hc.held]
  refine (mapPage_spec hI pa va attrs).bind_congr ?_
  intro h₁ hmaps
  have hc₁ : c.Valid s r h₁ := hc.of_keeps fun q t hq ht => (hmaps.extension q t hq ht).1
  rw [hc₁.updateLeafMeta_guarded hmaps.inv hl hva]

lemma Valid.markStep_guarded (hc : c.Valid s r h) (hI : h.Inv B.user r) (hl : 1 ≤ c.coveringLevel)
    (hva : c.Contains va) (status : Status AP) :
    c.markStep s c.guards status va h = c.markStep s .none status va h := by
  obtain ⟨t, ht, hpa⟩ := hc.covering
  rw [← hc.spans va hva] at ht
  rw [markStep, markStep, ensureLeafTable, ensureLeafTable, hpa,
    ensureFrom_guarded hI hc.held hc.level_le ht]
  refine (ensureFrom_spec hI hc.level_le ht).bind_congr ?_
  intro h₁ hgrows
  have hc₁ : c.Valid s r h₁ := hc.of_keeps fun q t hq ht => (hgrows.extension q t hq ht).1
  exact hc₁.updateLeafMeta_guarded hgrows.inv hl hva status

end Map

/-- While the cursor holds its locks, `unmap_page` waits if it frees the covering table. -/
lemma Valid.unmapPage_guarded (hc : c.Valid s r h) (hI : h.Inv B.user r)
    (hok : unmapPage (s.unlocked AP) s.translator h r va = .ok h')
    (hunmaps : h.Unmaps B.user r va h') :
    unmapPage (s.allocator.tables c.guards) s.translator h r va =
      if (h'.tableAt s.translator r c.path).isSome then .ok h' else .error .deadlock := by
  obtain ⟨t, ht, hpa⟩ := hc.covering
  obtain ⟨d, hd, hwrite⟩ := hc.guards_covering
  rw [hpa] at hd
  rcases unmapPage_agrees (tables_refuses s.allocator c.guards) hok with ⟨hres, hstay⟩ |
    ⟨hres, u, ⟨d', hd', hheld⟩, hu, hgone⟩
  · -- the covering table is alive, so it is where it was
    obtain ⟨n, hn, -⟩ := hI.alive ht c.path_length_le
    have hsome := hstay t ⟨d, hd, by rw [hwrite]; exact Option.some_ne_none _⟩ (by rw [hn]; rfl)
    obtain ⟨m, hm⟩ := Option.isSome_iff_exists.1 hsome
    obtain ⟨q, hq, hqt⟩ := hunmaps.inv.tree.reached t m hm
    obtain rfl := hI.tree.inj q c.path t hq c.path_length_le (hunmaps.shrinks q t hq hqt).1 ht
    rw [hres, if_pos (Option.isSome_of_eq_some hqt)]
  · -- a table above the covering table, or itself, is gone
    obtain ⟨q, v, hq, hv, hdv⟩ := hc.guards_cases hheld
    have hlen := hq.length_le.trans c.path_length_le
    obtain ⟨n, hn⟩ := Option.isSome_iff_exists.1 hu
    obtain rfl := (tracked_of_tableAt hI hlen hv).eq_of_descriptor (hI.owned u n hn).2 hdv hd'
    rw [hres, if_neg]
    intro halive
    obtain ⟨w, hw⟩ := Option.isSome_iff_exists.1 halive
    obtain ⟨v', hv'⟩ := Heap.tableAt_of_prefix hq hw
    have hsame := (hunmaps.shrinks q v' hlen hv').1
    rw [hv] at hsame
    cases hsame
    obtain ⟨m, hm, -⟩ := hunmaps.inv.alive hv' hlen
    rw [hm] at hgone
    cases hgone

lemma Valid.unmapStep_guarded (hc : c.Valid s r h) (hI : h.Inv B.user r) (hroot : s.root = some r)
    (hl : 1 ≤ c.coveringLevel) {k : Nat} (hk : k < c.steps) (hs : c.Survives s r k h) :
    c.unmapStep s c.guards (pageAfter c.start k) h =
      c.unmapStep s .none (pageAfter c.start k) h := by
  obtain ⟨-, hva⟩ := hc.contains_pageAfter hk
  obtain ⟨h₁, hok, hunmaps⟩ := unmapPage_spec hI (pageAfter c.start k)
  obtain ⟨⟨t, halive⟩, -⟩ := hs.unmaps hk hunmaps
  rw [unmapStep_eq hroot, unmapStep_eq hroot, hc.unmapPage_guarded hI hok hunmaps, halive, hok]
  exact (hc.of_unmaps hunmaps halive).updateLeafMeta_guarded hunmaps.inv hl hva .invalid

/-- At a doomed covering table, a step of `unmap` waits or leaves it doomed. -/
lemma Valid.unmapStep_doomed (hc : c.Valid s r h) (hI : h.Inv B.user r) (hroot : s.root = some r)
    (hl : 1 ≤ c.coveringLevel) {k : Nat} (hk : k < c.steps)
    (hD : Doomed s.translator r h c.path (c.pagesFrom k)) :
    c.unmapStep s c.guards (pageAfter c.start k) h = .error .deadlock ∨
      ∃ h', c.unmapStep s c.guards (pageAfter c.start k) h = .ok h' ∧ h'.Inv B.user r ∧
        c.Valid s r h' ∧ Doomed s.translator r h' c.path (c.pagesFrom (k + 1)) := by
  obtain ⟨-, hva⟩ := hc.contains_pageAfter hk
  obtain ⟨h₁, hok, hunmaps⟩ := unmapPage_spec hI (pageAfter c.start k)
  rw [unmapStep_eq hroot, hc.unmapPage_guarded hI hok hunmaps]
  cases halive : h₁.tableAt s.translator r c.path with
  | none => exact .inl rfl
  | some t =>
    have hc₁ := hc.of_unmaps hunmaps halive
    obtain ⟨h₂, hok₂, htables, hupdates⟩ := hc₁.updateLeafMeta_spec hunmaps.inv hva .invalid
    refine .inr ⟨h₂, ?_, hupdates.inv, hc₁.congr fun q _ => Heap.tableAt_congr htables q, ?_⟩
    · rw [Option.isSome_some, if_pos rfl]
      exact (hc₁.updateLeafMeta_guarded hunmaps.inv hl hva .invalid).trans hok₂
    · exact (hD.unmaps hunmaps fun q i => c.pagesFrom_succ).congr htables

/-! ### A covering table that is a leaf -/

/-- Updating a status waits for the cursor's own lock if the covering table is a leaf. -/
lemma Valid.updateLeafMeta_waits (hc : c.Valid s r h₀) (hl : c.coveringLevel = 0)
    (h : UserHeap AP SH X) (va : UInt64) (status : Status AP) :
    c.updateLeafMeta s c.guards h va status = .error .deadlock := by
  obtain ⟨d, hd, hwrite⟩ := hc.guards_covering
  simp only [updateLeafMeta, hl, leafTable, bind, Except.bind, hd, acquire_of_write hwrite]

lemma forPages_first {σ : Type} {body : UInt64 → σ → Except Trap σ} {n : Nat} (hn : 0 < n) {x : σ}
    {e : Trap} (hx : body va x = .error e) : forPages body n va x = .error e := by
  cases n with
  | zero => cases hn
  | succ n =>
    rw [forPages, hx]
    rfl

/-- The first page of a range that is not empty is below the covering table. -/
lemma Valid.path_eq (hc : c.Valid s r h) (hl : c.coveringLevel = 0) (hn : 0 < c.steps) :
    c.path = pathOf c.start := by
  obtain ⟨-, hva⟩ := hc.contains_pageAfter hn
  rw [pageAfter_zero] at hva
  rw [← route_eq (hc.toNat_lt hva), path, hl]
  rfl

section Waits

variable (hc : c.Valid s r h) (hI : h.Inv B.user r) (hroot : s.root = some r)
  (hl : c.coveringLevel = 0) (hn : 0 < c.steps)

include hc hl hn

include hI hroot in
lemma Valid.unmap_waits : c.unmap s c.guards h = .error .deadlock := by
  refine forPages_first hn ?_
  obtain ⟨h₁, hok, hunmaps⟩ := unmapPage_spec hI c.start
  rw [unmapStep_eq hroot, hc.unmapPage_guarded hI hok hunmaps]
  split_ifs
  · exact hc.updateLeafMeta_waits hl h₁ c.start .invalid
  · rfl

variable [Inhabited AP] [Inhabited SH]

include hI hroot in
lemma Valid.map_waits (pa : UInt64) (attrs : Attributes AP SH) :
    c.map s c.guards h pa attrs = .error .deadlock := by
  obtain ⟨t, ht, -⟩ := hc.covering
  rw [hc.path_eq hl hn] at ht
  obtain ⟨h₁, hok⟩ := mapPage_of_leaf (s.allocator.tables c.guards) hI pa attrs ht
  have hstep : c.mapStep s c.guards attrs c.start (pa, h) = .error .deadlock := by
    rw [mapStep_eq hroot, hok]
    simp only [bind, Except.bind, hc.updateLeafMeta_waits hl]
  rw [map, forPages_first hn hstep]
  rfl

lemma Valid.mark_waits (status : Status AP) : c.mark s c.guards h status = .error .deadlock := by
  refine forPages_first hn ?_
  rw [markStep, ensureLeafTable, hl]
  exact hc.updateLeafMeta_waits hl h c.start status

end Waits

end Cursor

/-! ### Whole operations -/

/-- A call of an operation or a query of a cursor. -/
inductive Access (AP SH : Type) where
  | op (o : Op AP SH)
  | query (va : UInt64)

section Access

variable [Inhabited AP] [Inhabited SH]

/-- The call, while the cursor holds its locks. -/
def Access.exec (s : AddressSpace X) (c : Cursor) (h : UserHeap AP SH X) :
    Access AP SH → Except Trap (UserHeap AP SH X)
  | .op o     => o.run s c.guards c h
  | .query va => do
    let _ ← c.query s c.guards h va
    .ok h

/-- Calls that do not wait for the cursor's own locks. -/
def Access.Safe (s : AddressSpace X) (r : UInt64) (c : Cursor) (h : UserHeap AP SH X) :
    Access AP SH → Prop
  | .op (.map _ _) => c.steps = 0 ∨ 1 ≤ c.coveringLevel
  | .op (.mark _)  => c.steps = 0 ∨ 1 ≤ c.coveringLevel
  | .op .unmap     => c.steps = 0 ∨ 1 ≤ c.coveringLevel ∧ c.Survives s r 0 h
  | .query va      => c.Contains va → 1 ≤ c.coveringLevel ∨ view s.allocator r h va = none

section Loops

variable (hc : c.Valid s r h) (hI : h.Inv B.user r) (hroot : s.root = some r)

include hc hI

include hroot in
/-- Unless its steps wait, `map` does what it does without the locks. -/
lemma Cursor.Valid.map_guarded (hsafe : c.steps = 0 ∨ 1 ≤ c.coveringLevel) (pa : UInt64)
    (attrs : Attributes AP SH) :
    Gives (s.unlocked AP) (c.map s c.guards h pa attrs) fun h' =>
      h'.Inv B.user r ∧ c.Valid s r h' := by
  let I : Nat → UInt64 × UserHeap AP SH X → Prop := fun _ x => x.2.Inv B.user r ∧ c.Valid s r x.2
  have hbody : ∀ k x, k < c.steps → I k x →
      Gives (s.unlocked AP) (c.mapStep s .none attrs (pageAfter c.start k) x) (I (k + 1)) ∧
        c.mapStep s c.guards attrs (pageAfter c.start k) x =
          c.mapStep s .none attrs (pageAfter c.start k) x := by
    rintro k ⟨pa', h₁⟩ hk ⟨hI₁, hc₁⟩
    obtain ⟨-, hva⟩ := hc₁.contains_pageAfter hk
    have hl : 1 ≤ c.coveringLevel := hsafe.resolve_left (Nat.zero_lt_of_lt hk).ne'
    refine ⟨(hc₁.mapStep_spec hI₁ hroot hva pa' attrs).mono ?_,
      hc₁.mapStep_guarded hI₁ hroot hl hva pa' attrs⟩
    rintro ⟨pa'', h₂⟩ ⟨-, hkeeps, hupdates⟩
    exact ⟨hupdates.inv, hc₁.of_keeps hkeeps⟩
  have hinit : I 0 (pa, h) := ⟨hI, hc⟩
  have heq := forPages_congr hbody (zero_add _) hinit
  have hloop := forPages_gives (fun k x hk hx => (hbody k x hk hx).1) (zero_add _) hinit
  rw [← heq, pageAfter_zero] at hloop
  exact hloop.bind fun x hx => hx

lemma Cursor.Valid.mark_guarded (hsafe : c.steps = 0 ∨ 1 ≤ c.coveringLevel) (status : Status AP) :
    Gives (s.unlocked AP) (c.mark s c.guards h status) fun h' =>
      h'.Inv B.user r ∧ c.Valid s r h' := by
  let I : Nat → UserHeap AP SH X → Prop := fun _ x => x.Inv B.user r ∧ c.Valid s r x
  have hbody : ∀ k x, k < c.steps → I k x →
      Gives (s.unlocked AP) (c.markStep s .none status (pageAfter c.start k) x) (I (k + 1)) ∧
        c.markStep s c.guards status (pageAfter c.start k) x =
          c.markStep s .none status (pageAfter c.start k) x := by
    rintro k h₁ hk ⟨hI₁, hc₁⟩
    obtain ⟨-, hva⟩ := hc₁.contains_pageAfter hk
    have hl : 1 ≤ c.coveringLevel := hsafe.resolve_left (Nat.zero_lt_of_lt hk).ne'
    refine ⟨(hc₁.markStep_spec hI₁ hva status).mono ?_, hc₁.markStep_guarded hI₁ hl hva status⟩
    rintro h₂ ⟨hkeeps, hupdates⟩
    exact ⟨hupdates.inv, hc₁.of_keeps hkeeps⟩
  have hinit : I 0 h := ⟨hI, hc⟩
  have heq := forPages_congr hbody (zero_add _) hinit
  have hloop := forPages_gives (fun k x hk hx => (hbody k x hk hx).1) (zero_add _) hinit
  rw [← heq, pageAfter_zero] at hloop
  exact hloop

omit [Inhabited AP] [Inhabited SH] in
include hroot in
/-- And so does `unmap`, if the covering table survives. -/
lemma Cursor.Valid.unmap_guarded
    (hsafe : c.steps = 0 ∨ 1 ≤ c.coveringLevel ∧ c.Survives s r 0 h) :
    ∃ h', c.unmap s c.guards h = .ok h' ∧ h'.Inv B.user r ∧ c.Valid s r h' := by
  rcases hsafe with hzero | ⟨hl, hs⟩
  · rw [unmap, hzero]
    exact ⟨h, rfl, hI, hc⟩
  · let I : Nat → UserHeap AP SH X → Prop := fun k x =>
      x.Inv B.user r ∧ c.Valid s r x ∧ c.Survives s r k x
    have hbody : ∀ k x, k < c.steps → I k x →
        ∃ x', c.unmapStep s c.guards (pageAfter c.start k) x = .ok x' ∧ I (k + 1) x' := by
      rintro k h₁ hk ⟨hI₁, hc₁, hs₁⟩
      obtain ⟨h₂, hok, hc₂, hs₂, hupdates⟩ := hc₁.unmapStep_survives hI₁ hroot hk hs₁
      rw [hc₁.unmapStep_guarded hI₁ hroot hl hk hs₁]
      exact ⟨h₂, hok, hupdates.inv, hc₂, hs₂⟩
    have hinit : I 0 h := ⟨hI, hc, hs⟩
    obtain ⟨h', hok, hI', hc', -⟩ := forPages_returns hbody (zero_add _) hinit
    rw [pageAfter_zero] at hok
    exact ⟨h', hok, hI', hc'⟩

omit [Inhabited AP] [Inhabited SH] in
include hroot in
/-- If the covering table does not survive, `unmap` waits for its lock. -/
lemma Cursor.Valid.unmap_doomed (hl : 1 ≤ c.coveringLevel) (hlt : c.coveringLevel < 3)
    (hD : Doomed s.translator r h c.path (c.pagesFrom 0)) :
    c.unmap s c.guards h = .error .deadlock := by
  let I : Nat → UserHeap AP SH X → Prop := fun k x =>
    x.Inv B.user r ∧ c.Valid s r x ∧ Doomed s.translator r x c.path (c.pagesFrom k)
  have hbody : ∀ k x, k < c.steps → I k x →
      c.unmapStep s c.guards (pageAfter c.start k) x = .error .deadlock ∨
        ∃ x', c.unmapStep s c.guards (pageAfter c.start k) x = .ok x' ∧ I (k + 1) x' := by
    rintro k h₁ hk ⟨hI₁, hc₁, hD₁⟩
    exact hc₁.unmapStep_doomed hI₁ hroot hl hk hD₁
  have hend : ∀ x, ¬ I c.steps x := by
    rintro h₁ ⟨hI₁, hc₁, hD₁⟩
    obtain ⟨t, ht, -⟩ := hc₁.covering
    rw [doomed_pagesFrom_gone hD₁ hI₁ hlt] at ht
    cases ht
  have hloop := forPages_error hbody hend (zero_add _) ⟨hI, hc, hD⟩
  rw [pageAfter_zero] at hloop
  exact hloop

end Loops

omit [Inhabited AP] [Inhabited SH] in
/-- A query waits if it finds a valid entry in a covering table that is a leaf. -/
lemma Cursor.Valid.query_guarded (hc : c.Valid s r h) (hI : h.Inv B.user r) (va : UInt64) :
    c.query s c.guards h va =
      if c.Contains va ∧ c.coveringLevel = 0 ∧ (view s.allocator r h va).isSome then
        .error .deadlock
      else c.query s .none h va := by
  by_cases hva : c.Contains va
  · obtain ⟨t, ht, hpa⟩ := hc.covering
    have htroute := ht
    rw [← hc.spans va hva] at htroute
    have hroute := route_eq (hc.toNat_lt hva)
    have hquery : ∀ g, c.query s g h va = queryFrom s g h va c.coveringLevel c.coveringPa :=
      fun g => if_pos hva
    rw [hquery, hquery, hpa, queryFrom_eq hI _ hc.level_le htroute,
      queryFrom_eq hI _ hc.level_le htroute, hroute, view_isSome, entryIndex_zero]
    cases he : h.entryAt s.translator r (pathOf va) (calculateIndex va 3) with
    | none =>
      rw [if_neg fun hcond => Bool.false_ne_true hcond.2.2]
      cases h.tableAt s.translator r (pathOf va) <;> rfl
    | some e =>
      obtain ⟨u, hu⟩ := Heap.tableAt_of_entryAt he
      obtain ⟨d, hd⟩ := (tracked_of_tableAt hI (pathOf_length_le va) hu).described
      simp only [hu, hd, bind, Except.bind, acquire_none, Option.isSome_some, and_true, hva,
        true_and]
      by_cases hl : c.coveringLevel = 0
      · have htu : t = u := by
          rw [hl, Nat.sub_zero, List.take_of_length_le (route_length va).le, hroute, hu] at htroute
          exact (Option.some.inj htroute).symm
        obtain ⟨d', hd', hwrite⟩ := hc.guards_covering
        rw [hpa, htu, hd] at hd'
        cases hd'
        rw [if_pos hl, acquire_of_write hwrite]
      · rw [if_neg hl, acquire_of_none (hc.guards_leaf hI (Nat.pos_of_ne_zero hl) hu hd)]
  · rw [if_neg fun hcond => hva hcond.1]
    exact (if_neg hva).trans (if_neg hva).symm

/-- Safe calls return, unless there is no table left, and leave the cursor valid. -/
lemma Access.Safe.gives (hc : c.Valid s r h) (hI : h.Inv B.user r) (hroot : s.root = some r)
    {a : Access AP SH} (ha : a.Safe s r c h) :
    Gives (s.unlocked AP) (a.exec s c h) fun h' => h'.Inv B.user r ∧ c.Valid s r h' := by
  cases a with
  | op o =>
    cases o with
    | map pa attrs => exact hc.map_guarded hI hroot ha pa attrs
    | mark status => exact hc.mark_guarded hI ha status
    | unmap =>
      obtain ⟨h', hok, hI', hc'⟩ := hc.unmap_guarded hI hroot ha
      rw [exec, Op.run, hok]
      exact ⟨hI', hc'⟩
  | query va =>
    have hfree : ¬ (c.Contains va ∧ c.coveringLevel = 0 ∧ (view s.allocator r h va).isSome) := by
      rintro ⟨hva, hl, hsome⟩
      rcases ha hva with hpos | hnone
      · omega
      · rw [hnone] at hsome
        cases hsome
    rw [exec, hc.query_guarded hI va, if_neg hfree]
    by_cases hva : c.Contains va
    · rw [hc.query_eq hI hva]
      exact ⟨hI, hc⟩
    · rw [show c.query s .none h va = .ok .invalid from if_neg hva]
      exact ⟨hI, hc⟩

/-- Other calls wait for a lock of their own cursor. -/
lemma Access.waits_of_not_safe (hc : c.Valid s r h) (hI : h.Inv B.user r) (hroot : s.root = some r)
    {a : Access AP SH} (ha : ¬ a.Safe s r c h) : a.exec s c h = .error .deadlock := by
  cases a with
  | op o =>
    cases o with
    | map pa attrs =>
      rw [Safe, not_or] at ha
      exact hc.map_waits hI hroot (by omega) (Nat.pos_of_ne_zero ha.1) pa attrs
    | mark status =>
      rw [Safe, not_or] at ha
      exact hc.mark_waits (by omega) (Nat.pos_of_ne_zero ha.1) status
    | unmap =>
      rw [Safe, not_or, not_and] at ha
      obtain ⟨hn, hs⟩ := ha
      rcases Nat.eq_zero_or_pos c.coveringLevel with hl | hl
      · exact hc.unmap_waits hI hroot hl (Nat.pos_of_ne_zero hn)
      · have hfate := hs hl
        rw [Cursor.Survives, not_or, not_not] at hfate
        exact hc.unmap_doomed hI hroot hl (lt_of_le_of_ne hc.level_le hfate.1) hfate.2
  | query va =>
    rw [Safe, Classical.not_imp, not_or] at ha
    obtain ⟨hva, hl, hsome⟩ := ha
    have hview : (view s.allocator r h va).isSome := Option.isSome_iff_ne_none.2 hsome
    rw [exec, hc.query_guarded hI va, if_pos ⟨hva, by omega, hview⟩]
    rfl

/-- A step of a run in which every call is safe. -/
def Cursor.SafeStep (s : AddressSpace X) (r : UInt64) (c : Cursor) (h h' : UserHeap AP SH X) :
    Prop :=
  ∃ a : Access AP SH, a.Safe s r c h ∧ a.exec s c h = .ok h'

/-- In every run of safe calls through a cursor, the next call waits for a lock that the cursor
holds, or accesses a table that is not alive, exactly if it is not safe. -/
theorem Cursor.waits_iff_not_safe (B : s.allocator.Spec) (hroot : s.root = some r)
    (hlevel : s.maxLevel = 3) (hI : h₀.Inv B.user r) {start stop : UInt64}
    (hstop : stop.toNat ≤ 2 ^ 48) (hlock : s.lock h₀ start stop = .ok c)
    (hrun : Relation.ReflTransGen (c.SafeStep s r) h₀ h) (a : Access AP SH) :
    a.exec s c h = .error .deadlock ∨ a.exec s c h = .error .badTable ↔ ¬ a.Safe s r c h := by
  obtain ⟨c', hc', rfl, rfl, hvalid⟩ := s.lock_spec hI hroot hlevel hstop start
  rw [hlock] at hc'
  cases hc'
  have hstate : h.Inv B.user r ∧ c.Valid s r h := by
    induction hrun with
    | refl => exact ⟨hI, hvalid⟩
    | tail _ hstep ih =>
      obtain ⟨b, hsafe, hok⟩ := hstep
      have hgives := hsafe.gives ih.2 ih.1 hroot
      rw [hok] at hgives
      exact hgives
  constructor
  · intro hwaits hsafe
    have hgives := hsafe.gives hstate.2 hstate.1 hroot
    rcases hwaits with herr | herr
    · rw [herr] at hgives
      cases hgives.1
    · rw [herr] at hgives
      cases hgives.1
  · intro hnot
    exact .inl (Access.waits_of_not_safe hstate.2 hstate.1 hroot hnot)

end Access

/-- Two pages of the empty tree are marked while the cursor holds its locks. -/
theorem Cursor.safe_mark :
    ¬ (sampleCursor.mark sampleSpace sampleCursor.guards sampleHeap (.privateAnonymous true) =
        .error .deadlock ∨
      sampleCursor.mark sampleSpace sampleCursor.guards sampleHeap (.privateAnonymous true) =
        .error .badTable) := by
  have hiff := Cursor.waits_iff_not_safe sampleSpec rfl rfl sampleHeap_inv (by decide)
    sampleSpace_lock .refl (.op (.mark (.privateAnonymous true)))
  intro hwaits
  exact hiff.1 hwaits (.inr (by decide))

/-- The empty tree after two pages were marked, which creates their leaf table. -/
def markedHeap : UserHeap Bool Bool Nat :=
  match sampleCursor.mark sampleSpace sampleCursor.guards sampleHeap (.privateAnonymous true) with
  | .ok h    => h
  | .error _ => sampleHeap

/-- A cursor for one of these pages. The leaf table is its covering table. -/
def leafCursor : Cursor :=
  ⟨0x4000, 0x8000, [(0x4000, 1), (0x8000, 2), (0xc000, 3)], some (0x10000, 4), 0x10000, 0⟩

lemma markedHeap_eq :
    sampleCursor.mark sampleSpace sampleCursor.guards sampleHeap (.privateAnonymous true) =
      .ok markedHeap := by
  have hmark : ∃ h, sampleCursor.mark sampleSpace sampleCursor.guards sampleHeap
      (.privateAnonymous true) = .ok h := ⟨_, rfl⟩
  obtain ⟨h, hh⟩ := hmark
  rw [markedHeap, hh]

/-- Operations of a cursor whose covering table is a leaf wait for its own lock. -/
theorem Cursor.leaf_waits :
    sampleCursor.mark sampleSpace sampleCursor.guards sampleHeap (.privateAnonymous true) =
        .ok markedHeap ∧
      sampleSpace.lock markedHeap 0x4000 0x8000 = .ok leafCursor ∧
      leafCursor.mark sampleSpace leafCursor.guards markedHeap .invalid = .error .deadlock ∧
      leafCursor.unmap sampleSpace leafCursor.guards markedHeap = .error .deadlock :=
  ⟨markedHeap_eq, rfl, rfl, rfl⟩

end Mars.Vm
