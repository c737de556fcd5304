import Mars.Vm.Placement
import Mars.Vm.Status
import Mathlib.Logic.Relation

/-!
# Cursors of overlapping ranges exclude each other

Every step of an agent keeps the tree of tables and what the other agents know about it. Since no
two covering tables are on one way from the root, no two agents install a table in the same entry,
which is why tables are only added and the locks stay where they are needed.
-/

namespace Mars.Vm

open Function Paging Lib.NodeTree

variable {T AP SH X : Type} {s : AddressSpace X} {r : UInt64}

namespace System

variable [DecidableEq T] {σ : System T AP SH X} {i j : T} {h : UserHeap AP SH X}
  {next : Phase AP SH}

/-! ### One step of an agent -/

lemma set_self (σ : System T AP SH X) (i : T) (h : UserHeap AP SH X) (next : Phase AP SH) :
    (σ.set i h next).phase i = next := by
  simp only [set, update_self]

lemma set_of_ne (hji : j ≠ i) : (σ.set i h next).phase j = σ.phase j := by
  simp only [set, update_of_ne hji]

lemma pending_set (t : UInt64) : (∃ j, ((σ.set i h next).phase j).pending = some t) ↔
    next.pending = some t ∨ ∃ j, j ≠ i ∧ (σ.phase j).pending = some t := by
  constructor
  · rintro ⟨j, hj⟩
    by_cases hji : j = i
    · rw [hji, set_self] at hj
      exact .inl hj
    · rw [set_of_ne hji] at hj
      exact .inr ⟨j, hji, hj⟩
  · rintro (hnext | ⟨j, hji, hj⟩)
    · exact ⟨i, by rw [set_self, hnext]⟩
    · exact ⟨j, by rw [set_of_ne hji, hj]⟩

lemma pending_iff (i : T) (t : UInt64) : (∃ j, (σ.phase j).pending = some t) ↔
    (σ.phase i).pending = some t ∨ ∃ j, j ≠ i ∧ (σ.phase j).pending = some t := by
  constructor
  · rintro ⟨j, hj⟩
    by_cases hji : j = i
    · exact .inl (hji ▸ hj)
    · exact .inr ⟨j, hji, hj⟩
  · rintro (hi | ⟨j, -, hj⟩)
    · exact ⟨i, hi⟩
    · exact ⟨j, hj⟩

/-- A table whose contents and whose place in the tree stay. -/
lemma tree_set_apply {t : UInt64} (htable : h.tables t = σ.heap.tables t)
    (hpending : next.pending = some t ↔ (σ.phase i).pending = some t) :
    (σ.set i h next).tree t = σ.tree t := by
  have hiff : (∃ j, ((σ.set i h next).phase j).pending = some t) ↔
      ∃ j, (σ.phase j).pending = some t := by
    rw [pending_set, pending_iff i, hpending]
  by_cases hp : ∃ j, (σ.phase j).pending = some t
  · obtain ⟨j, hj⟩ := hp
    obtain ⟨k, hk⟩ := hiff.2 ⟨j, hj⟩
    rw [tree_of_pending hk, tree_of_pending hj]
  · rw [tree_of_not_pending (mt hiff.1 hp), tree_of_not_pending hp]
    exact htable

lemma tree_set (htables : h.tables = σ.heap.tables)
    (hpending : next.pending = (σ.phase i).pending) : (σ.set i h next).tree = σ.tree := by
  funext t
  exact tree_set_apply (congrFun htables t) (by rw [hpending])

variable [Inhabited AP] [Inhabited SH] {B : s.allocator.Spec}

omit [DecidableEq T] in
/-- A pending table belongs to one agent. -/
lemma Memory.pending_self (hM : σ.Memory B r) {u : UInt64} (hu : (σ.phase i).pending = some u) :
    σ.heap.tables u = some TTable.new ∧ s.translator.dmapToPhys u ≠ 0 ∧
      ∀ j, j ≠ i → (σ.phase j).pending ≠ some u := by
  obtain ⟨hnew, hne⟩ := hM.pending i u hu
  exact ⟨hnew, hne, fun j hji hj => hji (hM.distinct j i u hj hu)⟩

/-- The whole invariant. -/
structure Inv (B : s.allocator.Spec) (r : UInt64) (σ : System T AP SH X) : Prop where
  memory : σ.Memory B r
  agents : σ.Agents s r

/-- A step that leads to the tree `H`. It adds tables at most. -/
lemma Inv.step (hI : σ.Inv B r) {H : UInt64 → Option (TTable AP SH)}
    (htree : (σ.set i h next).tree = H) (hH : IsTree (Tte.child s.translator) H r 3)
    (hcoherent : ∀ p n, p.length < 3 → nodeAt (Tte.child s.translator) H r p = some n →
      ∀ i, (n i).Coherent s.translator)
    (howned : ∀ t n, h.tables t = some n →
      B.base.live h.allocator.inner t ∧ s.allocator.Tracked t)
    (hnext : ∀ u, next.pending = some u → h.tables u = some TTable.new ∧
      s.translator.dmapToPhys u ≠ 0 ∧ ∀ j, j ≠ i → (σ.phase j).pending ≠ some u)
    (hothers : ∀ j u, j ≠ i → (σ.phase j).pending = some u → h.tables u = σ.heap.tables u)
    (hgrown : Grown s r σ.tree H)
    (hstay : ∀ j p, j ≠ i → (σ.phase j).vacant = some p → tableIn s r H p = none)
    (hplaced : next.Placed s r H) (hvacant : ∀ p, next.vacant = some p → tableIn s r H p = none)
    (hlocks : ∀ d m, (d, m) ∈ next.locks → (d, m) ∈ (σ.phase i).locks ∨ σ.Free d m) :
    (σ.set i h next).Inv B r := by
  obtain ⟨hM, hA⟩ := hI
  subst htree
  refine ⟨⟨hH, hcoherent, howned, ?_, ?_⟩, ⟨?_, ?_, ?_⟩⟩
  · refine (forall_update_iff σ.phase fun _ ph => ∀ u, ph.pending = some u →
      h.tables u = some TTable.new ∧ s.translator.dmapToPhys u ≠ 0).2 ⟨?_, ?_⟩
    · exact fun u hu => ⟨(hnext u hu).1, (hnext u hu).2.1⟩
    · exact fun j hji u hu => (hM.pending j u hu).imp_left (hothers j u hji hu).trans
  · intro j k u hj hk
    by_cases hji : j = i <;> by_cases hki : k = i
    · rw [hji, hki]
    · subst hji
      rw [set_self] at hj
      rw [set_of_ne hki] at hk
      exact absurd hk ((hnext u hj).2.2 k hki)
    · subst hki
      rw [set_self] at hk
      rw [set_of_ne hji] at hj
      exact absurd hj ((hnext u hk).2.2 j hji)
    · rw [set_of_ne hji] at hj
      rw [set_of_ne hki] at hk
      exact hM.distinct j k u hj hk
  · exact (forall_update_iff σ.phase fun _ ph => ph.Placed s r _).2
      ⟨hplaced, fun j _ => (hA.placed j).mono hgrown⟩
  · exact (forall_update_iff σ.phase fun _ ph => ∀ p, ph.vacant = some p → tableIn s r _ p = none).2
      ⟨hvacant, fun j hji p => hstay j p hji⟩
  · -- the locks of `i` against those of another agent
    have hkey : ∀ j d m m', j ≠ i → (d, m) ∈ next.locks → (d, m') ∈ (σ.phase j).locks →
        m = .read ∧ m' = .read := by
      intro j d m m' hji hm hm'
      rcases hlocks d m hm with hold | hfree
      · exact hA.exclusive i j d m m' hji.symm hold hm'
      · exact hfree j m' hm'
    intro j k d m m' hjk hm hm'
    by_cases hji : j = i
    · subst hji
      rw [set_self] at hm
      rw [set_of_ne hjk.symm] at hm'
      exact hkey k d m m' hjk.symm hm hm'
    · rw [set_of_ne hji] at hm
      by_cases hki : k = i
      · subst hki
        rw [set_self] at hm'
        exact (hkey j d m' m hji hm' hm).symm
      · rw [set_of_ne hki] at hm'
        exact hA.exclusive j k d m m' hjk hm hm'

/-- A step that changes no table and hands none out. -/
lemma Inv.set (hI : σ.Inv B r) {cur : Phase AP SH} (hph : σ.phase i = cur)
    (htables : h.tables = σ.heap.tables)
    (hinner : h.allocator.inner = σ.heap.allocator.inner)
    (hpending : next.pending = cur.pending) (hplaced : next.Placed s r σ.tree)
    (hvacant : ∀ p, next.vacant = some p → tableIn s r σ.tree p = none)
    (hlocks : ∀ d m, (d, m) ∈ next.locks → (d, m) ∈ cur.locks ∨ σ.Free d m) :
    (σ.set i h next).Inv B r := by
  subst hph
  refine hI.step (tree_set htables hpending) hI.memory.tree hI.memory.coherent ?_ ?_ ?_
    (fun _ _ _ ht => ht) (fun j p _ => hI.agents.vacant j p) hplaced hvacant hlocks
  · rw [htables, hinner]
    exact hI.memory.owned
  · intro u hu
    rw [htables]
    exact hI.memory.pending_self (hpending ▸ hu)
  · intro j u _ _
    rw [htables]

omit [DecidableEq T] in
lemma Inv.placed (hI : σ.Inv B r) {cur : Phase AP SH} (hph : σ.phase i = cur) :
    cur.Placed s r σ.tree := hph ▸ hI.agents.placed i

/-- What an agent does next keeps the invariant. -/
def Keeps (B : s.allocator.Spec) (r : UInt64) (σ : System T AP SH X) (i : T) :
    Act AP SH X → Prop
  | .call                => True
  | .acquire d mode next => σ.Free d mode → (σ.set i σ.heap next).Inv B r
  | .go h next           => (σ.set i h next).Inv B r

/-! ### Calls -/

lemma Inv.lock (hI : σ.Inv B r) (hlevel : s.maxLevel = 3) {start stop : UInt64}
    (hstop : stop.toNat ≤ 2 ^ 48) (hidle : σ.phase i = .idle) :
    (σ.set i σ.heap
      (.search ⟨start, stop, [], s.maxLevel, s.translator.dmapToPhys r⟩)).Inv B r := by
  refine hI.set hidle rfl rfl rfl ?_ nofun nofun
  rw [hlevel]
  refine ⟨Nat.le_refl 3, hstop, ⟨r, rfl, rfl⟩, ?_, ?_⟩
  · intro q hq hne
    exact absurd (List.prefix_nil.1 hq) hne
  · intro hlt
    rw [UInt64.lt_iff_toNat_lt] at hlt
    unfold entryCover pageShift
    dsimp only at hlt ⊢
    omega

lemma Inv.map (hI : σ.Inv B r) {c : Cursor} (hheld : σ.phase i = .held c) (pa : UInt64)
    (attrs : Attributes AP SH) : (σ.set i σ.heap (c.beginMap r pa attrs)).Inv B r := by
  have hc := hI.placed hheld
  unfold Cursor.beginMap
  cases hn : c.steps with
  | zero => exact hI.set hheld rfl rfl rfl hc nofun fun _ _ => .inl
  | succ left =>
    refine hI.set hheld rfl rfl rfl ⟨hc, Nat.le_refl _, ?_, by decide, rfl⟩ nofun fun _ _ => .inl
    unfold Cursor.steps at hn
    unfold pageSize pageShift at *
    dsimp only
    omega

lemma Inv.drop (hI : σ.Inv B r) {c : Cursor} (hheld : σ.phase i = .held c) :
    (σ.set i σ.heap (.unwind c.readGuards)).Inv B r :=
  hI.set hheld rfl rfl rfl trivial nofun fun _ _ hm => .inl (List.mem_append_right _ hm)

/-! ### Steps of `map` -/

section Map

variable {c : Cursor} {job : MapJob AP SH} {pc cur : MapPc} {level : Nat} {table new : UInt64}
variable {e : Tte AP SH} {x : Index} {n : TTable AP SH}

omit [DecidableEq T] in
lemma Inv.pc_placed (hI : σ.Inv B r) (hph : σ.phase i = .mapping c job) (hpc : job.pc = pc) :
    pc.Placed s r σ.tree job.va := hpc ▸ (hI.placed hph).2.pc

omit [DecidableEq T] in
lemma Inv.pc_vacant (hI : σ.Inv B r) (hph : σ.phase i = .mapping c job) (hpc : job.pc = pc)
    (hvacant : pc.vacant = some level) :
    tableIn s r σ.tree ((pathOf job.va).take (level + 1)) = none := by
  refine hI.agents.vacant i _ ?_
  rw [hph, Phase.vacant, hpc, hvacant]
  rfl

omit [DecidableEq T] [Inhabited AP] [Inhabited SH] in
lemma pending_of_pc (hph : σ.phase i = .mapping c job) (hpc : job.pc = pc) :
    (σ.phase i).pending = pc.pending := by
  rw [hph, Phase.pending, hpc]

section

variable (hI : σ.Inv B r) (hph : σ.phase i = .mapping c job)

include hI hph

/-- A step of `map` that changes no table and hands none out. -/
lemma Inv.set_pc (hpc : job.pc = cur)
    (htables : h.tables = σ.heap.tables) (hinner : h.allocator.inner = σ.heap.allocator.inner)
    (hpending : pc.pending = cur.pending) (hplaced : pc.Placed s r σ.tree job.va)
    (hvacant : ∀ level, pc.vacant = some level →
      tableIn s r σ.tree ((pathOf job.va).take (level + 1)) = none)
    (hlocks : ∀ d m, (d, m) ∈ pc.locks → (d, m) ∈ cur.locks ∨ σ.Free d m) :
    (σ.set i h (.mapping c { job with pc := pc })).Inv B r := by
  subst hpc
  obtain ⟨hc, hjob⟩ := hI.placed hph
  refine hI.set hph htables hinner hpending ⟨hc, hjob.start_le, hjob.left, hplaced⟩ ?_ ?_
  · intro p hp
    obtain ⟨level, hlevel, rfl⟩ := Option.map_eq_some_iff.1 hp
    exact hvacant level hlevel
  · intro d m hm
    rcases List.mem_append.1 hm with hm | hm
    · exact (hlocks d m hm).imp_left (List.mem_append_left _)
    · exact .inl (List.mem_append_right _ hm)

lemma Inv.next_page
    (htables : h.tables = σ.heap.tables) (hinner : h.allocator.inner = σ.heap.allocator.inner)
    (hpending : job.pc.pending = none) : (σ.set i h (job.next r c)).Inv B r := by
  obtain ⟨hc, hjob⟩ := hI.placed hph
  have hlocks : ∀ d m, (d, m) ∈ c.locks →
      (d, m) ∈ (Phase.mapping c job).locks ∨ σ.Free d m :=
    fun _ _ hm => .inl (List.mem_append_right _ hm)
  unfold MapJob.next
  cases hleft : job.left with
  | zero => exact hI.set hph htables hinner hpending.symm hc nofun hlocks
  | succ left =>
    have hlt := hjob.left
    have hstop := hc.stop_le
    rw [hleft, Nat.succ_mul] at hlt
    have hva : (job.va + UInt64.ofNat pageSize).toNat = job.va.toNat + pageSize := by
      rw [UInt64.toNat_add, UInt64.toNat_ofNat']
      omega
    refine hI.set hph htables hinner hpending.symm ⟨hc, ?_, ?_, by decide, rfl⟩ nofun hlocks
    · have hle := hjob.start_le
      rw [hva]
      omega
    · rw [hva]
      dsimp only
      omega

/-- The entry that `map_page` read decides how it goes on. -/
lemma Inv.walk
    (hpc : job.pc = .walk level table)
    (hread : σ.heap.readEntry table (calculateIndex job.va level) = .ok e) :
    (presentAt level e = true → (σ.set i σ.heap (.mapping c
      { job with pc := .enter level (s.translator.physToDmap e.address) })).Inv B r) ∧
    (presentAt level e = false → (σ.set i σ.heap (.mapping c
      { job with pc := .alloc level table })).Inv B r) := by
  obtain ⟨hl, ht⟩ := hI.pc_placed hph hpc
  obtain ⟨hcoherent, hnext⟩ := hI.memory.read ht (pathOf_take_lt job.va hl) hread
  rw [← pathOf_take_succ job.va hl] at hnext
  rw [presentAt_eq hcoherent]
  constructor
  · intro hv
    rw [Tte.child_of_valid hv] at hnext
    refine hI.set_pc hph hpc rfl rfl (MapPc.enter_pending _ _) (MapPc.enter_placed hl hnext) ?_ ?_
    · rw [MapPc.enter_vacant]
      simp
    · rw [MapPc.enter_locks]
      simp
  · intro hv
    rw [Tte.child_of_not_valid hv] at hnext
    refine hI.set_pc hph hpc rfl rfl rfl ⟨hl, ht⟩ ?_ fun _ _ h => by cases h
    rintro _ ⟨⟩
    exact hnext

/-- The wrapped allocator hands out a table that is not in the tree. -/
lemma Inv.alloc
    (hpc : job.pc = .alloc level table) {y : X}
    (hx : s.allocator.inner.allocTable σ.heap.allocator.inner = .ok (new, y))
    (htables : h.tables = update σ.heap.tables new (some TTable.new))
    (hinner : h.allocator.inner = y) :
    (σ.set i h (.mapping c { job with pc := .track level table new })).Inv B r := by
  obtain ⟨hc, hjob⟩ := hI.placed hph
  have hplaced := hI.pc_placed hph hpc
  have hvacant := hI.pc_vacant hph hpc rfl
  have hdead : σ.heap.tables new = none := by
    cases hn : σ.heap.tables new with
    | none => rfl
    | some n => exact absurd (hI.memory.owned new n hn).1 (B.base.fresh _ _ _ hx)
  have hnot : ∀ j, (σ.phase j).pending ≠ some new := by
    intro j hj
    rw [(hI.memory.pending j new hj).1] at hdead
    cases hdead
  have hnone : (σ.phase i).pending = none := pending_of_pc hph hpc
  have htree :
      (σ.set i h (.mapping c { job with pc := .track level table new })).tree = σ.tree := by
    funext t
    by_cases htn : t = new
    · rw [htn, tree_of_pending (i := i) (by rw [set_self]; rfl),
        tree_of_not_pending (fun ⟨j, hj⟩ => hnot j hj), hdead]
    · refine tree_set_apply ?_ ?_
      · rw [htables, update_of_ne htn]
      · rw [hnone]
        exact iff_of_false (fun heq => htn (Option.some.inj heq).symm) nofun
  refine hI.step htree hI.memory.tree hI.memory.coherent ?_ ?_ ?_ (fun _ _ _ ht => ht)
    (fun j p _ => hI.agents.vacant j p) ⟨hc, hjob.start_le, hjob.left, hplaced⟩ ?_ ?_
  · intro t n hn
    rw [htables] at hn
    rw [hinner]
    by_cases htn : t = new
    · rw [htn]
      exact ⟨B.base.live_alloc _ _ _ hx new (.inl rfl), B.tracked _ _ _ hx⟩
    · rw [update_of_ne htn] at hn
      obtain ⟨hlive, htracked⟩ := hI.memory.owned t n hn
      exact ⟨B.base.live_alloc _ _ _ hx t (.inr hlive), htracked⟩
  · intro u hu
    cases hu
    rw [htables, update_self]
    exact ⟨rfl, B.base.phys_ne_zero _ _ _ hx, fun j _ => hnot j⟩
  · intro j u _ hu
    have hun : u ≠ new := by
      rintro rfl
      exact hnot j hu
    rw [htables, update_of_ne hun]
  · rintro _ ⟨⟩
    exact hvacant
  · rw [hph]
    exact fun _ _ hm => .inl (List.mem_append_right _ hm)

end

/-- A table becomes a part of the tree when its entry is written. -/
lemma tree_set_link (hM : σ.Memory B r) (hpending : (σ.phase i).pending = some new)
    (hnext : next.pending = none) (hn : σ.tree table = some n)
    (htables : h.tables = setEntry σ.heap.tables table x e) :
    (σ.set i h next).tree = graft σ.tree table x e new (some TTable.new) := by
  obtain ⟨hnew, -, honly⟩ := hM.pending_self hpending
  have hne : table ≠ new := by
    rintro rfl
    rw [tree_of_pending hpending] at hn
    cases hn
  have hnot : ∀ {t : UInt64}, (∀ j, j ≠ i → (σ.phase j).pending ≠ some t) →
      (σ.set i h next).tree t = h.tables t := by
    intro t hother
    refine tree_of_not_pending ?_
    rw [pending_set, hnext]
    rintro (heq | ⟨j, hji, hj⟩)
    · cases heq
    · exact hother j hji hj
  funext t
  by_cases hnt : t = new
  · subst hnt
    rw [graft_node hne, hnot honly, htables, setEntry_of_ne hne.symm, hnew]
  by_cases htt : t = table
  · subst htt
    rw [graft_self hn hne, hnot, htables, setEntry_self (tables_of_tree hn)]
    intro j _ hj
    rw [tree_of_pending hj] at hn
    cases hn
  · rw [graft_of_ne htt hnt]
    refine tree_set_apply ?_ ?_
    · rw [htables, setEntry_of_ne htt]
    · rw [hnext, hpending]
      exact iff_of_false nofun fun heq => hnt (Option.some.inj heq).symm

omit [Inhabited AP] [Inhabited SH] in
/-- A write to a table of the tree while the agent has no table pending. -/
lemma tree_set_put (hpending : (σ.phase i).pending = none) (hnext : next.pending = none)
    (hn : σ.tree table = some n) (htables : h.tables = setEntry σ.heap.tables table x e) :
    (σ.set i h next).tree = setEntry σ.tree table x e := by
  funext t
  by_cases htt : t = table
  · subst htt
    rw [setEntry_self hn, tree_of_not_pending, show (σ.set i h next).heap = h from rfl, htables,
      setEntry_self (tables_of_tree hn)]
    rw [pending_set, hnext]
    rintro (heq | ⟨j, -, hj⟩)
    · cases heq
    · rw [tree_of_pending hj] at hn
      cases hn
  · rw [setEntry_of_ne htt]
    refine tree_set_apply ?_ (by rw [hnext, hpending])
    rw [htables, setEntry_of_ne htt]

omit [DecidableEq T] in
lemma Memory.owned_setEntry (hM : σ.Memory B r) {t : UInt64} {m : TTable AP SH}
    (hm : setEntry σ.heap.tables table x e t = some m) :
    B.base.live σ.heap.allocator.inner t ∧ s.allocator.Tracked t := by
  have hsome : (σ.heap.tables t).isSome := by
    rw [← setEntry_isSome (a := table) (i := x) (e := e)]
    exact Option.isSome_of_eq_some hm
  obtain ⟨m', hm'⟩ := Option.isSome_iff_exists.1 hsome
  exact hM.owned t m' hm'

omit [DecidableEq T] [Inhabited AP] [Inhabited SH] in
/-- A write to a table of the tree does not change a pending table. -/
lemma setEntry_pending {u : UInt64} (hn : σ.tree table = some n)
    (hu : (σ.phase j).pending = some u) : setEntry σ.heap.tables table x e u = σ.heap.tables u := by
  refine setEntry_of_ne ?_
  rintro rfl
  rw [tree_of_pending hu] at hn
  cases hn

omit [DecidableEq T] [Inhabited AP] [Inhabited SH] in
lemma tables_writeEntry (hn : σ.tree table = some n)
    (hwrite : σ.heap.writeEntry table x e = .ok h) :
    h.tables = setEntry σ.heap.tables table x e ∧ h.allocator = σ.heap.allocator := by
  rw [Heap.writeEntry_eq (tables_of_tree hn)] at hwrite
  cases hwrite
  exact ⟨rfl, rfl⟩

lemma Inv.install (hI : σ.Inv B r) (hph : σ.phase i = .mapping c job)
    (hpc : job.pc = .install level table new)
    (hwrite : σ.heap.writeEntry table (calculateIndex job.va level)
      (e.linkTo (s.translator.dmapToPhys new)) = .ok h) :
    (σ.set i h (.mapping c { job with pc := .enter level new })).Inv B r := by
  obtain ⟨hc, hjob⟩ := hI.placed hph
  obtain ⟨hl, ht⟩ := hI.pc_placed hph hpc
  have hvac : (σ.phase i).vacant = some ((pathOf job.va).take (level + 1)) := by
    rw [hph, Phase.vacant, hpc]
    rfl
  have hpending : (σ.phase i).pending = some new := pending_of_pc hph hpc
  have hnext : (Phase.mapping c { job with pc := .enter level new }).pending = none :=
    MapPc.enter_pending level new
  have hnone := hI.agents.vacant i _ hvac
  have hpd := pathOf_take_lt job.va hl
  have hdead : σ.tree new = none := tree_of_pending hpending
  obtain ⟨hnew, hne, -⟩ := hI.memory.pending_self hpending
  obtain ⟨-, htracked⟩ := hI.memory.owned new _ hnew
  obtain ⟨n, hn⟩ := hI.memory.tree.alive _ table hpd.le ht
  obtain ⟨htables, hallocator⟩ := tables_writeEntry hn hwrite
  have hlink : Links s.translator (e.linkTo (s.translator.dmapToPhys new)) new :=
    links_linkTo e new
  have hsnoc := pathOf_take_succ job.va hl
  have hempty : (n (calculateIndex job.va level)).child s.translator = none := by
    rw [hsnoc] at hnone
    exact (follow_snoc_of_node ht hn).symm.trans hnone
  have hgraft := isGraft_link ht hpd hn hempty hdead (hlink.child htracked.translate)
    fun k => Tte.child_of_not_valid (show ((TTable.new : TTable AP SH) k).isValid = false from rfl)
  have hfollow := fun q (hq : List.length q ≤ 3) => hI.memory.tree.follow_graft hgraft hq
  simp only [← hsnoc, Option.map_some] at hfollow
  have hgrown : Grown s r σ.tree (graft σ.tree table (calculateIndex job.va level)
      (e.linkTo (s.translator.dmapToPhys new)) new (some TTable.new)) := by
    intro q t hq hqt
    have hqne : q ≠ (pathOf job.va).take (level + 1) := by
      rintro rfl
      rw [hnone] at hqt
      cases hqt
    rw [tableIn, hfollow q hq, if_neg hqne]
    exact hqt
  refine hI.step (tree_set_link hI.memory hpending hnext hn htables) (hI.memory.tree.graft hgraft)
    ?_ ?_ ?_ ?_ hgrown ?_ ?_ ?_ ?_
  · refine Heap.coherent_graft hI.memory.tree hgraft hn (hlink.coherent htracked.translate hne) ?_
      hI.memory.coherent
    rintro _ ⟨⟩ k
    exact .inr ⟨rfl, rfl⟩
  · rw [htables, hallocator]
    exact fun t m hm => hI.memory.owned_setEntry hm
  · rw [hnext]
    simp
  · rw [htables]
    exact fun j u _ hu => setEntry_pending hn hu
  · intro j q hji hq
    rw [tableIn, hfollow q (Phase.vacant_length_le hq), if_neg (hI.agents.vacant_ne hji hq hvac)]
    exact hI.agents.vacant j q hq
  · refine ⟨hc.mono hgrown, hjob.start_le, hjob.left, MapPc.enter_placed hl ?_⟩
    rw [tableIn, hfollow _ (pathOf_take_length_le _ _), if_pos rfl]
  · rw [Phase.vacant, MapPc.enter_vacant]
    simp
  · rw [Phase.locks, MapPc.enter_locks, hph]
    exact fun _ _ hm => .inl (List.mem_append_right _ hm)

lemma Inv.put_page (hI : σ.Inv B r) (hph : σ.phase i = .mapping c job) (hpc : job.pc = .leaf table)
    (hwrite : σ.heap.writeEntry table (calculateIndex job.va 3) e = .ok h) (level : Nat)
    (pa : UInt64) : (σ.set i h (.mapping c { job with pc := .update level pa })).Inv B r := by
  obtain ⟨hc, hjob⟩ := hI.placed hph
  have ht : tableIn s r σ.tree (pathOf job.va) = some table := hI.pc_placed hph hpc
  have hpending : (σ.phase i).pending = none := pending_of_pc hph hpc
  have hpd : (pathOf job.va).length = 3 := rfl
  obtain ⟨n, hn⟩ := hI.memory.tree.alive (pathOf job.va) table le_rfl ht
  obtain ⟨htables, hallocator⟩ := tables_writeEntry hn hwrite
  have hfollow : ∀ q, q.length ≤ 3 →
      tableIn s r (setEntry σ.tree table (calculateIndex job.va 3) e) q = tableIn s r σ.tree q := by
    intro q hq
    exact hI.memory.tree.follow_setEntry_leaf ht hpd hq
  have hgrown : Grown s r σ.tree (setEntry σ.tree table (calculateIndex job.va 3) e) :=
    fun q t hq hqt => (hfollow q hq).trans hqt
  refine hI.step (tree_set_put hpending rfl hn htables) (hI.memory.tree.setEntry_leaf ht hpd) ?_ ?_
    nofun ?_ hgrown ?_ ⟨hc.mono hgrown, hjob.start_le, hjob.left, trivial⟩ nofun ?_
  · intro q m hq hm
    have hqp : q ≠ pathOf job.va := by
      rintro rfl
      exact absurd hq (lt_irrefl 3)
    rw [hI.memory.tree.nodeAt_setEntry_leaf ht hpd hn hq.le, if_neg hqp] at hm
    exact hI.memory.coherent q m hq hm
  · rw [htables, hallocator]
    exact fun t m hm => hI.memory.owned_setEntry hm
  · rw [htables]
    exact fun j u _ hu => setEntry_pending hn hu
  · intro j q _ hq
    rw [hfollow q (Phase.vacant_length_le hq)]
    exact hI.agents.vacant j q hq
  · rw [hph]
    exact fun _ _ hm => .inl (List.mem_append_right _ hm)

lemma Inv.act_map (hI : σ.Inv B r) (hroot : s.root = some r) (hph : σ.phase i = .mapping c job)
    {a : Act AP SH X} (hact : job.act s σ.heap c = .ok a) : σ.Keeps B r i a := by
  have hrootMut : s.rootMut = .ok r := by
    rw [AddressSpace.rootMut, hroot]
  unfold MapJob.act at hact
  generalize hpc : job.pc = pc at hact
  cases pc with
  | walk level table =>
    obtain ⟨e, hread, hact⟩ := ok_of_bind hact
    obtain ⟨hpresent, habsent⟩ := hI.walk hph hpc hread
    split_ifs at hact with hv
    · cases hact
      exact hpresent hv
    · cases hact
      exact habsent (Bool.eq_false_iff.2 hv)
  | alloc level table =>
    obtain ⟨⟨new, y⟩, hx, hact⟩ := ok_of_bind hact
    cases hact
    exact hI.alloc hph hpc hx rfl rfl
  | track level table new =>
    obtain ⟨d, -, hact⟩ := ok_of_bind hact
    cases hact
    intro hfree
    have hplaced := hI.pc_placed hph hpc
    refine hI.set_pc hph hpc rfl rfl rfl hplaced ?_ ?_
    · rintro _ ⟨⟩
      exact hI.pc_vacant hph hpc rfl
    · rintro _ _ hm
      cases List.mem_singleton.1 hm
      exact .inr hfree
  | reset level table new d =>
    cases hact
    have hplaced := hI.pc_placed hph hpc
    refine hI.set_pc hph hpc rfl rfl rfl hplaced ?_ fun _ _ h => by cases h
    rintro _ ⟨⟩
    exact hI.pc_vacant hph hpc rfl
  | install level table new =>
    obtain ⟨e, -, hact⟩ := ok_of_bind hact
    obtain ⟨h', hwrite, hact⟩ := ok_of_bind hact
    cases hact
    exact hI.install hph hpc hwrite
  | leaf table =>
    obtain ⟨h', hwrite, hact⟩ := ok_of_bind hact
    cases hact
    exact hI.put_page hph hpc hwrite _ _
  | update level pa =>
    cases level with
    | zero =>
      obtain ⟨d, -, hact⟩ := ok_of_bind hact
      cases hact
      intro hfree
      refine hI.set_pc hph hpc rfl rfl rfl trivial (fun _ h => by cases h) ?_
      rintro _ _ hm
      cases List.mem_singleton.1 hm
      exact .inr hfree
    | succ level =>
      obtain ⟨root, hr, hact⟩ := ok_of_bind hact
      rw [hrootMut] at hr
      cases hr
      obtain ⟨e, -, hact⟩ := ok_of_bind hact
      split_ifs at hact with hv
      · cases hact
        exact hI.set_pc hph hpc rfl rfl rfl trivial (fun _ h => by cases h) fun _ _ h => by cases h
      · cases hact
        exact hI.next_page hph rfl rfl (by rw [hpc]; rfl)
  | write d =>
    obtain ⟨root, hr, hact⟩ := ok_of_bind hact
    rw [hrootMut] at hr
    cases hr
    cases hact
    exact hI.next_page hph rfl rfl (by rw [hpc]; rfl)

end Map

/-! ### Steps of `lock` and of dropping a cursor -/

/-- The entry that `lock` read decides how it goes on. -/
lemma Inv.peek (hI : σ.Inv B r) {v : Search} {d : Nat} (hph : σ.phase i = .peek v d)
    {e : Tte AP SH}
    (hread : σ.heap.readEntry (s.translator.physToDmap v.pa) (entryIndex v.start v.level) = .ok e)
    (hvalid : (e.isValid && e.isTable) = true) :
    (σ.set i σ.heap (.search
      { v with guards := v.guards ++ [(v.pa, d)], level := v.level - 1, pa := e.address })).Inv
        B r := by
  obtain ⟨hv, hd, hpos, hindex⟩ := hI.placed hph
  obtain ⟨hvalid, -⟩ := Bool.and_eq_true_iff.1 hvalid
  obtain ⟨t, ht, hpa⟩ := hv.table
  have hlen : v.path.length < 3 := by
    rw [Search.path, route_take_length]
    omega
  rw [hpa, (hI.memory.tracked ht hlen.le).translate] at hread
  obtain ⟨hcoherent, hnext⟩ := hI.memory.read ht hlen hread
  rw [Tte.child_of_valid hvalid] at hnext
  have hdown := hv.down hpos hindex ht hpa hd hnext
  rw [hcoherent.address_eq hvalid] at hdown
  refine hI.set hph rfl rfl rfl hdown (fun _ h => by cases h) fun d' m hm => .inl ?_
  obtain ⟨g, hg, heq⟩ := List.mem_map.1 hm
  rcases List.mem_append.1 hg with hg | hg
  · exact .tail _ (List.mem_map.2 ⟨g, hg, heq⟩)
  · rw [List.mem_singleton.1 hg] at heq
    exact List.mem_cons.2 (.inl heq.symm)

lemma Inv.act (hI : σ.Inv B r) (hroot : s.root = some r) {a : Act AP SH X}
    (hact : (σ.phase i).act s σ.heap = .ok a) : σ.Keeps B r i a := by
  have hnew : ∀ {d : Nat} {mode : Mode} {locks : List (Nat × Mode)}, σ.Free d mode →
      ∀ d' m, (d', m) ∈ (d, mode) :: locks → (d', m) ∈ locks ∨ σ.Free d' m := by
    intro d mode locks hfree d' m hm
    rcases List.mem_cons.1 hm with heq | hm
    · cases heq
      exact .inr hfree
    · exact .inl hm
  generalize hph : σ.phase i = cur at hact
  cases cur with
  | idle =>
    cases hact
    trivial
  | search v =>
    have hplaced := hI.placed hph
    have hclaim : (σ.set i σ.heap (.claim v)).Inv B r :=
      hI.set hph rfl rfl rfl hplaced nofun fun _ _ => .inl
    simp only [Phase.act] at hact
    cases hl : v.level with
    | zero =>
      rw [hl] at hact
      cases hact
      exact hclaim
    | succ level =>
      rw [hl] at hact
      dsimp only at hact
      split_ifs at hact with hindex
      · obtain ⟨d, hd, hact⟩ := ok_of_bind hact
        cases hact
        intro hfree
        refine hI.set hph rfl rfl rfl ⟨hplaced, hd, ?_, ?_⟩ nofun (hnew hfree)
        · omega
        · rw [hl]
          exact hindex
      · cases hact
        exact hclaim
  | peek v d =>
    obtain ⟨e, hread, hact⟩ := ok_of_bind hact
    split_ifs at hact with hv
    · cases hact
      exact hI.peek hph hread hv
    · cases hact
      exact hI.set hph rfl rfl rfl (hI.placed hph).1 nofun fun _ _ => .inl
  | release v d =>
    cases hact
    have hplaced := hI.placed hph
    exact hI.set hph rfl rfl rfl hplaced nofun
      fun _ _ hm => .inl (.tail _ hm)
  | claim v =>
    obtain ⟨d, hd, hact⟩ := ok_of_bind hact
    cases hact
    intro hfree
    exact hI.set hph rfl rfl rfl (Search.Placed.cursor (hI.placed hph) hd) nofun (hnew hfree)
  | held c =>
    cases hact
    trivial
  | mapping c job =>
    exact hI.act_map hroot hph hact
  | unwind guards =>
    cases guards with
    | nil =>
      cases hact
      exact hI.set hph rfl rfl rfl trivial nofun nofun
    | cons g gs =>
      cases hact
      refine hI.set hph rfl rfl rfl trivial nofun fun d m hm => .inl ?_
      obtain ⟨g', hg, heq⟩ := List.mem_map.1 hm
      exact List.mem_map.2 ⟨g', List.mem_of_mem_dropLast hg, heq⟩

/-! ### Runs -/

lemma Step.inv {σ' : System T AP SH X} (hroot : s.root = some r) (hlevel : s.maxLevel = 3)
    (hstep : Step s r σ σ') (hI : σ.Inv B r) : σ'.Inv B r := by
  cases hstep with
  | lock i start stop hidle hstop => exact hI.lock hlevel hstop hidle
  | map i c pa attrs hheld => exact hI.map hheld pa attrs
  | drop i c hheld => exact hI.drop hheld
  | acquire i d mode next hact hfree => exact hI.act hroot hact hfree
  | go i h next hact => exact hI.act hroot hact

/-- Nobody has a cursor. -/
def start (h : UserHeap AP SH X) : System T AP SH X := ⟨h, fun _ => .idle⟩

omit [DecidableEq T] in
lemma inv_start (hI : h.Inv B.user r) : (start h : System T AP SH X).Inv B r := by
  have htree : (start h : System T AP SH X).tree = h.tables := by
    funext t
    refine tree_of_not_pending ?_
    rintro ⟨i, hi⟩
    cases hi
  refine ⟨⟨?_, ?_, hI.owned, ?_, ?_⟩, ⟨fun _ => trivial, ?_, ?_⟩⟩
  · rw [htree]
    exact hI.tree
  · rw [htree]
    exact hI.coherent
  · nofun
  · nofun
  · nofun
  · nofun

lemma inv_of_run {σ' : System T AP SH X} (hroot : s.root = some r) (hlevel : s.maxLevel = 3)
    (hI : σ.Inv B r) (hrun : Relation.ReflTransGen (Step s r) σ σ') : σ'.Inv B r := by
  induction hrun with
  | refl => exact hI
  | tail _ hstep ih => exact hstep.inv hroot hlevel ih

/-- In every state that is reached while any number of agents lock ranges, map pages and drop
their cursors, the cursors of different agents have no address in common, and the covering table
of a cursor is the table of its level for every address of the range. -/
theorem range_exclusion (B : s.allocator.Spec) (hroot : s.root = some r) (hlevel : s.maxLevel = 3)
    (hI : h.Inv B.user r) (hrun : Relation.ReflTransGen (Step s r) (start h) σ) :
    (∀ i j c c' va, i ≠ j → (σ.phase i).cursor = some c → (σ.phase j).cursor = some c' →
      c.Contains va → ¬ c'.Contains va) ∧
    ∀ i c va, (σ.phase i).cursor = some c → c.Contains va →
      va.toNat / entryCover (c.coveringLevel + 1) =
        c.start.toNat / entryCover (c.coveringLevel + 1) ∧
      ∃ t, σ.heap.tableAt s.translator r ((pathOf va).take (3 - c.coveringLevel)) = some t ∧
        c.coveringPa = s.translator.dmapToPhys t := by
  have hA := (inv_of_run hroot hlevel (inv_start hI) hrun).agents
  constructor
  · intro i j c c' va hij hc hc' hva hva'
    exact hA.not_comparable hij hc hc' (((hA.placed i).cursor hc).prefix_pathOf hva)
      (((hA.placed j).cursor hc').prefix_pathOf hva')
  · intro i c va hc hva
    have hplaced := (hA.placed i).cursor hc
    obtain ⟨t, d, ht, hpa, -⟩ := hplaced.covering
    rw [← hplaced.path_eq hva] at ht
    exact ⟨hplaced.cover_eq hva, t, tableAt_of_tree ht, hpa⟩

/-- One agent locks two pages while another one waits for the root table. -/
theorem range_exclusion_sample : ∃ σ : System Bool Bool Bool Nat,
    Relation.ReflTransGen (Step sampleSpace 0x4000) (start sampleHeap) σ ∧
      (σ.phase true).cursor = some sampleCursor ∧
      (∀ c, (σ.phase false).cursor = some c → ¬ c.Contains 0x8000) ∧
      ∃ t, σ.heap.tableAt sampleSpace.translator 0x4000 [] = some t ∧
        sampleCursor.coveringPa = sampleSpace.translator.dmapToPhys t := by
  let σ₁ := (start sampleHeap : System Bool Bool Bool Nat).set true sampleHeap 
    (.search ⟨0x4000, 0xc000, [], 3, 0x4000⟩)
  let σ₂ := σ₁.set false sampleHeap (.search ⟨0x8000, 0xc000, [], 3, 0x4000⟩)
  let σ₃ := σ₂.set true sampleHeap (.peek ⟨0x4000, 0xc000, [], 3, 0x4000⟩ 1)
  let σ₄ := σ₃.set true sampleHeap (.release ⟨0x4000, 0xc000, [], 3, 0x4000⟩ 1)
  let σ₅ := σ₄.set true sampleHeap (.claim ⟨0x4000, 0xc000, [], 3, 0x4000⟩)
  let σ₆ := σ₅.set true sampleHeap (.held sampleCursor)
  have hfree : ∀ {σ : System Bool Bool Bool Nat} {d : Nat} {m : Mode},
      (∀ j, (σ.phase j).locks = []) → σ.Free d m := by
    intro σ d m hnone j m' hm
    rw [hnone] at hm
    cases hm
  have h₁ : Step sampleSpace 0x4000 (start sampleHeap) σ₁ := .lock true _ _ rfl (by decide)
  have h₂ : Step sampleSpace 0x4000 σ₁ σ₂ := .lock false _ _ rfl (by decide)
  have h₃ : Step sampleSpace 0x4000 σ₂ σ₃ := 
    .acquire true 1 .read _ rfl (hfree (by decide))
  have h₄ : Step sampleSpace 0x4000 σ₃ σ₄ := .go true _ _ rfl
  have h₅ : Step sampleSpace 0x4000 σ₄ σ₅ := .go true _ _ rfl
  have h₆ : Step sampleSpace 0x4000 σ₅ σ₆ := .acquire true 1 .write _ rfl (hfree (by decide))
  have hrun : Relation.ReflTransGen (Step sampleSpace 0x4000) (start sampleHeap) σ₆ :=
    (((((Relation.ReflTransGen.single h₁).tail h₂).tail h₃).tail h₄).tail h₅).tail h₆
  obtain ⟨hexclude, hspan⟩ := range_exclusion sampleSpec rfl rfl sampleHeap_inv hrun
  refine ⟨σ₆, hrun, rfl, ?_, ?_⟩
  · exact fun c hc => hexclude true false sampleCursor c 0x8000 (by decide) rfl hc (by decide)
  · exact (hspan true sampleCursor 0x8000 rfl (by decide)).2

end System

end Mars.Vm
