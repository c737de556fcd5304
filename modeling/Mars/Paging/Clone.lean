import Mars.Paging.BlockMapper
import Mars.Paging.Refinement
import Mathlib.Order.Fin.Basic

/-!
# Copies of page tables

Embedding of `clone_page_tables`. Addresses of entries are used as pointers, so this is for an
identity mapping. Every table of the source has its own copy; blocks and pages are copied as they
are, and invalid entries stay zero above the level of pages.
-/

namespace Mars.Paging

open Lib.NodeTree Heap Function

variable {AP SH X : Type} {A : TableAllocator X}

/-! ### The code -/

def copyEntries (h : Heap AP SH X) (src new : UInt64) : List Index → Except Trap (Heap AP SH X)
  | []      => .ok h
  | i :: is => do
    let e ← h.readEntry src i
    let h ← h.writeEntry new i e
    copyEntries h src new is

def Tte.setAddress (e : Tte AP SH) (a : UInt64) : Tte AP SH := { e with address := a }

/-- The loop of the other levels, with the function for the level below. -/
def cloneEntries (next : Heap AP SH X → UInt64 → Except Trap (UInt64 × Heap AP SH X))
    (h : Heap AP SH X) (src new : UInt64) : List Index → Except Trap (Heap AP SH X)
  | []      => .ok h
  | i :: is => do
    let e ← h.readEntry src i
    if !e.isValid then cloneEntries next h src new is
    else if e.isTable then
      let (child, h) ← next h e.address
      let h ← h.writeEntry new i (e.setAddress child)
      cloneEntries next h src new is
    else
      let h ← h.writeEntry new i e
      cloneEntries next h src new is

section Code

variable [Inhabited AP] [Inhabited SH] (A : TableAllocator X)

/-- `clone_l3`, and `clone_l2`, `clone_l1` and `clone_l0` with one, two and three levels below. -/
def cloneLevel : Nat → Heap AP SH X → UInt64 → Except Trap (UInt64 × Heap AP SH X)
  | 0, h, src         => do
    let (new, h) ← h.allocTable A
    let h ← copyEntries h src new (List.finRange 2048)
    .ok (new, h)
  | level + 1, h, src => do
    let (new, h) ← h.allocTable A
    let h ← cloneEntries (cloneLevel level) h src new (List.finRange 2048)
    .ok (new, h)

def clonePageTables (h : Heap AP SH X) (old : UInt64) : Except Trap (UInt64 × Heap AP SH X) :=
  cloneLevel A 3 h old

end Code

variable {S : AllocatorSpec A identity} {f g g' : Nodes UInt64 Index (Tte AP SH)}
  {h h₁ h₂ : Heap AP SH X} {src new t u : UInt64} {i : Index} {n m : TTable AP SH}
  {e e' : Tte AP SH} {level : Nat}

/-! ### New tables -/

namespace Heap

/-- Every table that is alive is in use. -/
def Owned (S : AllocatorSpec A identity) (h : Heap AP SH X) : Prop :=
  ∀ t n, h.tables t = some n → S.live h.allocator t

/-- The heap has grown by the tables in `g`. -/
structure Grows (S : AllocatorSpec A identity) (g : Nodes UInt64 Index (Tte AP SH))
    (h h' : Heap AP SH X) : Prop where
  tables : ∀ t, h'.tables t = (h.tables t).or (g t)
  fresh : ∀ t n, g t = some n → ¬ S.live h.allocator t
  nonzero : ∀ t n, g t = some n → t ≠ 0
  live : ∀ t, S.live h.allocator t ∨ (g t).isSome → S.live h'.allocator t

lemma Owned.disjoint (howned : h.Owned S) (hgrows : h.Grows S g h₁) (hn : g t = some n) :
    h.tables t = none := by
  cases hm : h.tables t with
  | none => rfl
  | some m => exact absurd (howned t m hm) (hgrows.fresh t n hn)

lemma Grows.owned (howned : h.Owned S) (hgrows : h.Grows S g h₁) : h₁.Owned S := by
  intro t n hn
  rw [hgrows.tables] at hn
  refine hgrows.live t ?_
  cases hold : h.tables t with
  | some m => exact .inl (howned t m hold)
  | none =>
    rw [hold, Option.none_or] at hn
    exact .inr (Option.isSome_of_eq_some hn)

lemma Grows.of_old (hgrows : h.Grows S g h₁) (hn : h.tables t = some n) : h₁.tables t = some n := by
  rw [hgrows.tables, hn]
  rfl

section

variable (howned : h.Owned S) (hgrows : h.Grows S g h₁) (hn : g t = some n)

include howned hgrows hn

lemma Grows.of_new : h₁.tables t = some n := by
  rw [hgrows.tables, howned.disjoint hgrows hn, Option.none_or, hn]

lemma Grows.update
    (m : TTable AP SH) : h.Grows S (update g t (some m))
      { h₁ with tables := Function.update h₁.tables t (some m) } := by
  have hold := howned.disjoint hgrows hn
  have hsome : ∀ u, (Function.update g t (some m) u).isSome = (g u).isSome := by
    intro u
    by_cases hu : u = t
    · rw [hu, update_self, hn]
      rfl
    · rw [update_of_ne hu]
  have hnew : ∀ u m', Function.update g t (some m) u = some m' → ∃ m', g u = some m' := by
    intro u m' hm'
    rw [← Option.isSome_iff_exists, ← hsome, hm']
    rfl
  refine ⟨?_, ?_, ?_, ?_⟩
  · intro u
    by_cases hu : u = t
    · subst hu
      simp only [update_self, hold, Option.none_or]
    · simp only [update_of_ne hu, hgrows.tables]
  · intro u m' hm'
    obtain ⟨m'', hm''⟩ := hnew u m' hm'
    exact hgrows.fresh u m'' hm''
  · intro u m' hm'
    obtain ⟨m'', hm''⟩ := hnew u m' hm'
    exact hgrows.nonzero u m'' hm''
  · intro u hu
    rw [hsome] at hu
    exact hgrows.live u hu

lemma Grows.put (i : Index) (e : Tte AP SH) : h.Grows S (setEntry g t i e) (h₁.put t i e) := by
  have hput := hgrows.update howned hn (Function.update n i e)
  rw [setEntry, Heap.put, setEntry, hgrows.of_new howned hn, hn]
  exact hput

end

/-- The heap grows by two sets of tables, one after the other. -/
lemma Grows.trans (hgrows : h.Grows S g h₁) (hgrows' : h₁.Grows S g' h₂) :
    h.Grows S (fun t => (g t).or (g' t)) h₂ := by
  have hcase : ∀ t n, (g t).or (g' t) = some n → g t = some n ∨ g' t = some n := by
    intro t n hn
    cases hg : g t with
    | some m =>
      rw [hg] at hn
      exact .inl hn
    | none =>
      rw [hg, Option.none_or] at hn
      exact .inr hn
  refine ⟨?_, ?_, ?_, ?_⟩
  · intro t
    rw [hgrows'.tables, hgrows.tables, Option.or_assoc]
  · intro t n hn hlive
    rcases hcase t n hn with hn | hn
    · exact hgrows.fresh t n hn hlive
    · exact hgrows'.fresh t n hn (hgrows.live t (.inl hlive))
  · intro t n hn
    rcases hcase t n hn with hn | hn
    · exact hgrows.nonzero t n hn
    · exact hgrows'.nonzero t n hn
  · rintro t (hlive | hsome)
    · exact hgrows'.live t (.inl (hgrows.live t (.inl hlive)))
    · obtain ⟨n, hn⟩ := Option.isSome_iff_exists.1 hsome
      rcases hcase t n hn with hn | hn
      · exact hgrows'.live t (.inl (hgrows.live t (.inr (Option.isSome_of_eq_some hn))))
      · exact hgrows'.live t (.inr (Option.isSome_of_eq_some hn))

variable [Inhabited AP] [Inhabited SH]

lemma Owned.allocTable (howned : h.Owned S) : Gives A (h.allocTable A) fun res =>
    h.Grows S (update (fun _ => none) res.1 (some TTable.new)) res.2 := by
  rw [Heap.allocTable]
  cases hx : A.allocTable h.allocator with
  | error e =>
    obtain rfl := S.alloc_error _ _ hx
    exact ⟨rfl, _, hx⟩
  | ok res =>
    obtain ⟨t, x⟩ := res
    have hnew : ∀ u n, update (fun _ => none) t (some TTable.new) u =
        some (n : TTable AP SH) → u = t := by
      intro u n hn
      by_contra hu
      rw [update_of_ne hu] at hn
      cases hn
    have hold : h.tables t = none := by
      cases hm : h.tables t with
      | none => rfl
      | some m => exact absurd (howned t m hm) (S.fresh _ _ _ hx)
    refine ⟨?_, ?_, ?_, ?_⟩
    · intro u
      by_cases hu : u = t
      · subst hu
        simp only [update_self, hold, Option.none_or]
      · simp only [update_of_ne hu, Option.or_none]
    · intro u n hn
      rw [hnew u n hn]
      exact S.fresh _ _ _ hx
    · intro u n hn
      rw [hnew u n hn]
      exact S.phys_ne_zero _ _ _ hx
    · rintro u (hlive | hsome)
      · exact S.live_alloc _ _ _ hx u (.inr hlive)
      · obtain ⟨n, hn⟩ := Option.isSome_iff_exists.1 hsome
        exact S.live_alloc _ _ _ hx u (.inl (hnew u n hn))

end Heap

/-! ### Copies -/

variable [Inhabited AP] [Inhabited SH]

/-- The copy of an entry above the level of pages. -/
inductive CopiesEntry (R : UInt64 → UInt64 → Prop) (e : Tte AP SH) : Tte AP SH → Prop where
  | invalid (hv : e.isValid = false) : CopiesEntry R e Tte.invalid
  | block (hv : e.isValid = true) (ht : e.isTable = false) : CopiesEntry R e e
  | table {c : UInt64} (hv : e.isValid = true) (ht : e.isTable = true) (hc : R e.address c) :
      CopiesEntry R e (e.setAddress c)

/-- The table `t'` of `g` is a copy of the table `t` of `f`, down to the level of pages. -/
def Copies (f g : Nodes UInt64 Index (Tte AP SH)) : Nat → UInt64 → UInt64 → Prop
  | 0, t, t'         => ∃ n, f t = some n ∧ g t' = some n
  | level + 1, t, t' => ∃ n n', f t = some n ∧ g t' = some n' ∧
      ∀ i, CopiesEntry (fun c c' => Copies f g level c c') (n i) (n' i)

lemma CopiesEntry.mono {R R' : UInt64 → UInt64 → Prop} (he : CopiesEntry R e e')
    (hR : ∀ c c', R c c' → R' c c') : CopiesEntry R' e e' := by
  cases he with
  | invalid hv => exact .invalid hv
  | block hv ht => exact .block hv ht
  | table hv ht hc => exact .table hv ht (hR _ _ hc)

lemma Copies.mono (hcopies : Copies f g level t u) (hg : ∀ t n, g t = some n → g' t = some n) :
    Copies f g' level t u := by
  induction level generalizing t u with
  | zero =>
    obtain ⟨n, hn, hn'⟩ := hcopies
    exact ⟨n, hn, hg u n hn'⟩
  | succ level ih =>
    obtain ⟨n, n', hn, hn', hentries⟩ := hcopies
    exact ⟨n, n', hn, hg u n' hn', fun i => (hentries i).mono fun _ _ hc => ih hc⟩

/-- The heap has grown by a tree below `new`, which is a copy of the table `src` of `f`. -/
structure Heap.ClonedTo (S : AllocatorSpec A identity) (f : Nodes UInt64 Index (Tte AP SH))
    (level : Nat) (h : Heap AP SH X) (src new : UInt64) (g : Nodes UInt64 Index (Tte AP SH))
    (h' : Heap AP SH X) : Prop where
  grows : h.Grows S g h'
  tree : IsTree (Tte.tableChild identity) g new level
  copies : Copies f g level src new

/-- What can be read of the tables below `t`. -/
def Readable (f : Nodes UInt64 Index (Tte AP SH)) (level : Nat) (t : UInt64) : Prop :=
  ∀ p u, p.length ≤ level → follow (Tte.tableChild identity) f t p = some u → ∃ n, f u = some n

/-! ### The level of pages -/

omit [Inhabited AP] [Inhabited SH] in
lemma copyEntries_spec (hsrc : h.tables src = some n) (hnew : h.tables new = some m)
    (hne : src ≠ new) (is : List Index) : copyEntries h src new is =
      .ok { h with tables :=
        Function.update h.tables new (some fun i => if i ∈ is then n i else m i) } := by
  induction is generalizing h m with
  | nil =>
    rw [copyEntries]
    simp [← hnew]
  | cons i is ih =>
    rw [copyEntries, readEntry_eq hsrc]
    simp only [bind, Except.bind, writeEntry_eq hnew]
    rw [ih (m := update m i (n i))]
    · simp only [setEntry, update_idem]
      have hentries : (fun j => if j ∈ is then n j else update m i (n i) j) =
          fun j => if j ∈ i :: is then n j else m j := by
        funext j
        by_cases hj : j = i
        · simp [hj]
        · simp [hj]
      rw [hentries]
    · simp only [setEntry_of_ne hne, hsrc]
    · exact setEntry_self hnew

/-- `clone_l3`. -/
lemma cloneLevel_zero_spec (howned : h.Owned S) (hf : ∀ t n, f t = some n → h.tables t = some n)
    (hsrc : f src = some n) : Gives A (cloneLevel A 0 h src) fun res =>
      ∃ g, h.ClonedTo S f 0 src res.1 g res.2 := by
  refine howned.allocTable.bind ?_
  rintro ⟨new, h₁⟩ hgrows
  have hnew : Function.update (fun _ => none) new (some TTable.new) new =
      some (TTable.new : TTable AP SH) := Function.update_self ..
  have hne : src ≠ new := by
    rintro rfl
    have hdead := howned.disjoint hgrows hnew
    rw [hf src n hsrc] at hdead
    cases hdead
  dsimp only
  rw [copyEntries_spec (hgrows.of_old (hf src n hsrc)) (hgrows.of_new howned hnew) hne]
  simp only [List.mem_finRange, if_true]
  have hcloned := hgrows.update howned hnew n
  rw [Function.update_idem] at hcloned
  refine ⟨_, hcloned, .single nofun, n, hsrc, Function.update_self ..⟩

/-! ### The other levels -/

/-- A copy of the table `c` is in `g`, but not in the table `new`. -/
def Held (f g : Nodes UInt64 Index (Tte AP SH)) (new : UInt64) (level : Nat) (c c' : UInt64) :
    Prop :=
  ∃ g₀ : Nodes UInt64 Index (Tte AP SH),
    (∀ t n, g₀ t = some n → t ≠ new ∧ g t = some n) ∧ Copies f g₀ level c c'

/-- Entries of the table `new` were filled with copies of the entries `n`: those in `is`. -/
structure Heap.Fills (S : AllocatorSpec A identity) (f : Nodes UInt64 Index (Tte AP SH))
    (level : Nat) (h : Heap AP SH X) (n : TTable AP SH) (new : UInt64) (is : List Index)
    (g : Nodes UInt64 Index (Tte AP SH)) (m : TTable AP SH) (h' : Heap AP SH X)
    (g' : Nodes UInt64 Index (Tte AP SH)) (m' : TTable AP SH) : Prop where
  grows : h.Grows S g' h'
  tree : IsTree (Tte.tableChild identity) g' new (level + 1)
  root : g' new = some m'
  keeps : ∀ t n, t ≠ new → g t = some n → g' t = some n
  rest : ∀ i, i ∉ is → m' i = m i
  copied : ∀ i ∈ is, CopiesEntry (Held f g' new level) (n i) (m' i)

/-- One more entry, if it was copied before the others. -/
lemma Heap.Fills.cons {is : List Index} {g₁ : Nodes UInt64 Index (Tte AP SH)}
    {m₁ m' : TTable AP SH} (hfills : h.Fills S f level n new is g₁ m₁ h₁ g' m') (hi : i ∉ is)
    (hkeeps : ∀ t n, t ≠ new → g t = some n → g₁ t = some n) (hrest : ∀ j, j ≠ i → m₁ j = m j)
    (hcopied : CopiesEntry (Held f g' new level) (n i) (m₁ i)) :
    h.Fills S f level n new (i :: is) g m h₁ g' m' where
  grows := hfills.grows
  tree := hfills.tree
  root := hfills.root
  keeps t n ht hn := hfills.keeps t n ht (hkeeps t n ht hn)
  rest j hj := by
    rw [List.mem_cons, not_or] at hj
    rw [hfills.rest j hj.2, hrest j hj.1]
  copied j hj := by
    rcases List.mem_cons.1 hj with rfl | hj
    · rw [hfills.rest j hi]
      exact hcopied
    · exact hfills.copied j hj

section Entries

variable {next : Heap AP SH X → UInt64 → Except Trap (UInt64 × Heap AP SH X)}
  (howned : h.Owned S) (hf : ∀ t n, f t = some n → h.tables t = some n) (hsrc : f src = some n)
  (hnext : ∀ (i : Index) (h₁ : Heap AP SH X), h₁.Owned S →
    (∀ t n, f t = some n → h₁.tables t = some n) → (n i).isValid = true →
    (n i).isTable = true → Gives A (next h₁ (n i).address) fun res =>
      ∃ g, h₁.ClonedTo S f level (n i).address res.1 g res.2)

include howned hf hsrc hnext

lemma cloneEntries_spec (is : List Index) (his : is.Nodup) (hgrows : h.Grows S g h₁)
    (htree : IsTree (Tte.tableChild identity) g new (level + 1)) (hm : g new = some m)
    (hinvalid : ∀ i ∈ is, m i = Tte.invalid) :
    Gives A (cloneEntries next h₁ src new is) fun h₂ =>
      ∃ g' m', h.Fills S f level n new is g m h₂ g' m' := by
  induction is generalizing g m h₁ with
  | nil => exact ⟨g, m, hgrows, htree, hm, fun _ _ _ hn => hn, fun _ _ => rfl, nofun⟩
  | cons i is ih =>
    obtain ⟨hi, his⟩ := List.nodup_cons.1 his
    have hentry := hinvalid i (.head _)
    have hothers : ∀ e, ∀ j ∈ is, update m i e j = Tte.invalid := by
      intro e j hj
      rw [update_of_ne, hinvalid j (.tail _ hj)]
      rintro rfl
      exact hi hj
    have hnew₁ := hgrows.of_new howned hm
    have hchild : (m i).tableChild identity = none := by
      rw [hentry]
      rfl
    rw [cloneEntries, readEntry_eq (hgrows.of_old (hf src n hsrc))]
    simp only [bind, Except.bind]
    cases hv : (n i).isValid with
    | false =>
      refine (ih his hgrows htree hm fun j hj => hinvalid j (.tail _ hj)).mono ?_
      rintro h₂ ⟨g', m', hfills⟩
      refine ⟨g', m', hfills.cons hi (fun _ _ _ hn => hn) (fun _ _ => rfl) ?_⟩
      rw [hentry]
      exact .invalid hv
    | true =>
    cases ht : (n i).isTable with
    | false =>
      rw [if_neg Bool.false_ne_true, writeEntry_eq hnew₁]
      have hsame : (n i).tableChild identity = (m i).tableChild identity := by
        rw [hchild, Tte.tableChild_of_not_table (by rw [hv, ht]; rfl)]
      have htree' := htree.of_follow_eq (fun q _ => follow_setEntry_of_child_eq hm hsame)
          fun _ => setEntry_isSome
      refine (ih his (hgrows.put howned hm i (n i)) htree' (setEntry_self hm) (hothers _)).mono ?_
      rintro h₂ ⟨g', m', hfills⟩
      refine ⟨g', m', hfills.cons hi ?_ (fun j hj => update_of_ne hj ..) ?_⟩
      · intro t n' htn hn'
        rw [setEntry_of_ne htn, hn']
      · rw [update_self]
        exact .block hv ht
    | true =>
      rw [if_pos rfl]
      have howned₁ := hgrows.owned howned
      refine (hnext i h₁ howned₁ (fun t n hn => hgrows.of_old (hf t n hn)) hv ht).bind ?_
      rintro ⟨c, h₂⟩ ⟨gc, hcloned⟩
      have hdisj : ∀ b m, gc b = some m → g b = none := by
        intro b m' hb
        cases hgb : g b with
        | none => rfl
        | some m'' =>
          have hdead := howned₁.disjoint hcloned.grows hb
          rw [hgrows.of_new howned hgb] at hdead
          cases hdead
      have hboth : (g new).or (gc new) = some m := by
        rw [hm]
        rfl
      rw [writeEntry_eq (hcloned.grows.of_old hnew₁)]
      have htree' := htree.attach hcloned.tree hdisj hm hchild
        (e := (n i).setAddress c) (Tte.tableChild_of_table (by simp [Tte.setAddress, hv, ht]))
      refine (ih his ((hgrows.trans hcloned.grows).put howned hboth i ((n i).setAddress c))
        htree' (attach_root hm) (hothers _)).mono ?_
      rintro h₃ ⟨g', m', hfills⟩
      refine ⟨g', m', hfills.cons hi ?_ (fun j hj => update_of_ne hj ..) ?_⟩
      · intro t n' htn hn'
        exact attach_of_old htn hn'
      · rw [update_self]
        refine .table hv ht ⟨gc, ?_, hcloned.copies⟩
        intro t n' hn'
        have htn : t ≠ new := by
          rintro rfl
          rw [hdisj t n' hn'] at hm
          cases hm
        exact ⟨htn, hfills.keeps t n' htn (attach_of_new hdisj hm hn')⟩

lemma cloneTable_spec {is : List Index} (his : is.Nodup) (hall : ∀ i, i ∈ is) :
    Gives A (h.allocTable A >>= fun res =>
      cloneEntries next res.2 src res.1 is >>= fun h => .ok (res.1, h))
      fun res => ∃ g, h.ClonedTo S f (level + 1) src res.1 g res.2 := by
  refine howned.allocTable.bind ?_
  rintro ⟨new, h₁⟩ hgrows
  refine (cloneEntries_spec howned hf hsrc hnext is his hgrows (.single fun _ _ => rfl)
    (update_self ..) fun _ _ => rfl).bind ?_
  rintro h₂ ⟨g', m', hfills⟩
  refine ⟨g', hfills.grows, hfills.tree, n, m', hsrc, hfills.root, fun i => ?_⟩
  refine (hfills.copied i (hall i)).mono ?_
  rintro c c' ⟨g₀, hg₀, hcopies⟩
  exact hcopies.mono fun t n hn => (hg₀ t n hn).2

end Entries

/-- The copy of a table and of all tables below it, by induction on the levels below. -/
lemma cloneLevel_spec (howned : h.Owned S) (hf : ∀ t n, f t = some n → h.tables t = some n)
    (hread : Readable f level src) : Gives A (cloneLevel A level h src) fun res =>
      ∃ g, h.ClonedTo S f level src res.1 g res.2 := by
  induction level generalizing h src with
  | zero =>
    obtain ⟨n, hn⟩ := hread [] src le_rfl rfl
    exact cloneLevel_zero_spec howned hf hn
  | succ level ih =>
    obtain ⟨n, hn⟩ := hread [] src (Nat.zero_le _) rfl
    refine cloneTable_spec howned hf hn ?_ (List.nodup_finRange 2048) List.mem_finRange
    intro i h₁ howned₁ hf₁ hv ht
    refine ih howned₁ hf₁ fun p u hp hu => hread (i :: p) u (Nat.succ_le_succ hp) ?_
    rw [follow, hn, Option.bind_some, Tte.tableChild_of_table (by rw [hv, ht]; rfl)]
    exact hu

/-! ### What a copy translates -/

section Translate

variable (hf : ∀ t n, f t = some n → h.tables t = some n)
  (hg : ∀ t n, g t = some n → h.tables t = some n)

include hf hg

/-- A step of the walk through a table and its copy: the walks go on through a table and its copy,
or end at the same entry. -/
lemma Copies.bind_present {β : Type} (hcopies : Copies f g (level + 1) t u) (i : Index)
    {F F' G : Tte AP SH → Option β}
    (hF : ∀ e c, Copies f g level e.address c → F e = F' (e.setAddress c)) :
    ((h.present t i).bind fun e => if e.isTable then F e else G e) =
      (h.present u i).bind fun e => if e.isTable then F' e else G e := by
  obtain ⟨n, n', hn, hn', hentries⟩ := hcopies
  rw [Heap.present, Heap.present, hf t n hn, hg u n' hn', Option.bind_some, Option.bind_some]
  generalize hi : n' i = e'
  have hentry := hentries i
  rw [hi] at hentry
  cases hentry with
  | invalid hv =>
    rw [Tte.valid?, hv]
    rfl
  | block hv ht => simp [Tte.valid?, hv, ht]
  | @table c hv ht hc =>
    have hvalid : ∀ e : Tte AP SH, e.isValid = true → e.valid? = some e := fun e he => if_pos he
    rw [hvalid _ hv, hvalid ((n i).setAddress c) hv, Option.bind_some, Option.bind_some, if_pos ht,
      hF _ _ hc]
    exact (if_pos ht).symm

lemma Copies.translate_eq (hcopies : Copies f g 3 t u) (va : UInt64) :
    h.translate identity t va = h.translate identity u va := by
  rw [Heap.translate, Heap.translate]
  refine hcopies.bind_present hf hg _ fun e0 l1 h1 => ?_
  refine h1.bind_present hf hg _ fun e1 l2 h2 => ?_
  refine h2.bind_present hf hg _ fun e2 l3 h3 => ?_
  obtain ⟨n, hn, hn'⟩ := h3
  have hsame : h.present e2.address (calculateIndex va 3) = h.present l3 (calculateIndex va 3) := by
    rw [Heap.present, Heap.present, hf _ n hn, hg l3 n hn']
  exact congrArg (Option.bind · _) hsame

end Translate

/-- Every table of the copy is a copy of the table at the same path. -/
lemma Copies.follow {p : List Index} {u' : UInt64} (hcopies : Copies f g level t u)
    (hp : p.length ≤ level) (hu : follow (Tte.tableChild identity) g u p = some u') :
    ∃ t', Lib.NodeTree.follow (Tte.tableChild identity) f t p = some t' ∧
      Copies f g (level - p.length) t' u' := by
  induction p generalizing level t u with
  | nil =>
    cases hu
    exact ⟨t, rfl, hcopies⟩
  | cons i p ih =>
    obtain ⟨level, rfl⟩ : ∃ k, level = k + 1 := ⟨level - 1, by simp at hp; omega⟩
    obtain ⟨n, n', hn, hn', hentries⟩ := hcopies
    rw [Lib.NodeTree.follow, hn', Option.bind_some] at hu
    obtain ⟨c', hc', hu⟩ := Option.bind_eq_some_iff.1 hu
    generalize hi : n' i = e' at hc'
    have hentry := hentries i
    rw [hi] at hentry
    cases hentry with
    | invalid hv => cases hc'
    | block hv ht =>
      rw [Tte.tableChild, hv, ht] at hc'
      cases hc'
    | table hv ht hc =>
      rw [Tte.tableChild_of_table (by simp [Tte.setAddress, hv, ht])] at hc'
      cases hc'
      obtain ⟨t', ht', hcopies'⟩ := ih hc (Nat.le_of_succ_le_succ hp) hu
      refine ⟨t', ?_, by simpa using hcopies'⟩
      rw [Lib.NodeTree.follow, hn, Option.bind_some, Tte.tableChild_of_table (by rw [hv, ht]; rfl)]
      exact ht'

end Mars.Paging
