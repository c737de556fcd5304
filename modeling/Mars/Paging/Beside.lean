import Mars.Paging.Mapper

/-!
# A tree beside other tables

An operation of the mapper that returns when only the tables of its own tree are alive returns as
well when other tables are alive, and it leaves these as they are.
-/

namespace Mars.Paging

open Lib.NodeTree

variable {AP SH X : Type} {A : TableAllocator X} {tr : AddressTranslator}

/-! ### Related computations -/

/-- If the first computation returns or has no memory left, so does the second one, with a related
result. -/
structure Carries {α β : Type} (R : α → β → Prop) (x : Except Trap α) (y : Except Trap β) :
    Prop where
  ok : ∀ a, x = .ok a → ∃ b, y = .ok b ∧ R a b
  outOfMemory : x = .error .outOfMemory → y = .error .outOfMemory

section Carries

variable {α β α' β' : Type} {R : α → β → Prop} {R' : α' → β' → Prop} {x : Except Trap α}
  {y : Except Trap β}

lemma Carries.return {a : α} {b : β} (hab : R a b) : Carries R (.ok a) (.ok b) where
  ok := by
    rintro _ ⟨⟩
    exact ⟨b, rfl, hab⟩
  outOfMemory := by simp

lemma Carries.error (e : Trap) : Carries R (.error e) (.error e) where
  ok := by simp
  outOfMemory := by simp

lemma Carries.bind {f : α → Except Trap α'} {g : β → Except Trap β'} (hxy : Carries R x y)
    (hfg : ∀ a b, R a b → Carries R' (f a) (g b)) : Carries R' (x >>= f) (y >>= g) := by
  cases hx : x with
  | ok a =>
    obtain ⟨b, rfl, hab⟩ := hxy.ok a hx
    exact hfg a b hab
  | error e =>
    refine ⟨fun a ha => (by cases ha), ?_⟩
    intro he
    obtain rfl : e = .outOfMemory := Except.error.inj he
    rw [hxy.outOfMemory hx]
    rfl

lemma Carries.ite {P : Prop} [Decidable P] {x' : Except Trap α} {y' : Except Trap β}
    (hxy : P → Carries R x y) (hxy' : ¬ P → Carries R x' y') :
    Carries R (if P then x else x') (if P then y else y') := by
  split_ifs with hP
  · exact hxy hP
  · exact hxy' hP

/-- The same for an outcome in the sense of `Gives`. -/
lemma Carries.gives {Q : α → Prop} (hxy : Carries R x y) (hx : Gives A x Q) :
    Gives A y fun b => ∃ a, R a b ∧ Q a := by
  cases hres : x with
  | ok a =>
    obtain ⟨b, rfl, hab⟩ := hxy.ok a hres
    rw [hres] at hx
    exact ⟨a, hab, hx⟩
  | error e =>
    rw [hres] at hx
    obtain ⟨rfl, hx⟩ := hx
    rw [hxy.outOfMemory hres]
    exact ⟨rfl, hx⟩

end Carries

/-! ### Tables beside a tree -/

/-- The tables of `H` are those of `h` and those in `f`, which are in use as well. -/
structure Heap.Beside (S : AllocatorSpec A tr) (f : Nodes UInt64 Index (Tte AP SH))
    (h H : Heap AP SH X) : Prop where
  tables : ∀ t, H.tables t = (h.tables t).or (f t)
  disjoint : ∀ t n, f t = some n → h.tables t = none
  live : ∀ t n, f t = some n → S.live h.allocator t
  allocator : H.allocator = h.allocator

variable {S : AllocatorSpec A tr} {f : Nodes UInt64 Index (Tte AP SH)} {h H : Heap AP SH X}
  {r t u va : UInt64} {i : Index} {e : Tte AP SH} {n : TTable AP SH}

namespace Heap.Beside

section

variable (hH : h.Beside S f H)

include hH

lemma of_own (hn : h.tables t = some n) : H.tables t = some n := by
  rw [hH.tables, hn]
  rfl

lemma of_other (hn : f t = some n) : H.tables t = some n := by
  rw [hH.tables, hH.disjoint t n hn, hn]
  rfl

lemma none_of_own (hn : h.tables t = some n) : f t = none := by
  cases hf : f t with
  | none => rfl
  | some m =>
    rw [hH.disjoint t m hf] at hn
    cases hn

/-- Exchange the content of one table that is not in `f`. -/
lemma update (hf : f t = none) (y : Option (TTable AP SH)) (u : UInt64) :
    Function.update H.tables t y u = (Function.update h.tables t y u).or (f u) := by
  by_cases hu : u = t
  · subst hu
    rw [Function.update_self, Function.update_self, hf, Option.or_none]
  · rw [Function.update_of_ne hu, Function.update_of_ne hu, hH.tables]

lemma update_disjoint (hf : f t = none) (y : Option (TTable AP SH))
    (hu : f u = some n) : Function.update h.tables t y u = none := by
  have hut : u ≠ t := by
    rintro rfl
    rw [hf] at hu
    cases hu
  rw [Function.update_of_ne hut, hH.disjoint u n hu]

lemma readEntry : Carries (· = ·) (h.readEntry t i) (H.readEntry t i) := by
  cases hn : h.tables t with
  | none =>
    rw [Heap.readEntry, hn]
    exact ⟨by simp, by simp⟩
  | some n =>
    rw [readEntry_eq hn, readEntry_eq (hH.of_own hn)]
    exact .return rfl

lemma isTableEmpty : Carries (· = ·) (h.isTableEmpty t) (H.isTableEmpty t) := by
  cases hn : h.tables t with
  | none =>
    rw [Heap.isTableEmpty, hn]
    exact ⟨by simp, by simp⟩
  | some n =>
    rw [isTableEmpty_eq hn, isTableEmpty_eq (hH.of_own hn)]
    exact .return rfl

lemma writeEntry : Carries (Heap.Beside S f) (h.writeEntry t i e) (H.writeEntry t i e) := by
  cases hn : h.tables t with
  | none =>
    rw [Heap.writeEntry, hn]
    exact ⟨by simp, by simp⟩
  | some n =>
    have hf := hH.none_of_own hn
    rw [writeEntry_eq hn, writeEntry_eq (hH.of_own hn), setEntry, setEntry, hH.of_own hn, hn]
    refine .return ⟨hH.update hf _, ?_, hH.live, hH.allocator⟩
    intro u m hu
    exact hH.update_disjoint hf _ hu

lemma freeTable : Carries (Heap.Beside S f) (h.freeTable A t) (H.freeTable A t) := by
  cases hn : h.tables t with
  | none =>
    rw [Heap.freeTable, hn]
    exact ⟨by simp, by simp⟩
  | some n =>
    have hf := hH.none_of_own hn
    rw [Heap.freeTable, Heap.freeTable, hn, hH.of_own hn, hH.allocator]
    cases hx : A.freeTable t h.allocator with
    | error e => exact .error e
    | ok x =>
      refine .return ⟨hH.update hf _, fun u m hu => hH.update_disjoint hf _ hu, ?_, rfl⟩
      intro u m hu
      refine S.live_free _ _ _ hx u ?_ (hH.live u m hu)
      rintro rfl
      rw [hf] at hu
      cases hu

end

variable [Inhabited AP] [Inhabited SH]

lemma allocTable (hH : h.Beside S f H) :
    Carries (fun res res' => res.1 = res'.1 ∧ res.2.Beside S f res'.2) (h.allocTable A)
      (H.allocTable A) := by
  rw [Heap.allocTable, Heap.allocTable, hH.allocator]
  cases hx : A.allocTable h.allocator with
  | error e => exact .error e
  | ok res =>
    obtain ⟨t, x⟩ := res
    have hf : f t = none := by
      cases hf : f t with
      | none => rfl
      | some n => exact absurd (hH.live t n hf) (S.fresh _ _ _ hx)
    refine .return ⟨rfl, hH.update hf _, fun u m hu => hH.update_disjoint hf _ hu, ?_, rfl⟩
    intro u m hu
    exact S.live_alloc _ _ _ hx u (.inr (hH.live u m hu))

end Heap.Beside

/-! ### The mapper -/

lemma reclaim_beside {next : Heap AP SH X → Except Trap (Heap AP SH X)} (hH : h.Beside S f H)
    (hnext : ∀ h H : Heap AP SH X, h.Beside S f H → Carries (Heap.Beside S f) (next h) (next H)) :
    Carries (Heap.Beside S f) (reclaim A h u t i e next) (reclaim A H u t i e next) := by
  refine hH.isTableEmpty.bind ?_
  rintro empty _ rfl
  refine .ite (fun _ => ?_) fun _ => .return hH
  refine hH.freeTable.bind fun h₁ H₁ hH₁ => ?_
  exact hH₁.writeEntry.bind hnext

lemma unmapPage_beside (hH : h.Beside S f H) :
    Carries (Heap.Beside S f) (unmapPage A tr h r va) (unmapPage A tr H r va) := by
  refine hH.readEntry.bind ?_
  rintro e0 _ rfl
  refine .ite (fun _ => .return hH) fun _ => hH.readEntry.bind ?_
  rintro e1 _ rfl
  refine .ite (fun _ => .return hH) fun _ => hH.readEntry.bind ?_
  rintro e2 _ rfl
  refine .ite (fun _ => .return hH) fun _ => hH.readEntry.bind ?_
  rintro e3 _ rfl
  refine .ite (fun _ => .return hH) fun _ => hH.writeEntry.bind fun h₁ H₁ hH₁ => ?_
  refine reclaim_beside hH₁ fun h₂ H₂ hH₂ => reclaim_beside hH₂ fun h₃ H₃ hH₃ => ?_
  exact reclaim_beside hH₃ fun h₄ H₄ hH₄ => .return hH₄

variable [Inhabited AP] [Inhabited SH]

lemma childTable_beside {present : Tte AP SH → Bool} (hH : h.Beside S f H) :
    Carries (fun res res' => res.1 = res'.1 ∧ res.2.Beside S f res'.2)
      (childTable A tr present h t i) (childTable A tr present H t i) := by
  refine hH.readEntry.bind ?_
  rintro e _ rfl
  refine .ite (fun _ => .return ⟨rfl, hH⟩) fun _ => hH.allocTable.bind ?_
  rintro ⟨u, h₁⟩ ⟨_, H₁⟩ ⟨rfl, hH₁⟩
  exact hH₁.writeEntry.bind fun h₂ H₂ hH₂ => .return ⟨rfl, hH₂⟩

lemma mapPage_beside {pa : UInt64} {attrs : Attributes AP SH} (hH : h.Beside S f H) :
    Carries (Heap.Beside S f) (mapPage A tr h r pa va attrs) (mapPage A tr H r pa va attrs) := by
  refine (childTable_beside hH).bind ?_
  rintro ⟨l1, h₁⟩ ⟨_, H₁⟩ ⟨rfl, hH₁⟩
  refine (childTable_beside hH₁).bind ?_
  rintro ⟨l2, h₂⟩ ⟨_, H₂⟩ ⟨rfl, hH₂⟩
  refine (childTable_beside hH₂).bind ?_
  rintro ⟨l3, h₃⟩ ⟨_, H₃⟩ ⟨rfl, hH₃⟩
  exact hH₃.writeEntry

end Mars.Paging
