import Mathlib.Algebra.BigOperators.Group.Finset.Basic
import Mathlib.Algebra.Order.BigOperators.Group.Finset
import Mathlib.Tactic.Common
import Mathlib.Algebra.GroupWithZero.Nat

/-!
# Cells that are owned by blocks

Every block has a finite set of cells, its span, and a cell has at most one owner. The ownership is
consistent if a block that owns a cell owns its whole span and nothing else. Then blocks that own
something have disjoint spans.
-/

namespace Mars.Lib.Ownership

variable {C β : Type*} (span : β → Finset C) {owner : C → Option β} {b d : β} {c : C}

def Consistent (owner : C → Option β) : Prop :=
  ∀ c b, owner c = some b → c ∈ span b ∧ ∀ c' ∈ span b, owner c' = some b

variable {span}

namespace Consistent

lemma mem (h : Consistent span owner) (hc : owner c = some b) : c ∈ span b := (h c b hc).1

lemma eq_of_mem (h : Consistent span owner) (hc : owner c = some b) {c' : C} (hc' : c' ∈ span b) :
    owner c' = some b :=
  (h c b hc).2 c' hc'

lemma disjoint (h : Consistent span owner) {c' : C} (hc : owner c = some b)
    (hc' : owner c' = some d) (hne : b ≠ d) : Disjoint (span b) (span d) := by
  rw [Finset.disjoint_left]
  intro x hx hx'
  have heq := (h.eq_of_mem hc hx).symm.trans (h.eq_of_mem hc' hx')
  exact hne (Option.some.inj heq)

end Consistent

variable [DecidableEq C]

variable (span) in
def assign (owner : C → Option β) (b : β) : C → Option β :=
  fun c => if c ∈ span b then some b else owner c

variable (span) in
def release (owner : C → Option β) (b : β) : C → Option β :=
  fun c => if c ∈ span b then none else owner c

lemma assign_of_mem (hc : c ∈ span b) : assign span owner b c = some b := if_pos hc

lemma assign_of_notMem (hc : c ∉ span b) : assign span owner b c = owner c := if_neg hc

lemma release_of_mem (hc : c ∈ span b) : release span owner b c = none := if_pos hc

lemma release_of_notMem (hc : c ∉ span b) : release span owner b c = owner c := if_neg hc

lemma assign_eq_none_iff : assign span owner b c = none ↔ c ∉ span b ∧ owner c = none := by
  by_cases hc : c ∈ span b
  · simp [assign_of_mem hc, hc]
  · simp [assign_of_notMem hc, hc]

lemma release_eq_none_iff : release span owner b c = none ↔ c ∈ span b ∨ owner c = none := by
  by_cases hc : c ∈ span b
  · simp [release_of_mem hc, hc]
  · simp [release_of_notMem hc, hc]

/-- A cell of a block whose span was given to it is owned by it, any other cell as before. -/
lemma assign_eq_some_iff (hfree : ∀ c ∈ span b, owner c = none) :
    assign span owner b c = some d ↔ (c ∈ span b ∧ d = b) ∨ owner c = some d := by
  by_cases hc : c ∈ span b
  · rw [assign_of_mem hc, hfree c hc]
    simp [hc, eq_comm]
  · rw [assign_of_notMem hc]
    simp [hc]

namespace Consistent

variable (h : Consistent span owner)

include h

lemma release_eq_some_iff {c' : C} (hb : owner c' = some b) :
    release span owner b c = some d ↔ owner c = some d ∧ d ≠ b := by
  by_cases hc : c ∈ span b
  · rw [release_of_mem hc, h.eq_of_mem hb hc]
    simp [eq_comm]
  · rw [release_of_notMem hc]
    refine ⟨fun hd => ⟨hd, ?_⟩, And.left⟩
    rintro rfl
    exact hc (h.mem hd)

lemma assign (hfree : ∀ c ∈ span b, owner c = none) : Consistent span (assign span owner b) := by
  intro c d hc
  rcases (assign_eq_some_iff hfree).1 hc with ⟨hmem, rfl⟩ | hc
  · exact ⟨hmem, fun c' hc' => assign_of_mem hc'⟩
  · refine ⟨h.mem hc, fun c' hc' => ?_⟩
    exact (assign_eq_some_iff hfree).2 (.inr (h.eq_of_mem hc hc'))

lemma release {c' : C} (hb : owner c' = some b) : Consistent span (release span owner b) := by
  intro c d hc
  obtain ⟨hc, hne⟩ := (h.release_eq_some_iff hb).1 hc
  refine ⟨h.mem hc, fun x hx => ?_⟩
  exact (h.release_eq_some_iff hb).2 ⟨h.eq_of_mem hc hx, hne⟩

/-- Blocks that own something have no more cells together than there are. -/
lemma sum_card_le [DecidableEq β] {bs : List β} (hnodup : bs.Nodup)
    (howns : ∀ b ∈ bs, ∃ c, owner c = some b) {cells : Finset C}
    (hsub : ∀ b ∈ bs, span b ⊆ cells) : (bs.map fun b => (span b).card).sum ≤ cells.card := by
  have hdisjoint : (bs.toFinset : Set β).PairwiseDisjoint span := by
    intro b hb d hd hne
    obtain ⟨c, hc⟩ := howns b (List.mem_toFinset.1 hb)
    obtain ⟨c', hc'⟩ := howns d (List.mem_toFinset.1 hd)
    exact h.disjoint hc hc' hne
  rw [← List.sum_toFinset _ hnodup, ← Finset.card_biUnion hdisjoint]
  refine Finset.card_le_card ?_
  intro c hc
  obtain ⟨b, hb, hmem⟩ := Finset.mem_biUnion.1 hc
  exact hsub b (List.mem_toFinset.1 hb) hmem

end Consistent

end Mars.Lib.Ownership
