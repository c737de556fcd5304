import Mars.Lib.Memory
import Mathlib.Data.List.Pairwise

/-!
# Doubly linked lists in memory

A node starts with the address of the next node and that of the previous one, and the address 0
stands for no node. The list is read off the memory as a chain of segments, and pushing, popping
and unlinking a node do to the memory what the same operations do to the list of its addresses.
-/

namespace Mars.Lib.DList

open Mem

def next (m : Mem) (x : Nat) : Nat := m.word x

def prev (m : Mem) (x : Nat) : Nat := m.word (x + 8)

def setNext (m : Mem) (x v : Nat) : Mem := m.setWord x v

def setPrev (m : Mem) (x v : Nat) : Mem := m.setWord (x + 8) v

/-- Let the node `x`, if there is one, point back to `v`. -/
def linkBack (m : Mem) (x v : Nat) : Mem := if x = 0 then m else setPrev m x v

def push (m : Mem) (head x : Nat) : Mem := linkBack (setPrev (setNext m x head) x 0) head x

/-- Take the first node `x` out, the list then starts at `next m x`. -/
def pop (m : Mem) (x : Nat) : Mem := linkBack m (next m x) 0

def unlink (m : Mem) (head x : Nat) : Mem × Nat :=
  if prev m x ≠ 0 then (linkBack (setNext m (prev m x) (next m x)) (next m x) (prev m x), head)
  else (linkBack m (next m x) (prev m x), next m x)

def links (x : Nat) : Set Nat := Set.Ico x (x + 16)

def Apart (x y : Nat) : Prop := x + 16 ≤ y ∨ y + 16 ≤ x

/-- The nodes `l` are met from the pointer `p` on, the first one points back to `b`, and after the
last one, which is `b'`, comes the pointer `p'`. -/
def Seg (m : Mem) : (b p : Nat) → List Nat → (b' p' : Nat) → Prop
  | b, p, [],     b', p' => b = b' ∧ p = p'
  | b, p, x :: l, b', p' => p = x ∧ x ≠ 0 ∧ prev m x = b ∧ Seg m x (next m x) l b' p'

/-- The memory holds the list `l`, and `head` is the pointer to its first node. -/
structure IsList (m : Mem) (head : Nat) (l : List Nat) : Prop where
  seg : ∃ last, Seg m 0 head l last 0
  apart : l.Pairwise Apart
  lt : ∀ x ∈ l, x < 2 ^ 64

variable {m m' : Mem} {a b b' p p' v x y head last : Nat} {l l₁ l₂ : List Nat}

/-! ### Frames -/

lemma Apart.symm (h : Apart x y) : Apart y x := Or.symm h

lemma mem_links : a ∈ links x ↔ x ≤ a ∧ a < x + 16 := Iff.rfl

lemma Apart.notMem (h : Apart x y) (ha : a ∈ links x) : a ∉ links y := by
  rw [mem_links] at *
  rcases h with h | h <;> omega

lemma next_congr (hm : Set.EqOn m m' (links x)) : next m x = next m' x :=
  word_congr fun _ ha => hm ⟨ha.1, by have := ha.2; omega⟩

lemma prev_congr (hm : Set.EqOn m m' (links x)) : prev m x = prev m' x :=
  word_congr fun _ ha => hm ⟨by have := ha.1; omega, by have := ha.2; omega⟩

lemma setNext_apply (ha : a ∉ links x) : setNext m x v a = m a := by
  refine setWord_of_outside ?_
  rw [mem_links] at ha
  omega

lemma setPrev_apply (ha : a ∉ links x) : setPrev m x v a = m a := by
  refine setWord_of_outside ?_
  rw [mem_links] at ha
  omega

lemma linkBack_apply (ha : x ≠ 0 → a ∉ links x) : linkBack m x v a = m a := by
  unfold linkBack
  split_ifs with hx
  · rfl
  · exact setPrev_apply (ha hx)

@[simp] lemma next_setNext (hv : v < 2 ^ 64) : next (setNext m x v) x = v := word_setWord hv

@[simp] lemma prev_setPrev (hv : v < 2 ^ 64) : prev (setPrev m x v) x = v := word_setWord hv

@[simp] lemma prev_setNext : prev (setNext m x v) x = prev m x :=
  word_setWord_of_disjoint (.inr le_rfl)

@[simp] lemma next_setPrev : next (setPrev m x v) x = next m x :=
  word_setWord_of_disjoint (.inl le_rfl)

/-! ### Segments -/

lemma Seg.congr (h : Seg m b p l b' p') (hm : ∀ x ∈ l, Set.EqOn m m' (links x)) :
    Seg m' b p l b' p' := by
  induction l generalizing b p with
  | nil => exact h
  | cons x l ih =>
    obtain ⟨hp, hx, hprev, hrest⟩ := h
    have hfirst := hm x (.head _)
    refine ⟨hp, hx, ?_, ?_⟩
    · rw [← prev_congr hfirst, hprev]
    · rw [← next_congr hfirst]
      exact ih hrest fun y hy => hm y (.tail x hy)

lemma seg_append : Seg m b p (l₁ ++ l₂) b' p' ↔ ∃ c q, Seg m b p l₁ c q ∧ Seg m c q l₂ b' p' := by
  induction l₁ generalizing b p with
  | nil => simp [Seg]
  | cons x l ih => simp [Seg, ih, and_assoc]

lemma Seg.eq_zero_iff (h : Seg m b p l b' 0) : p = 0 ↔ l = [] := by
  cases l with
  | nil => simp [h.2]
  | cons x l => simp [h.1, h.2.1]

/-- The last node of a segment is changed to point elsewhere. -/
lemma Seg.setNext_last (h : Seg m b p (l ++ [x]) b' p') (hl : ∀ y ∈ l, Apart x y)
    (hv : v < 2 ^ 64) : Seg (setNext m x v) b p (l ++ [x]) x v := by
  rw [seg_append] at h ⊢
  obtain ⟨c, q, hseg, hq, hx, hprev, -, -⟩ := h
  refine ⟨c, q, hseg.congr ?_, hq, hx, ?_, rfl, ?_⟩
  · exact fun y hy a ha => (setNext_apply ((hl y hy).symm.notMem ha)).symm
  · rw [prev_setNext, hprev]
  · exact next_setNext hv

/-- The first node of a segment, if there is one, is changed to point back elsewhere. -/
lemma Seg.linkBack_first (h : Seg m b p l b' 0) (hl : l.Pairwise Apart) (hv : v < 2 ^ 64) :
    ∃ c, Seg (linkBack m p v) v p l c 0 := by
  cases l with
  | nil => exact ⟨v, rfl, h.2⟩
  | cons x l =>
    obtain ⟨rfl, hx, -, hrest⟩ := h
    rw [List.pairwise_cons] at hl
    refine ⟨b', rfl, hx, ?_, ?_⟩
    · rw [linkBack, if_neg hx, prev_setPrev hv]
    · rw [linkBack, if_neg hx, next_setPrev]
      exact hrest.congr fun y hy a ha => (setPrev_apply ((hl.1 y hy).symm.notMem ha)).symm

/-! ### Lists -/

lemma IsList.congr (h : IsList m head l) (hm : ∀ x ∈ l, Set.EqOn m m' (links x)) :
    IsList m' head l := by
  obtain ⟨last, hseg⟩ := h.seg
  exact ⟨⟨last, hseg.congr hm⟩, h.apart, h.lt⟩

lemma isList_nil (m : Mem) : IsList m 0 [] := ⟨⟨0, rfl, rfl⟩, .nil, by simp⟩

lemma IsList.eq_zero_iff (h : IsList m head l) : head = 0 ↔ l = [] := by
  obtain ⟨last, hseg⟩ := h.seg
  exact hseg.eq_zero_iff

lemma IsList.head_eq (h : IsList m head (x :: l)) : head = x := by
  obtain ⟨last, hseg⟩ := h.seg
  exact hseg.1

lemma Seg.unique {c c' : Nat} (h : Seg m b p l₁ c 0) (h' : Seg m b p l₂ c' 0) : l₁ = l₂ := by
  induction l₁ generalizing b p l₂ with
  | nil =>
    obtain ⟨-, rfl⟩ := h
    exact (h'.eq_zero_iff.1 rfl).symm
  | cons x l₁ ih =>
    obtain ⟨rfl, hx, -, hrest⟩ := h
    cases l₂ with
    | nil => exact absurd h'.2 hx
    | cons y l₂ =>
      obtain ⟨rfl, -, -, hrest'⟩ := h'
      rw [ih hrest hrest']

lemma IsList.unique (h : IsList m head l₁) (h' : IsList m head l₂) : l₁ = l₂ := by
  obtain ⟨last, hseg⟩ := h.seg
  obtain ⟨last', hseg'⟩ := h'.seg
  exact hseg.unique hseg'

lemma IsList.nodup (h : IsList m head l) : l.Nodup := by
  refine h.apart.imp ?_
  rintro x y (hxy | hxy) rfl <;> omega

lemma IsList.head_lt (h : IsList m head l) : head < 2 ^ 64 := by
  cases l with
  | nil =>
    rw [h.eq_zero_iff.2 rfl]
    decide
  | cons x l =>
    rw [h.head_eq]
    exact h.lt x (.head _)

/-- Only the links of `x` and of the first node change. -/
lemma push_apply (hx : a ∉ links x) (hhead : head ≠ 0 → a ∉ links head) :
    push m head x a = m a := by
  rw [push, linkBack_apply hhead, setPrev_apply hx, setNext_apply hx]

lemma IsList.push (h : IsList m head l) (hx : x ≠ 0) (hlt : x < 2 ^ 64)
    (hl : ∀ y ∈ l, Apart x y) : IsList (push m head x) x (x :: l) := by
  obtain ⟨last, hseg⟩ := h.seg
  have hframe : ∀ y ∈ l, Set.EqOn m (setPrev (setNext m x head) x 0) (links y) := by
    intro y hy a ha
    have hax := (hl y hy).symm.notMem ha
    rw [setPrev_apply hax, setNext_apply hax]
  obtain ⟨last', hlink⟩ := (hseg.congr hframe).linkBack_first h.apart hlt
  have hsame : ∀ c, c ∈ links x → linkBack (setPrev (setNext m x head) x 0) head x c =
      setPrev (setNext m x head) x 0 c := by
    intro c hc
    refine linkBack_apply fun hne => ?_
    cases l with
    | nil => exact absurd (h.eq_zero_iff.2 rfl) hne
    | cons z l =>
      rw [h.head_eq]
      exact (hl z (.head _)).notMem hc
  have hzero : (0 : Nat) < 2 ^ 64 := by decide
  refine ⟨⟨last', rfl, hx, ?_, ?_⟩, List.pairwise_cons.2 ⟨hl, h.apart⟩, ?_⟩
  · rw [DList.push, prev_congr hsame, prev_setPrev hzero]
  · rw [DList.push, next_congr hsame, next_setPrev, next_setNext h.head_lt]
    exact hlink
  · intro y hy
    rcases List.mem_cons.1 hy with rfl | hy
    · exact hlt
    · exact h.lt y hy

lemma IsList.next_mem (h : IsList m head (l₁ ++ x :: l₂)) :
    next m x = 0 ∧ l₂ = [] ∨ ∃ l, l₂ = next m x :: l := by
  obtain ⟨last, hseg⟩ := h.seg
  obtain ⟨c, q, -, -, -, -, hrest⟩ := seg_append.1 hseg
  cases l₂ with
  | nil => exact .inl ⟨hrest.2, rfl⟩
  | cons y l =>
    right
    rw [hrest.1]
    exact ⟨l, rfl⟩

lemma IsList.prev_mem (h : IsList m head (l₁ ++ x :: l₂)) :
    prev m x = 0 ∧ l₁ = [] ∨ ∃ l, l₁ = l ++ [prev m x] := by
  obtain ⟨last, hseg⟩ := h.seg
  obtain ⟨c, q, hfirst, -, -, hprev, -⟩ := seg_append.1 hseg
  rw [hprev]
  rcases List.eq_nil_or_concat l₁ with rfl | ⟨l, y, rfl⟩
  · exact .inl ⟨hfirst.1.symm, rfl⟩
  · right
    rw [List.concat_eq_append] at hfirst ⊢
    obtain ⟨-, -, -, -, -, -, hy, -⟩ := seg_append.1 hfirst
    exact ⟨l, by rw [hy]⟩

/-- Only the links of other nodes of the list change. -/
lemma IsList.unlink_apply (h : IsList m head (l₁ ++ x :: l₂)) (ha : ∀ y ∈ l₁ ++ l₂, a ∉ links y) :
    (unlink m head x).1 a = m a := by
  have hnext : next m x ≠ 0 → a ∉ links (next m x) := by
    intro hne
    rcases h.next_mem with ⟨hzero, -⟩ | ⟨l, hl⟩
    · exact absurd hzero hne
    · exact ha _ (List.mem_append_right _ (by rw [hl]; exact List.mem_cons_self))
  unfold unlink
  split_ifs with hprev
  · have hap : a ∉ links (prev m x) := by
      rcases h.prev_mem with ⟨hzero, -⟩ | ⟨l, hl⟩
      · exact absurd hzero hprev
      · refine ha _ (List.mem_append_left _ ?_)
        rw [hl]
        exact List.mem_append_right _ (.head _)
    dsimp only
    rw [linkBack_apply hnext, setNext_apply hap]
  · dsimp only
    rw [linkBack_apply hnext]

lemma IsList.unlink (h : IsList m head (l₁ ++ x :: l₂)) :
    IsList (unlink m head x).1 (unlink m head x).2 (l₁ ++ l₂) := by
  obtain ⟨last, hseg⟩ := h.seg
  obtain ⟨c, q, hfirst, hq, hx, hprev, hrest⟩ := seg_append.1 hseg
  have hsub := List.Sublist.append_left (List.sublist_cons_self x l₂) l₁
  have hlt : ∀ y ∈ l₁ ++ l₂, y < 2 ^ 64 := fun y hy => h.lt y (hsub.subset hy)
  have hapart := h.apart.sublist hsub
  obtain ⟨hapart₁, hapart₂, hcross⟩ := List.pairwise_append.1 hapart
  have hnext := word_lt m x
  refine ⟨?_, hapart, hlt⟩
  rw [DList.unlink, hprev]
  rcases List.eq_nil_or_concat l₁ with rfl | ⟨l, y, rfl⟩
  · -- the first node
    obtain ⟨rfl, -⟩ := hfirst
    rw [if_neg (not_not.2 rfl)]
    dsimp only [List.nil_append]
    exact hrest.linkBack_first hapart₂ (by decide)
  · rw [List.concat_eq_append] at *
    obtain ⟨-, -, -, -, hy, -, hyc, -⟩ := seg_append.1 hfirst
    subst hyc
    rw [if_pos hy]
    dsimp only
    have hy₁ : ∀ z ∈ l, Apart y z := fun z hz =>
      ((List.pairwise_append.1 hapart₁).2.2 z hz y (.head _)).symm
    have hy₂ := hcross y (List.mem_append_right _ (.head _))
    have hleft := hfirst.setNext_last hy₁ hnext
    have hright := hrest.congr fun z hz a ha =>
      (setNext_apply (m := m) (v := next m x) ((hy₂ z hz).symm.notMem ha)).symm
    obtain ⟨last', hlink⟩ := hright.linkBack_first hapart₂ (hlt y (by simp))
    refine ⟨last', seg_append.2 ⟨y, next m x, ?_, hlink⟩⟩
    -- the nodes before `x` keep their links when the one after `x` is changed
    refine hleft.congr fun z hz a ha => (linkBack_apply fun hne => ?_).symm
    rcases h.next_mem with ⟨hzero, -⟩ | ⟨l', hl'⟩
    · exact absurd hzero hne
    · exact (hcross z hz (next m x) (by rw [hl']; exact List.mem_cons_self)).notMem ha

end Mars.Lib.DList
