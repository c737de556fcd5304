import Mathlib.Algebra.Group.Nat.Defs
import Mathlib.Tactic.Common

/-!
# The LPI allocator

Embedding of `LpiAllocator` of `klib/src/interrupt/gicv3/lpi_alloc.rs`. One bit stands for one
interrupt id; the search for a free one starts at the word where the last id was found.
-/

namespace Mars.Gic

structure LpiAllocator where
  bitmap : List (BitVec 64)
  baseId : Nat
  maxId : Nat
  hint : Nat

namespace LpiAllocator

def new (baseId maxId : Nat) : LpiAllocator :=
  { bitmap := List.replicate ((maxId - baseId + 1 + 63) / 64) 0
    baseId := baseId
    maxId := maxId
    hint := 0 }

def word (a : LpiAllocator) (i : Nat) : BitVec 64 := a.bitmap.getD i 0

def setWord (a : LpiAllocator) (i : Nat) (w : BitVec 64) : LpiAllocator :=
  { a with bitmap := a.bitmap.set i w }

/-- The loop of `alloc`, with `n` rounds left and the counter at `i`. The loop reads `hint` anew
in every round. -/
def allocLoop (words : Nat) : (n i : Nat) → LpiAllocator → Option Nat × LpiAllocator
  | 0,     _, a => (none, a)
  | n + 1, i, a =>
    let j := (a.hint + i) % words
    let word := a.word j
    if word = BitVec.allOnes 64 then allocLoop words n (i + 1) a
    else
      let bit := (~~~word).ctz.toNat
      let taken := { a.setWord j (word ||| BitVec.twoPow 64 bit) with hint := j }
      let id := a.baseId + j * 64 + bit
      if a.maxId < id then
        allocLoop words n (i + 1)
          (taken.setWord j (taken.word j &&& ~~~(BitVec.twoPow 64 bit)))
      else (some id, taken)

def alloc (a : LpiAllocator) : Option Nat × LpiAllocator :=
  allocLoop a.bitmap.length a.bitmap.length 0 a

def contains (a : LpiAllocator) (id : Nat) : Prop := a.baseId ≤ id ∧ id ≤ a.maxId

instance (a : LpiAllocator) (id : Nat) : Decidable (a.contains id) :=
  inferInstanceAs (Decidable (_ ∧ _))

/-- `none` is the error of `reserve`. -/
def reserve (a : LpiAllocator) (id : Nat) : Option LpiAllocator :=
  if ¬ a.contains id then none
  else
    let offset := id - a.baseId
    let i := offset / 64
    let bit := offset % 64
    if a.word i &&& BitVec.twoPow 64 bit ≠ 0 then none
    else some (a.setWord i (a.word i ||| BitVec.twoPow 64 bit))

def free (a : LpiAllocator) (id : Nat) : LpiAllocator :=
  if ¬ a.contains id then a
  else
    let offset := id - a.baseId
    let i := offset / 64
    let bit := offset % 64
    let cleared := a.setWord i (a.word i &&& ~~~(BitVec.twoPow 64 bit))
    -- move hint backwards for denser packing of smaller LPIs
    if i < a.hint then { cleared with hint := i } else cleared

/-! ### The ids in use -/

def Used (a : LpiAllocator) (id : Nat) : Prop :=
  a.contains id ∧ (a.word ((id - a.baseId) / 64)).getLsbD ((id - a.baseId) % 64) = true

structure Wf (a : LpiAllocator) : Prop where
  base_le : a.baseId ≤ a.maxId
  length_eq : a.bitmap.length = (a.maxId - a.baseId + 1 + 63) / 64

variable {a a' : LpiAllocator} {id : Nat}
variable {i : Nat} {w : BitVec 64}

lemma wf_new {baseId maxId : Nat} (h : baseId ≤ maxId) : (new baseId maxId).Wf :=
  ⟨h, List.length_replicate⟩

lemma not_used_new (baseId maxId : Nat) : ¬ (new baseId maxId).Used id := by
  rintro ⟨-, hbit⟩
  simp only [word, new, List.getD_eq_getElem?_getD, List.getElem?_replicate] at hbit
  split_ifs at hbit
  all_goals simp at hbit

lemma word_setWord (a : LpiAllocator) (hi : i < a.bitmap.length) (w : BitVec 64) (j : Nat) :
    (a.setWord i w).word j = if j = i then w else a.word j := by
  simp only [word, setWord, List.getD_eq_getElem?_getD, List.getElem?_set]
  by_cases hij : i = j
  · rw [if_pos hij, if_pos hi, if_pos hij.symm]
    rfl
  · rw [if_neg hij, if_neg (Ne.symm hij)]

/-- Only the mark of one id changes: it becomes `b`. -/
structure Marks (a : LpiAllocator) (id : Nat) (b : Bool) (a' : LpiAllocator) : Prop where
  baseId : a'.baseId = a.baseId
  maxId : a'.maxId = a.maxId
  length : a'.bitmap.length = a.bitmap.length
  used : ∀ l, a'.Used l ↔ if l = id then b = true else a.Used l

lemma Marks.wf {b : Bool} (h : a.Marks id b a') (ha : a.Wf) : a'.Wf := by
  refine ⟨?_, ?_⟩
  · rw [h.baseId, h.maxId]
    exact ha.base_le
  · rw [h.length, h.baseId, h.maxId]
    exact ha.length_eq

lemma Wf.index_lt (ha : a.Wf) (hid : a.contains id) : (id - a.baseId) / 64 < a.bitmap.length := by
  obtain ⟨hlow, hhigh⟩ := hid
  rw [ha.length_eq]
  omega

/-- Storing a word that differs in the bit of `id` only changes the mark of `id` only. -/
lemma marks_setWord (ha : a.Wf) (hid : a.contains id) {b : Bool} (hw : ∀ k, k < 64 → w.getLsbD k =
      if k = (id - a.baseId) % 64 then b else (a.word ((id - a.baseId) / 64)).getLsbD k) :
    a.Marks id b (a.setWord ((id - a.baseId) / 64) w) := by
  refine ⟨rfl, rfl, List.length_set, ?_⟩
  intro l
  have hbit := Nat.mod_lt (l - a.baseId) (show 64 > 0 by decide)
  show a.contains l ∧ ((a.setWord _ w).word ((l - a.baseId) / 64)).getLsbD
    ((l - a.baseId) % 64) = true ↔ _
  rw [word_setWord a (ha.index_lt hid)]
  by_cases hl : l = id
  · subst hl
    rw [if_pos rfl, if_pos rfl, hw _ hbit, if_pos rfl]
    exact and_iff_right hid
  · rw [if_neg hl, Used]
    refine and_congr_right fun hcl => ?_
    split_ifs with hword
    · have hne : (l - a.baseId) % 64 ≠ (id - a.baseId) % 64 := by
        obtain ⟨h₁, -⟩ := hcl
        obtain ⟨h₂, -⟩ := hid
        omega
      rw [hw _ hbit, if_neg hne, hword]
    · rfl

/-! ### The operations -/

variable {bit j : Nat}

lemma getLsbD_or_twoPow (w : BitVec 64) (bit k : Nat) (hk : k < 64) :
    (w ||| BitVec.twoPow 64 bit).getLsbD k = if k = bit then true else w.getLsbD k := by
  rw [BitVec.getLsbD_or, BitVec.getLsbD_twoPow]
  by_cases hkb : k = bit
  · simp [hkb ▸ hk, hkb]
  · simp [hkb, Ne.symm hkb]

lemma getLsbD_and_not_twoPow (w : BitVec 64) (bit k : Nat) (hk : k < 64) :
    (w &&& ~~~(BitVec.twoPow 64 bit)).getLsbD k = if k = bit then false else w.getLsbD k := by
  rw [BitVec.getLsbD_and, BitVec.getLsbD_not, BitVec.getLsbD_twoPow]
  by_cases hkb : k = bit
  · simp [hkb ▸ hk, hkb]
  · simp [hk, hkb, Ne.symm hkb]

lemma reserve_spec (ha : a.Wf) (h : a.reserve id = some a') : ¬ a.Used id ∧ a.Marks id true a' := by
  by_cases hid : a.contains id
  · rw [reserve, if_neg (not_not.mpr hid)] at h
    dsimp only at h
    split_ifs at h with hbit
    cases h
    refine ⟨?_, marks_setWord ha hid fun k hk => getLsbD_or_twoPow _ _ k hk⟩
    rintro ⟨-, hused⟩
    have hlt := Nat.mod_lt (id - a.baseId) (show 64 > 0 by decide)
    have hzero := congrArg (fun w => BitVec.getLsbD w ((id - a.baseId) % 64)) (not_not.mp hbit)
    rw [BitVec.getLsbD_and, hused, BitVec.getLsbD_twoPow] at hzero
    simp [hlt] at hzero
  · rw [reserve, if_pos hid] at h
    cases h

lemma free_spec (ha : a.Wf) (id : Nat) : a.Marks id false (a.free id) := by
  by_cases hid : a.contains id
  · obtain ⟨h₁, h₂, h₃, h₄⟩ :=
      marks_setWord ha hid fun k hk => getLsbD_and_not_twoPow (a.word _) _ k hk
    rw [free, if_neg (not_not.mpr hid)]
    dsimp only
    split_ifs
    · exact ⟨h₁, h₂, h₃, h₄⟩
    · exact ⟨h₁, h₂, h₃, h₄⟩
  · rw [free, if_pos hid]
    refine ⟨rfl, rfl, rfl, fun l => ?_⟩
    split_ifs with hl
    · rw [hl]
      simpa using fun hused : a.Used id => hid hused.1
    · exact Iff.rfl

/-- The bit found in a word that is not full: it exists and is clear. -/
lemma ctz_not_spec (hw : w ≠ BitVec.allOnes 64) :
    (~~~w).ctz.toNat < 64 ∧ w.getLsbD (~~~w).ctz.toNat = false := by
  have hne : ~~~w ≠ 0#64 := by
    intro h
    refine hw ?_
    rw [← BitVec.not_not (b := w), h, BitVec.not_zero]
  have hbit := BitVec.getLsbD_true_ctz_of_ne_zero hne
  refine ⟨BitVec.lt_of_getLsbD hbit, ?_⟩
  rw [BitVec.getLsbD_not] at hbit
  simpa using (Bool.and_eq_true_iff.mp hbit).2

lemma or_and_not_twoPow (h : w.getLsbD bit = false) :
    (w ||| BitVec.twoPow 64 bit) &&& ~~~(BitVec.twoPow 64 bit) = w := by
  refine BitVec.eq_of_getLsbD_eq fun k hk => ?_
  rw [getLsbD_and_not_twoPow _ _ _ hk, getLsbD_or_twoPow _ _ _ hk]
  split_ifs with hkb
  · rw [hkb, h]
  · rfl

lemma setWord_self (hi : i < a.bitmap.length) : a.setWord i (a.word i) = a := by
  have hset : a.bitmap.set i (a.bitmap.getD i 0) = a.bitmap := by
    rw [List.getD_eq_getElem?_getD, List.getElem?_eq_getElem hi, Option.getD_some,
      List.set_getElem_self]
  rw [setWord, word, hset]

/-- Taking a bit and giving it back leaves the bitmap as it was. -/
lemma setWord_restore {h : Nat} (hj : j < a.bitmap.length)
    (hclear : (a.word j).getLsbD bit = false) :
    ({ a.setWord j (a.word j ||| BitVec.twoPow 64 bit) with hint := h } : LpiAllocator).setWord j
        (({ a.setWord j (a.word j ||| BitVec.twoPow 64 bit) with hint := h } :
          LpiAllocator).word j &&& ~~~(BitVec.twoPow 64 bit)) = { a with hint := h } := by
  have hword : ({ a.setWord j (a.word j ||| BitVec.twoPow 64 bit) with hint := h } :
      LpiAllocator).word j = a.word j ||| BitVec.twoPow 64 bit := by
    show (a.setWord j _).word j = _
    rw [word_setWord a hj, if_pos rfl]
  have hself : a.bitmap.set j (a.word j) = a.bitmap :=
    congrArg LpiAllocator.bitmap (setWord_self hj)
  rw [hword, or_and_not_twoPow hclear]
  simp only [setWord, List.set_set, hself]

lemma offset_div {base : Nat} (hbit : bit < 64) : (base + j * 64 + bit - base) / 64 = j := by
  omega

lemma offset_mod {base : Nat} (hbit : bit < 64) : (base + j * 64 + bit - base) % 64 = bit := by
  omega

/-- The loop of `alloc` sets the bit of an id and moves the hint there. -/
lemma marks_take (ha : a.Wf) (hbit : bit < 64) (hid : a.contains (a.baseId + j * 64 + bit)) :
    a.Marks (a.baseId + j * 64 + bit) true
      { a.setWord j (a.word j ||| BitVec.twoPow 64 bit) with hint := j } := by
  have hmarks := marks_setWord (b := true) (w := a.word j ||| BitVec.twoPow 64 bit) ha hid
  rw [offset_div hbit, offset_mod hbit] at hmarks
  obtain ⟨hbase, hmax, hlength, hused⟩ := hmarks fun k hk => getLsbD_or_twoPow _ _ k hk
  exact ⟨hbase, hmax, hlength, hused⟩

end LpiAllocator

end Mars.Gic
