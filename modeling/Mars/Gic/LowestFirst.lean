import Mars.Gic.LpiAllocator

/-!
# The lowest free LPI

`alloc` starts its search at the hint. All words below the hint are full in every state, so the
first free id that is found is the smallest one, and none is missed. In the last word, of which
only some bits stand for an id, the search may set a bit that it clears again; then every id is in
use.
-/

namespace Mars.Gic.LpiAllocator

inductive Reach (baseId maxId : Nat) : LpiAllocator → Prop
  | new : Reach baseId maxId (new baseId maxId)
  | alloc {a : LpiAllocator} (h : Reach baseId maxId a) : Reach baseId maxId a.alloc.2
  | reserve {a a' : LpiAllocator} {id : Nat} (h : Reach baseId maxId a)
      (hid : a.reserve id = some a') : Reach baseId maxId a'
  | free {a : LpiAllocator} (id : Nat) (h : Reach baseId maxId a) : Reach baseId maxId (a.free id)

structure LowestFirst (a : LpiAllocator) : Prop where
  alloc_some : ∀ id, a.alloc.1 = some id → (a.contains id ∧ ¬a.Used id ∧
    ∀ l < id, a.contains l → a.Used l) ∧ a.Marks id true a.alloc.2
  alloc_none_iff : a.alloc.1 = none ↔ ∀ id, a.contains id → a.Used id
  alloc_none : a.alloc.1 = none → ∀ l, a.alloc.2.Used l ↔ a.Used l
  reserve_iff : ∀ id, (a.reserve id).isSome ↔ a.contains id ∧ ¬a.Used id
  reserve_some : ∀ id a', a.reserve id = some a' → a.Marks id true a'
  free_inside : ∀ id, a.contains id → a.Marks id false (a.free id)
  free_outside : ∀ id, ¬a.contains id → a.free id = a
  /-- Only ids of the range have a bit that is set. -/
  inside : ∀ j bit, (a.word j).getLsbD bit = true → a.contains (a.baseId + j * 64 + bit)
  /-- The sums that `alloc` computes are `u32`. -/
  id_lt : ∀ j < a.bitmap.length, ∀ bit < 64, a.baseId + j * 64 + bit < 2 ^ 32

structure HintInv (a : LpiAllocator) : Prop extends a.Wf where
  inside : ∀ j bit, (a.word j).getLsbD bit = true → a.contains (a.baseId + j * 64 + bit)
  full : ∀ j < a.hint, a.word j = BitVec.allOnes 64
  hint_lt : a.hint < a.bitmap.length

variable {a a' : LpiAllocator} {id j bit : Nat}

/-! ### Words and ids -/

lemma used_iff (hbit : bit < 64) : a.Used (a.baseId + j * 64 + bit) ↔
    a.contains (a.baseId + j * 64 + bit) ∧ (a.word j).getLsbD bit = true := by
  rw [Used, offset_div hbit, offset_mod hbit]

/-- Every id of the range is at a bit of a word. -/
lemma Wf.exists_bit (ha : a.Wf) (hid : a.contains id) :
    ∃ j bit, j < a.bitmap.length ∧ bit < 64 ∧ id = a.baseId + j * 64 + bit := by
  refine ⟨_, (id - a.baseId) % 64, ha.index_lt hid, Nat.mod_lt _ (by simp), ?_⟩
  have hlow := hid.1
  omega

lemma used_of_full (hbit : bit < 64) (hfull : a.word j = BitVec.allOnes 64)
    (hid : a.contains (a.baseId + j * 64 + bit)) : a.Used (a.baseId + j * 64 + bit) := by
  rw [used_iff hbit, hfull, BitVec.getLsbD_allOnes]
  exact ⟨hid, by simpa using hbit⟩

/-- All bits of a word that is not the last one stand for ids. -/
lemma Wf.full_of_used (ha : a.Wf) (hall : ∀ id, a.contains id → a.Used id)
    (hj : j + 1 < a.bitmap.length) : a.word j = BitVec.allOnes 64 := by
  refine BitVec.eq_of_getLsbD_eq fun bit hbit => ?_
  have hid : a.contains (a.baseId + j * 64 + bit) := by
    rw [ha.length_eq] at hj
    constructor <;> omega
  rw [BitVec.getLsbD_allOnes, ((used_iff hbit).1 (hall _ hid)).2]
  simpa using hbit

lemma Wf.used_of_words (ha : a.Wf) (hall : ∀ j < a.bitmap.length, a.word j = BitVec.allOnes 64)
    (hid : a.contains id) : a.Used id := by
  obtain ⟨j, bit, hj, hbit, rfl⟩ := ha.exists_bit hid
  exact used_of_full hbit (hall j hj) hid

lemma getLsbD_of_lt_ctz {w : BitVec 64} (h : bit < (~~~w).ctz.toNat) (hbit : bit < 64) :
    w.getLsbD bit = true := by
  have hclear := BitVec.getLsbD_false_of_lt_ctz h
  simpa [hbit] using hclear

/-! ### The invariant -/

lemma hintInv_new {baseId maxId : Nat} (h : baseId ≤ maxId) : (new baseId maxId).HintInv := by
  refine ⟨wf_new h, ?_, ?_, ?_⟩
  · intro j bit hset
    simp only [word, new, List.getD_eq_getElem?_getD, List.getElem?_replicate] at hset
    split_ifs at hset
    all_goals simp at hset
  · intro j hj
    cases hj
  · rw [(wf_new h).length_eq]
    simp only [new]
    omega

/-- A word at or above the hint is written, and the hint moves. -/
lemma HintInv.write (h : a.HintInv) {hint : Nat} {w : BitVec 64} (hj : j < a.bitmap.length)
    (hle : hint ≤ j) (hfull : ∀ k < hint, a.word k = BitVec.allOnes 64)
    (hw : ∀ bit, w.getLsbD bit = true → a.contains (a.baseId + j * 64 + bit)) :
    ({ a.setWord j w with hint := hint } : LpiAllocator).HintInv := by
  have hword : ∀ k, ({ a.setWord j w with hint := hint } : LpiAllocator).word k =
      if k = j then w else a.word k := fun k => word_setWord a hj w k
  refine ⟨⟨h.base_le, List.length_set.trans h.length_eq⟩, ?_, ?_, ?_⟩
  · intro k bit hset
    rw [hword] at hset
    split_ifs at hset with hk
    · rw [hk]
      exact hw bit hset
    · exact h.inside k bit hset
  · intro k hk
    rw [hword, if_neg (Nat.ne_of_lt (Nat.lt_of_lt_of_le hk hle))]
    exact hfull k hk
  · exact Nat.lt_of_le_of_lt hle (Nat.lt_of_lt_of_eq hj List.length_set.symm)

lemma HintInv.inside_or (h : a.HintInv) (hid : a.contains (a.baseId + j * 64 + bit)) :
    ∀ k, (a.word j ||| BitVec.twoPow 64 bit).getLsbD k = true →
      a.contains (a.baseId + j * 64 + k) := by
  intro k hset
  have hk := BitVec.lt_of_getLsbD hset
  rw [getLsbD_or_twoPow _ _ _ hk] at hset
  split_ifs at hset with heq
  · rw [heq]
    exact hid
  · exact h.inside j k hset

lemma HintInv.reserve (h : a.HintInv) (hr : a.reserve id = some a') : a'.HintInv := by
  have hfree := (reserve_spec h.toWf hr).1
  by_cases hid : a.contains id
  · obtain ⟨j, bit, hj, hbit, rfl⟩ := h.exists_bit hid
    rw [reserve, if_neg (not_not.2 hid)] at hr
    dsimp only at hr
    rw [offset_div hbit, offset_mod hbit] at hr
    split_ifs at hr
    cases hr
    -- the words below the hint have no free id
    have hle : a.hint ≤ j := by
      refine Nat.le_of_not_lt fun hlt => hfree ?_
      exact used_of_full hbit (h.full j hlt) hid
    exact h.write hj hle h.full (h.inside_or hid)
  · rw [LpiAllocator.reserve, if_pos hid] at hr
    cases hr

lemma HintInv.free (h : a.HintInv) (id : Nat) : (a.free id).HintInv := by
  by_cases hid : a.contains id
  · obtain ⟨j, bit, hj, hbit, rfl⟩ := h.exists_bit hid
    have hin : ∀ k, (a.word j &&& ~~~(BitVec.twoPow 64 bit)).getLsbD k = true →
        a.contains (a.baseId + j * 64 + k) := by
      intro k hset
      rw [BitVec.getLsbD_and, Bool.and_eq_true] at hset
      exact h.inside j k hset.1
    rw [LpiAllocator.free, if_neg (not_not.2 hid)]
    dsimp only
    rw [offset_div hbit, offset_mod hbit]
    split_ifs with hlt
    · exact h.write hj (Nat.le_refl j) (fun k hk => h.full k (Nat.lt_trans hk hlt)) hin
    · exact h.write hj (Nat.le_of_not_lt hlt) h.full hin
  · rw [LpiAllocator.free, if_pos hid]
    exact h

/-! ### The search -/

/-- How the loop of `alloc` ends. -/
inductive Outcome (a : LpiAllocator) : Option Nat × LpiAllocator → Prop
  | found {id : Nat} {a' : LpiAllocator} (hid : a.contains id) (hfree : ¬a.Used id)
      (hleast : ∀ l < id, a.contains l → a.Used l) (hmarks : a.Marks id true a')
      (hinv : a'.HintInv) : Outcome a (some id, a')
  | exhausted {hint : Nat} (hall : ∀ id, a.contains id → a.Used id)
      (hinv : ({ a with hint := hint } : LpiAllocator).HintInv) :
      Outcome a (none, { a with hint := hint })

/-- When all ids are in use, the rest of the loop moves the hint at most. -/
lemma HintInv.allocLoop_exhausted (h : a.HintInv) (hall : ∀ id, a.contains id → a.Used id)
    (n i : Nat) : a.Outcome (allocLoop a.bitmap.length n i a) := by
  induction n generalizing i a with
  | zero => exact @Outcome.exhausted a a.hint hall h
  | succ n ih =>
    have hj : (a.hint + i) % a.bitmap.length < a.bitmap.length :=
      Nat.mod_lt _ (Nat.zero_lt_of_lt h.hint_lt)
    rw [allocLoop]
    generalize (a.hint + i) % a.bitmap.length = j at hj
    by_cases hfull : a.word j = BitVec.allOnes 64
    · rw [if_pos hfull]
      exact ih h hall (i + 1)
    obtain ⟨hbit, hclear⟩ := ctz_not_spec hfull
    generalize (~~~(a.word j)).ctz.toNat = bit at hbit hclear
    have hmax : a.maxId < a.baseId + j * 64 + bit := by
      refine Nat.lt_of_not_le fun hle => ?_
      have hid : a.contains (a.baseId + j * 64 + bit) :=
        ⟨by rw [Nat.add_assoc]; exact Nat.le_add_right _ _, hle⟩
      have hused := ((used_iff hbit).1 (hall _ hid)).2
      rw [hclear] at hused
      cases hused
    rw [if_neg hfull, if_pos hmax, setWord_restore hj hclear]
    have hmoved : ({ a with hint := j } : LpiAllocator).HintInv := by
      refine ⟨⟨h.base_le, h.length_eq⟩, h.inside, ?_, hj⟩
      intro k hk
      exact h.full_of_used hall (Nat.lt_of_le_of_lt hk hj)
    have hrest := ih hmoved hall (i + 1)
    generalize allocLoop _ n (i + 1) _ = res at hrest
    cases hrest with
    | found hid hfree => exact absurd (hall _ hid) hfree
    | exhausted _ hinv => exact .exhausted hall hinv

/-- The rounds that are left, once the words from the hint on that were looked at are full. -/
lemma HintInv.allocLoop_lowest (h : a.HintInv) {n i : Nat} (hn : n + i = a.bitmap.length)
    (hfull : ∀ j < a.hint + i, j < a.bitmap.length → a.word j = BitVec.allOnes 64) :
    a.Outcome (allocLoop a.bitmap.length n i a) := by
  by_cases hall : ∀ id, a.contains id → a.Used id
  · exact h.allocLoop_exhausted hall n i
  -- there is a free id, so the search has not come to the end of the words
  have hj : a.hint + i < a.bitmap.length := by
    refine Nat.lt_of_not_le fun hle => hall fun id hid => ?_
    exact h.used_of_words (fun j hj => hfull j (Nat.lt_of_lt_of_le hj hle) hj) hid
  induction n generalizing i with
  | zero => omega
  | succ n ih =>
    rw [allocLoop]
    rw [Nat.mod_eq_of_lt hj]
    by_cases hword : a.word (a.hint + i) = BitVec.allOnes 64
    · rw [if_pos hword]
      have hfull' : ∀ k < a.hint + (i + 1), k < a.bitmap.length →
          a.word k = BitVec.allOnes 64 := by
        intro k hk hlen
        rcases Nat.lt_succ_iff_lt_or_eq.1 hk with hlt | rfl
        · exact hfull k hlt hlen
        · exact hword
      refine ih (by omega) hfull' ?_
      refine Nat.lt_of_not_le fun hle => hall fun id hid => ?_
      exact h.used_of_words (fun j hj => hfull' j (Nat.lt_of_lt_of_le hj hle) hj) hid
    obtain ⟨hbit, hclear⟩ := ctz_not_spec hword
    have hbelow : ∀ k, k < (~~~(a.word (a.hint + i))).ctz.toNat → k < 64 →
        (a.word (a.hint + i)).getLsbD k = true := fun k hk hk' => getLsbD_of_lt_ctz hk hk'
    generalize (~~~(a.word (a.hint + i))).ctz.toNat = bit at hbit hclear hbelow
    -- everything below the bit that was found is in use
    have hleast : ∀ l < a.baseId + (a.hint + i) * 64 + bit, a.contains l → a.Used l := by
      intro l hl hid
      obtain ⟨k, b, hk, hb, rfl⟩ := h.exists_bit hid
      rcases Nat.lt_trichotomy k (a.hint + i) with hlt | rfl | hgt
      · exact used_of_full hb (hfull k hlt hk) hid
      · exact (used_iff hb).2 ⟨hid, hbelow b (Nat.lt_of_add_lt_add_left hl) hb⟩
      · omega
    have hmax : ¬a.maxId < a.baseId + (a.hint + i) * 64 + bit := fun hlt =>
      hall fun id hid => hleast id (Nat.lt_of_le_of_lt hid.2 hlt) hid
    have hid : a.contains (a.baseId + (a.hint + i) * 64 + bit) :=
      ⟨by rw [Nat.add_assoc]; exact Nat.le_add_right _ _, Nat.le_of_not_lt hmax⟩
    rw [if_neg hword, if_neg hmax]
    refine .found hid ?_ hleast (marks_take h.toWf hbit hid) ?_
    · rw [used_iff hbit, hclear]
      simp
    · refine h.write hj (Nat.le_refl _) (fun k hk => ?_) (h.inside_or hid)
      exact hfull k hk (Nat.lt_trans hk hj)

lemma HintInv.alloc_outcome (h : a.HintInv) : a.Outcome a.alloc :=
  h.allocLoop_lowest (Nat.add_zero _) fun j hj _ => h.full j hj

/-- What `alloc` ends with: no id and the same marks, or an id that was free. -/
lemma HintInv.alloc_spec (h : a.HintInv) {r : Option Nat} (hr : a.alloc = (r, a')) :
    a'.HintInv ∧ (r = none ∧ (∀ id, a.contains id → a.Used id) ∧ (∀ l, a'.Used l ↔ a.Used l) ∨
      ∃ id, r = some id ∧ a.contains id ∧ ¬ a.Used id ∧ a.Marks id true a') := by
  have hout := h.alloc_outcome
  rw [hr] at hout
  cases hout with
  | found hid hfree _ hmarks hinv => exact ⟨hinv, .inr ⟨_, rfl, hid, hfree, hmarks⟩⟩
  | exhausted hall hinv => exact ⟨hinv, .inl ⟨rfl, hall, fun _ => Iff.rfl⟩⟩

/-! ### Every call -/

lemma HintInv.reserve_isSome (h : a.HintInv) (id : Nat) :
    (a.reserve id).isSome ↔ a.contains id ∧ ¬a.Used id := by
  constructor
  · intro hsome
    obtain ⟨a', ha'⟩ := Option.isSome_iff_exists.1 hsome
    refine ⟨?_, (reserve_spec h.toWf ha').1⟩
    by_contra hid
    rw [LpiAllocator.reserve, if_pos hid] at ha'
    cases ha'
  · rintro ⟨hid, hfree⟩
    obtain ⟨j, bit, hj, hbit, rfl⟩ := h.exists_bit hid
    have hclear : (a.word j).getLsbD bit = false := by
      rw [used_iff hbit] at hfree
      simpa [hid] using hfree
    have hzero : a.word j &&& BitVec.twoPow 64 bit = 0 := by
      refine BitVec.eq_of_getLsbD_eq fun k hk => ?_
      rw [BitVec.getLsbD_and, BitVec.getLsbD_twoPow]
      by_cases hkb : bit = k
      · simp [← hkb, hclear]
      · simp [hkb]
    rw [LpiAllocator.reserve, if_neg (not_not.2 hid)]
    dsimp only
    rw [offset_div hbit, offset_mod hbit, if_neg (not_not.2 hzero)]
    rfl

lemma HintInv.takes_lowest (h : a.HintInv) (hmax : a.maxId + 64 < 2 ^ 32) : a.LowestFirst := by
  have hout := h.alloc_outcome
  refine ⟨?_, ?_, ?_, h.reserve_isSome, fun id a' ha' => (reserve_spec h.toWf ha').2,
    fun id _ => free_spec h.toWf id, ?_, h.inside, ?_⟩
  · intro id hid
    generalize a.alloc = res at hout hid
    cases hout with
    | found hin hfree hleast hmarks =>
      cases hid
      exact ⟨⟨hin, hfree, hleast⟩, hmarks⟩
    | exhausted => cases hid
  · generalize a.alloc = res at hout
    cases hout with
    | found hin hfree => simpa using ⟨_, hin, hfree⟩
    | exhausted hall => simpa using hall
  · intro hnone
    generalize a.alloc = res at hout hnone
    cases hout with
    | found => cases hnone
    | exhausted => exact fun l => Iff.rfl
  · intro id hid
    rw [LpiAllocator.free, if_pos hid]
  · intro j hj bit hbit
    rw [h.length_eq] at hj
    have hle := h.base_le
    omega

lemma Reach.hintInv {baseId maxId : Nat} (hle : baseId ≤ maxId) (h : Reach baseId maxId a) :
    a.HintInv ∧ a.baseId = baseId ∧ a.maxId = maxId := by
  induction h with
  | new => exact ⟨hintInv_new hle, rfl, rfl⟩
  | alloc _ ih =>
    obtain ⟨hinv, rfl, rfl⟩ := ih
    have hout := hinv.alloc_outcome
    generalize LpiAllocator.alloc _ = res at hout
    cases hout with
    | found _ _ _ hmarks hinv => exact ⟨hinv, hmarks.baseId, hmarks.maxId⟩
    | exhausted _ hinv => exact ⟨hinv, rfl, rfl⟩
  | reserve _ hid ih =>
    obtain ⟨hinv, rfl, rfl⟩ := ih
    have hmarks := (reserve_spec hinv.toWf hid).2
    exact ⟨hinv.reserve hid, hmarks.baseId, hmarks.maxId⟩
  | free id _ ih =>
    obtain ⟨hinv, rfl, rfl⟩ := ih
    have hmarks := free_spec hinv.toWf id
    exact ⟨hinv.free id, hmarks.baseId, hmarks.maxId⟩

/-- After any calls, `alloc` finds the smallest free id of the range, if there is one. -/
theorem Reach.lowestFirst {baseId maxId : Nat} (hle : baseId ≤ maxId) (hmax : maxId + 64 < 2 ^ 32)
    (h : Reach baseId maxId a) : a.LowestFirst ∧ a.baseId = baseId ∧ a.maxId = maxId := by
  obtain ⟨hinv, rfl, rfl⟩ := h.hintInv hle
  exact ⟨hinv.takes_lowest hmax, rfl, rfl⟩

/-- Three ids, of which two are taken and the first one is given back. -/
theorem lowestFirst_three_ids : ∃ a, Reach 8192 8194 a ∧ a.alloc.1 = some 8192 ∧ a.LowestFirst := by
  have hreach : Reach 8192 8194 ((new 8192 8194).alloc.2.alloc.2.free 8192) :=
    .free 8192 (.alloc (.alloc .new))
  refine ⟨_, hreach, by decide +kernel, ?_⟩
  exact (hreach.lowestFirst (by decide) (by decide)).1

end Mars.Gic.LpiAllocator
