import Mars.Pm.AddRange

/-!
# Canonical layouts

A layout is canonical if no two buddies of the same order are both free. The operations keep it so.
In a canonical layout every aligned run of free pages is in one block, so the free blocks are
determined by the free pages.
-/

namespace Mars.Pm

open Lib Lib.Bits Lib.Ownership Vm Layout Mars.Pm.Block

namespace Layout

/-- A free block of the order is at the index of the zone. -/
def FreeAt (L : Layout) (z : Zone) (i o : Nat) : Prop :=
  i < z.totalPages ∧ L.owner (z.first + i) = some ⟨z.first + i, o, true⟩

/-- No two halves of a block are free. -/
def Canonical (L : Layout) : Prop :=
  ∀ z ∈ L.zones, ∀ i o, o + 1 < maxOrder → 2 ^ (o + 1) ∣ i →
    ¬(L.FreeAt z i o ∧ L.FreeAt z (i + 2 ^ o) o)

def Separated (L : Layout) : Prop :=
  ∀ y ∈ L.zones, ∀ z ∈ L.zones, ∀ p, y.HasPage p → z.HasPage p → y = z

variable {L L' : Layout} {y z : Zone} {b : Block} {i j k n o o' p target : Nat}

lemma Canonical.mono (h : L.Canonical) (hzones : L'.zones = L.zones)
    (hfree : ∀ z i o, L'.FreeAt z i o → L.FreeAt z i o) : L'.Canonical := by
  intro z hz i o ho hal hboth
  rw [hzones] at hz
  exact h z hz i o ho hal ⟨hfree _ _ _ hboth.1, hfree _ _ _ hboth.2⟩

/-! ### The edits -/

lemma freeAt_insert (hvacant : ∀ p ∈ (⟨z.first + i, o, true⟩ : Block).span, L.owner p = none) :
    (L.insert ⟨z.first + i, o, true⟩).FreeAt y j o' ↔
      L.FreeAt y j o' ∨ (j < y.totalPages ∧ y.first + j = z.first + i ∧ o' = o) := by
  simp only [FreeAt, insert, assign_eq_some_iff hvacant, Block.mk.injEq, and_true]
  constructor
  · rintro ⟨hj, ⟨-, hpage, ho⟩ | hown⟩
    · exact .inr ⟨hj, hpage, ho⟩
    · exact .inl ⟨hj, hown⟩
  · rintro (⟨hj, hown⟩ | ⟨hj, hpage, ho⟩)
    · exact ⟨hj, .inr hown⟩
    · refine ⟨hj, .inl ⟨?_, hpage, ho⟩⟩
      rw [hpage]
      exact start_mem_span _

lemma freeAt_of_release (h : FreeAt { L with owner := release Block.span L.owner b } z i o) :
    L.FreeAt z i o := by
  obtain ⟨hi, hown⟩ := h
  refine ⟨hi, ?_⟩
  dsimp only at hown
  by_cases hmem : z.first + i ∈ b.span
  · rw [release_of_mem hmem] at hown
    cases hown
  · rwa [release_of_notMem hmem] at hown

lemma freeAt_of_handOut (hb : b.free = false) (h : (L.handOut b).FreeAt z i o) :
    L.FreeAt z i o := by
  obtain ⟨hi, hown⟩ := h
  refine ⟨hi, ?_⟩
  dsimp only [handOut] at hown
  by_cases hmem : z.first + i ∈ b.span
  · rw [assign_of_mem hmem] at hown
    cases Option.some.inj hown
    cases hb
  · rwa [assign_of_notMem hmem] at hown

lemma Canonical.remove (h : L.Canonical) (b : Block) : (L.remove b).Canonical :=
  h.mono rfl fun _ _ _ hfree => freeAt_of_release hfree

lemma Canonical.takeBack (h : L.Canonical) (b : Block) : (L.takeBack b).Canonical :=
  h.mono rfl fun _ _ _ hfree => freeAt_of_release hfree

lemma Canonical.handOut (h : L.Canonical) (hb : b.free = false) : (L.handOut b).Canonical :=
  h.mono rfl fun _ _ _ hfree => freeAt_of_handOut hb hfree

/-- A free block is added whose buddy is not free. -/
lemma Canonical.insert (h : L.Canonical) (hsep : L.Separated) (hz : z ∈ L.zones)
    (hi : i < z.totalPages)
    (hvacant : ∀ p ∈ (⟨z.first + i, o, true⟩ : Block).span, L.owner p = none)
    (hbuddy : o + 1 < maxOrder → ¬L.FreeAt z (i ^^^ (1 <<< o)) o) :
    (L.insert ⟨z.first + i, o, true⟩).Canonical := by
  -- the new block is in no other zone
  have hzone : ∀ {y : Zone} {j : Nat}, y ∈ L.zones → j < y.totalPages →
      y.first + j = z.first + i → y = z ∧ j = i := by
    intro y j hy hj hpage
    have heq := hsep y hy z hz (z.first + i) ⟨by omega, by omega⟩ ⟨by omega, by omega⟩
    subst heq
    exact ⟨rfl, by omega⟩
  intro y hy j o' ho' hal ⟨hlower, hupper⟩
  rcases (freeAt_insert hvacant).1 hlower with hold | ⟨hj, hpage, rfl⟩
  · rcases (freeAt_insert hvacant).1 hupper with hold' | ⟨hj', hpage', rfl⟩
    · exact h y hy j o' ho' hal ⟨hold, hold'⟩
    · obtain ⟨rfl, rfl⟩ := hzone hy hj' hpage'
      rw [add_xor_of_dvd hal] at hbuddy
      exact hbuddy ho' hold
  · obtain ⟨rfl, rfl⟩ := hzone hy hj hpage
    rcases (freeAt_insert hvacant).1 hupper with hold' | ⟨-, hpage', -⟩
    · rw [xor_of_dvd hal] at hbuddy
      exact hbuddy ho' hold'
    · omega

/-! ### Allocation -/

lemma Hole.not_freeAt (h : L.Hole z i n) (hle : i ≤ j) (hlt : j < i + n) : ¬L.FreeAt z j o := by
  rintro ⟨-, hown⟩
  rw [h.owner_eq_none (by omega) (by omega)] at hown
  cases hown

/-- The upper halves are free, their buddies are in the hole. -/
lemma Canonical.split (n : Nat) : ∀ {L : Layout}, L.Canonical → L.Separated → z ∈ L.zones →
    2 ^ (target + n) ∣ i → i + 2 ^ (target + n) ≤ z.totalPages → L.Hole z i (2 ^ (target + n)) →
    (L.split (z.first + i) target n).Canonical := by
  induction n with
  | zero =>
    intro L h _ _ _ _ _
    exact h
  | succ n ih =>
    intro L h hsep hz hal hle hhole
    have hpow : 2 ^ (target + (n + 1)) = 2 ^ (target + n) + 2 ^ (target + n) := by
      rw [← add_assoc, pow_succ]
      omega
    have hvacant := hhole.owner_of_span (q := z.first + (i + 2 ^ (target + n))) (o := target + n)
      (f := true) (by omega) (by omega)
    have hinsert := h.insert hsep hz (by omega) hvacant fun _ => by
      rw [add_xor_of_dvd (o := target + n) hal]
      exact hhole.not_freeAt le_rfl (by omega)
    rw [Layout.split, add_assoc z.first]
    refine ih hinsert hsep hz (Nat.dvd_trans (Nat.pow_dvd_pow 2 (by omega)) hal) (by omega) ?_
    rw [← add_assoc]
    exact hhole.insert_upper

end Layout

namespace State.Inv

variable {s : State} {L L' : Layout} {z : Zone} {i o p k : Nat} (hI : s.Inv L)

include hI

lemma separated : L.Separated := fun _ hy _ hz _ hp hp' => hI.zone_eq hy hz hp hp'

lemma canonical_take (hfull : L.Full) (h : L.Canonical) {x order : Nat} {l : List Nat}
    (hlist : L.lists order = x :: l) {target : Nat} (htarget : target ≤ order) :
    (L.take (x / pageSize) order target).Canonical := by
  have hmem : x ∈ L.lists order := hlist ▸ List.mem_cons_self
  obtain ⟨z, hz, i, -, rfl, -, hfits, -, -⟩ := hI.exists_node hmem
  obtain ⟨n, rfl⟩ : ∃ n, order = target + n := ⟨order - target, by omega⟩
  obtain ⟨-, hle, hal⟩ := fitsIn_iff.1 hfits
  rw [Nat.mul_div_cancel _ (show 0 < pageSize by decide), Layout.take, Nat.add_sub_cancel_left]
  refine Canonical.handOut ?_ rfl
  exact (h.remove _).split n hI.separated hz hal hle (hfull.hole_remove hz hfits)

lemma canonical_alloc (hfull : L.Full) (h : L.Canonical) {target : Nat}
    (hsome : L.alloc target = some (p, L')) : L'.Canonical := by
  have hfrom : ∀ n, n ≤ maxOrder - target → L.allocFrom target n = some (p, L') →
      L'.Canonical := by
    intro n
    induction n with
    | zero =>
      intro _ hnone
      cases hnone
    | succ n ih =>
      intro hn hsome
      rw [Layout.allocFrom] at hsome
      split at hsome
      · rename_i x l hlist
        cases hsome
        exact hI.canonical_take hfull h hlist (by omega)
      · exact ih (by omega) hsome
  rw [Layout.alloc] at hsome
  split at hsome
  · cases hsome
  · exact hfrom _ le_rfl hsome

/-! ### Freeing -/

lemma freeAt_le (hz : z ∈ L.zones) (h : L.FreeAt z i o) : i + 2 ^ o ≤ z.totalPages := by
  obtain ⟨hi, hown⟩ := h
  exact (fitsIn_iff.1 (hI.fitsIn hz ⟨by omega, by omega⟩ hown)).2.1

end State.Inv

namespace Layout

variable {L L' : Layout} {z : Zone} {i i' n o o' : Nat}

lemma isFree_eq_true_iff : L.isFree z i o = true ↔
    i + 2 ^ o ≤ z.totalPages ∧ L.owner (z.first + i) = some ⟨z.first + i, o, true⟩ := by
  simp [isFree]

/-- A merge ends at the largest order or at a block whose buddy is not free. -/
lemma Canonical.merge (n : Nat) : ∀ {L : Layout} {i o : Nat}, L.Canonical →
    (∀ j o, L.FreeAt z j o → j + 2 ^ o ≤ z.totalPages) →
    Layout.merge z n L i o = (L', i', o') →
    L'.Canonical ∧ (o' = o + n ∨ ¬L'.FreeAt z (i' ^^^ (1 <<< o')) o') := by
  induction n with
  | zero =>
    intro L i o h _ heq
    cases heq
    exact ⟨h, .inl rfl⟩
  | succ n ih =>
    intro L i o h hfits heq
    rw [Layout.merge] at heq
    split at heq
    · obtain ⟨hcan, hend⟩ := ih (h.remove _)
        (fun j o hfree => hfits j o (freeAt_of_release hfree)) heq
      refine ⟨hcan, hend.imp_left fun ho => ?_⟩
      omega
    · rename_i hnot
      cases heq
      refine ⟨h, .inr fun hfree => hnot ?_⟩
      exact isFree_eq_true_iff.2 ⟨hfits _ _ hfree, hfree.2⟩

end Layout

namespace State.Inv

variable {s : State} {L L' : Layout} {z : Zone} {i o p k : Nat} (hI : s.Inv L)

include hI

lemma canonical_free (hfull : L.Full) (h : L.Canonical) (hz : z ∈ L.zones) (hi : i < z.totalPages)
    (hlive : L.Live (z.first + i) o) : (L.free z (z.first + i) o).Canonical := by
  have hpage : z.HasPage (z.first + i) := ⟨by omega, by omega⟩
  have hfits := hI.fitsIn hz hpage hlive
  have hfits' : (⟨z.first + i, o, true⟩ : Block).FitsIn z :=
    fitsIn_iff.2 (fitsIn_iff.1 hfits)
  have horder := hfits.order_lt
  have hback := hI.releaseLive (b := ⟨z.first + i, o, false⟩) hlive rfl
  dsimp only [maxOrder] at horder
  obtain ⟨s', L', i', o', -, hmerge, hmerged⟩ := hback.merge (maxOrder - 1 - o) hz hfits'
    (by rw [maxOrder]; omega) (hfull.hole_takeBack hz hfits)
  obtain ⟨hcan, hend⟩ := (h.takeBack ⟨z.first + i, o, false⟩).merge (maxOrder - 1 - o)
    (fun j o hfree => hI.freeAt_le hz (freeAt_of_release hfree)) hmerge
  have hz' : z ∈ L'.zones := by
    rw [hmerged.keeps.zones]
    exact hz
  obtain ⟨-, hle, -⟩ := fitsIn_iff.1 hmerged.fits
  have hpos := Nat.two_pow_pos o'
  have hlayout : L.free z (z.first + i) o = L'.insert ⟨z.first + i', o', true⟩ := by
    rw [Layout.free, Nat.add_sub_cancel_left]
    simp only [Layout.takeBack, hmerge]
  rw [hlayout]
  refine hcan.insert hmerged.inv.separated hz' (by omega)
    (hmerged.hole.owner_of_span le_rfl le_rfl) fun hlt => ?_
  exact hend.resolve_left (by omega)

end State.Inv

/-! ### A new zone -/

namespace Layout

variable {L : Layout} {z : Zone} {i j n o : Nat}

/-- A block that starts at a multiple of the next size and has not got that size is at the end of
the zone. -/
lemma lt_of_carveOrder {usable current o : Nat} (hcur : current < usable)
    (ho : State.carveOrder usable current = o) (hlt : o + 1 < maxOrder)
    (hal : 2 ^ (o + 1) ∣ current) : usable < current + 2 ^ (o + 1) := by
  have hlog : Nat.log2 (usable - current) = o := by
    have halign : o + 1 ≤ if current = 0 then maxOrder - 1 else trailingZeros current := by
      split_ifs with hzero
      · omega
      · rw [maxOrder] at hlt
        exact le_trailingZeros hzero (by omega) hal
    rw [State.carveOrder] at ho
    omega
  have hbound := Nat.lt_log2_self (n := usable - current)
  rw [hlog] at hbound
  omega

lemma Canonical.carve (rounds : Nat) : ∀ {L : Layout} {current : Nat}, L.Canonical →
    L.Separated → z ∈ L.zones → L.Hole z current (z.totalPages - current) →
    (∀ j o, L.FreeAt z j o → j < current ∧ o = State.carveOrder z.totalPages j) →
    (L.carve z rounds current).Canonical := by
  induction rounds with
  | zero =>
    intro L current h _ _ _ _
    exact h
  | succ rounds ih =>
    intro L current h hsep hz hhole hcarved
    rw [Layout.carve]
    split_ifs with hlt
    swap
    · exact h
    have hpow := State.two_pow_carveOrder_le hlt
    have hpos := Nat.two_pow_pos (State.carveOrder z.totalPages current)
    have hdvd := State.two_pow_carveOrder_dvd z.totalPages current
    generalize ho : State.carveOrder z.totalPages current = o at hpow hpos hdvd ⊢
    have hvacant : ∀ p ∈ (⟨z.first + current, o, true⟩ : Block).span, L.owner p = none :=
      hhole.owner_of_span le_rfl (by omega)
    have hbuddy : o + 1 < maxOrder → ¬L.FreeAt z (current ^^^ (1 <<< o)) o := by
      -- a free buddy is the lower half, but it would have been made larger
      intro ho' hfree
      obtain ⟨hbefore, hbuddyOrder⟩ := hcarved _ _ hfree
      have hhalf : 2 ^ (o + 1) ∣ current ^^^ (1 <<< o) ∧
          current = (current ^^^ (1 <<< o)) + 2 ^ o := by
        obtain ⟨c, rfl⟩ := hdvd
        rw [mul_comm, mul_two_pow_xor, xor_one] at hbefore ⊢
        split_ifs at hbefore ⊢ with heven
        · have := Nat.lt_of_mul_lt_mul_right hbefore
          omega
        · obtain ⟨d, rfl⟩ : ∃ d, c = 2 * d + 1 := ⟨c / 2, by omega⟩
          rw [Nat.add_sub_cancel, pow_succ]
          exact ⟨⟨d, by ring⟩, by ring⟩
      have hend := lt_of_carveOrder hfree.1 hbuddyOrder.symm ho' hhalf.1
      omega
    have hhole' := hhole.insert_lower hpow
    rw [Nat.sub_sub] at hhole'
    refine ih (h.insert hsep hz hlt hvacant hbuddy) hsep hz hhole' ?_
    intro j o' hfree
    rcases (freeAt_insert hvacant).1 hfree with hfree | ⟨-, hpage, rfl⟩
    · obtain ⟨hj, horder⟩ := hcarved j o' hfree
      exact ⟨by omega, horder⟩
    · obtain rfl : j = current := by omega
      exact ⟨by omega, ho.symm⟩

end Layout

namespace State.Inv

variable {s : State} {L L' : Layout} {y z : Zone} {i j o p k : Nat} (hI : s.Inv L)

include hI

lemma canonical_addZone (hfull : L.Full) (h : L.Canonical)
    (hd : ∀ z' ∈ L.zones, z.Disjoint z') : (L.addZone z).Canonical := by
  have hnone : ∀ i o, ¬L.FreeAt z i o := by
    rintro i o ⟨hi, hown⟩
    rw [hI.owner_fresh hd ⟨by omega, by omega⟩] at hown
    cases hown
  have hsep : ({ L with zones := z :: L.zones } : Layout).Separated := by
    have hpage : ∀ y ∈ L.zones, ∀ p, z.HasPage p → y.HasPage p → z = y := fun y hy p hp hp' =>
      Zone.eq_of_hasPage (fun _ => hd y hy) hp hp'
    intro y hy y' hy' p hp hp'
    rcases List.mem_cons.1 hy with rfl | hold
    · rcases List.mem_cons.1 hy' with rfl | hold'
      · rfl
      · exact hpage y' hold' p hp hp'
    · rcases List.mem_cons.1 hy' with rfl | hold'
      · exact (hpage y hold p hp' hp).symm
      · exact hI.separated y hold y' hold' p hp hp'
  refine Canonical.carve z.totalPages ?_ hsep (.head _)
    (hI.hole_zone hfull hd) ?_
  · intro y hy i o ho hal hboth
    rcases List.mem_cons.1 hy with rfl | hy
    · exact hnone i o hboth.1
    · exact h y hy i o ho hal hboth
  · intro i o hfree
    exact absurd hfree (hnone i o)

end State.Inv

/-! ### Runs of free pages -/

/-- The `2 ^ k` pages from the index `i` on belong to free blocks. -/
def Layout.FreeRun (L : Layout) (z : Zone) (i k : Nat) : Prop :=
  ∀ j < 2 ^ k, ∃ b, L.owner (z.first + (i + j)) = some b ∧ b.free = true

/-- The free block that is at the index if all pages are free: the largest one that fits. -/
def Zone.Maximal (z : Zone) (i o : Nat) : Prop :=
  o < maxOrder ∧ 2 ^ o ∣ i ∧ i + 2 ^ o ≤ z.totalPages ∧
    (o + 1 < maxOrder → z.totalPages < i / 2 ^ (o + 1) * 2 ^ (o + 1) + 2 ^ (o + 1))

lemma Layout.FreeRun.halves {L : Layout} {z : Zone} {i k : Nat} (h : L.FreeRun z i (k + 1)) :
    L.FreeRun z i k ∧ L.FreeRun z (i + 2 ^ k) k := by
  constructor
  · intro j hj
    exact h j (by omega)
  · intro j hj
    rw [add_assoc]
    exact h (2 ^ k + j) (by omega)

namespace State.Inv

variable {s : State} {L : Layout} {z : Zone} {b : Block} {i j o k : Nat} (hI : s.Inv L)

include hI

section

variable (hz : z ∈ L.zones) (hi : i < z.totalPages) (hown : L.owner (z.first + i) = some b)

include hz hi hown

/-- Where the block of a page is in the zone. -/
lemma block_index :
    ∃ a, b = ⟨z.first + a, b.order, b.free⟩ ∧ b.order < maxOrder ∧ 2 ^ b.order ∣ a ∧ a ≤ i ∧
      i < a + 2 ^ b.order ∧ a + 2 ^ b.order ≤ z.totalPages := by
  have hfits := hI.fitsIn hz ⟨Nat.le_add_right _ _, Nat.add_lt_add_left hi _⟩ hown
  have hspan := mem_span.1 (hI.consistent.mem hown)
  obtain ⟨a, ha⟩ : ∃ a, b.start = z.first + a := ⟨b.start - z.first, by
    have := hfits.first_le
    omega⟩
  obtain ⟨start, order, free⟩ := b
  subst ha
  obtain ⟨horder, hle, hal⟩ := fitsIn_iff.1 hfits
  dsimp only at hspan
  have hlt : i < a + 2 ^ order := by omega
  exact ⟨a, rfl, horder, hal, by omega, hlt, hle⟩

/-- An aligned interval that meets a block of its size or larger is in the block. -/
lemma owner_aligned (hk : k ≤ b.order) (hal : 2 ^ k ∣ j) (hji : j ≤ i)
    (hij : i < j + 2 ^ k) {x : Nat} (hx : j ≤ x) (hx' : x < j + 2 ^ k) :
    L.owner (z.first + x) = some b := by
  obtain ⟨a, hb, -, hal', hle, hlt, -⟩ := hI.block_index hz hi hown
  obtain ⟨hlow, hhigh⟩ := aligned_subset hk hal' hal (by omega) (by omega)
  refine hI.consistent.eq_of_mem hown (mem_span.2 ?_)
  rw [hb]
  dsimp only
  omega

/-- A block of the order of an aligned interval that it meets is that interval. -/
lemma block_eq (hal : 2 ^ b.order ∣ i) : b = ⟨z.first + i, b.order, b.free⟩ := by
  obtain ⟨a, hb, -, hal', hle, hlt, -⟩ := hI.block_index hz hi hown
  obtain ⟨-, hhigh⟩ := aligned_subset le_rfl hal' hal (by omega) (by omega)
  obtain rfl : a = i := by omega
  exact hb

end

/-- An aligned run of free pages is in one block, by induction on its order: were its halves
different blocks, they would be buddies. -/
lemma exists_block_of_freeRun (h : L.Canonical) (hz : z ∈ L.zones) (k : Nat) :
    ∀ {i : Nat}, k < maxOrder → 2 ^ k ∣ i → i + 2 ^ k ≤ z.totalPages → L.FreeRun z i k →
      ∃ b, L.owner (z.first + i) = some b ∧ b.free = true ∧ k ≤ b.order := by
  induction k with
  | zero =>
    intro i _ _ _ hrun
    obtain ⟨b, hown, hfree⟩ := hrun 0 (by decide)
    exact ⟨b, hown, hfree, Nat.zero_le _⟩
  | succ k ih =>
    intro i hk hal hle hrun
    have hal' : 2 ^ k ∣ i := (Nat.pow_dvd_pow 2 (Nat.le_succ k)).trans hal
    have halHigh := Nat.dvd_add hal' (Nat.dvd_refl _)
    obtain ⟨hlow, hhigh⟩ := hrun.halves
    obtain ⟨b, hown, hfree, hb⟩ := ih (by omega) hal' (by omega) hlow
    obtain ⟨c, hown', hfree', hc⟩ := ih (by omega) halHigh (by omega) hhigh
    by_cases hb' : k + 1 ≤ b.order
    · exact ⟨b, hown, hfree, hb'⟩
    obtain rfl : b.order = k := by omega
    exfalso
    by_cases hc' : b.order + 1 ≤ c.order
    · have hsame := hI.owner_aligned hz (by omega) hown' hc' hal (by omega) (by omega)
        le_rfl (by omega)
      rw [hown] at hsame
      cases hsame
      omega
    · have horder : c.order = b.order := by omega
      refine h z hz i b.order hk hal ⟨⟨by omega, ?_⟩, ⟨by omega, ?_⟩⟩
      · have heq := hI.block_eq hz (by omega) hown hal'
        rw [hfree] at heq
        rw [hown]
        exact congrArg some heq
      · have heq := hI.block_eq hz (by omega) hown' (by rw [horder]; exact halHigh)
        rw [hfree', horder] at heq
        rw [hown']
        exact congrArg some heq

/-- If all pages are free, the free blocks are the largest ones that fit. -/
lemma freeAt_iff_maximal (hfull : L.Full) (h : L.Canonical)
    (hfree : ∀ p b, L.owner p = some b → b.free = true) (hz : z ∈ L.zones) :
    L.FreeAt z i o ↔ z.Maximal i o := by
  have hblock : ∀ {j : Nat}, j < z.totalPages →
      ∃ b, L.owner (z.first + j) = some b ∧ b.free = true := by
    intro j hj
    have hnot := hfull (z.first + j)
    cases hown : L.owner (z.first + j) with
    | none => exact absurd ⟨⟨z, hz, by omega, by omega⟩, hown⟩ hnot
    | some b => exact ⟨b, rfl, hfree _ b hown⟩
  constructor
  · rintro ⟨hi, hown⟩
    obtain ⟨a, hb, horder, hal, -, -, hle⟩ := hI.block_index hz hi hown
    obtain rfl : i = a := by
      have := congrArg Block.start hb
      dsimp only at this
      omega
    refine ⟨horder, hal, hle, fun hlt => ?_⟩
    -- the next larger block would be in one block
    by_contra hnot
    have hpos := Nat.two_pow_pos (o + 1)
    have hdiv := Nat.div_add_mod i (2 ^ (o + 1))
    rw [mul_comm] at hdiv
    obtain ⟨c, hownc, -, hc⟩ := hI.exists_block_of_freeRun h hz (o + 1) hlt
      (Nat.dvd_mul_left _ (i / 2 ^ (o + 1))) (by omega) fun j hj => hblock (by omega)
    have hsame := hI.owner_aligned hz (by omega) hownc hc (Nat.dvd_mul_left _ _) le_rfl
      (by omega) (x := i) (by omega) (by omega)
    rw [hown] at hsame
    cases hsame
    exact absurd hc (Nat.not_succ_le_self o)
  · rintro ⟨ho, hal, hle, hmax⟩
    have hi : i < z.totalPages := by omega
    obtain ⟨b, hown, hb, hob⟩ := hI.exists_block_of_freeRun h hz o ho hal hle
      fun j hj => hblock (by omega)
    by_cases hlt : o + 1 ≤ b.order
    · exfalso
      obtain ⟨a, -, horder, hal', hai, hia, hlast⟩ := hI.block_index hz hi hown
      have hdiv := Nat.div_add_mod i (2 ^ (o + 1))
      rw [mul_comm] at hdiv
      have hin := aligned_subset hlt hal' (Nat.dvd_mul_left _ (i / 2 ^ (o + 1))) (by omega)
        (by omega)
      omega
    · obtain rfl : b.order = o := by omega
      refine ⟨hi, ?_⟩
      have heq := hI.block_eq hz hi hown hal
      rw [hb] at heq
      rw [hown]
      exact congrArg some heq

end State.Inv

/-! ### When there is no block -/

namespace Layout

variable {L : Layout} {n k target : Nat}

lemma allocFrom_eq_none_iff (hn : n ≤ maxOrder) : L.allocFrom target n = none ↔
    ∀ o, maxOrder - n ≤ o → o < maxOrder → L.lists o = [] := by
  induction n with
  | zero =>
    refine iff_of_true rfl fun o hle hlt => ?_
    omega
  | succ n ih =>
    rw [allocFrom]
    split
    · rename_i x l hlist
      refine iff_of_false (fun hnone => by cases hnone) fun hall => ?_
      rw [hall _ le_rfl (by omega)] at hlist
      cases hlist
    · rename_i hnil
      rw [ih (by omega)]
      constructor
      · intro hall o hle hlt
        by_cases ho : o = maxOrder - (n + 1)
        · rw [ho, hnil]
        · exact hall o (by omega) hlt
      · intro hall o hle hlt
        exact hall o (by omega) hlt

lemma alloc_eq_none_iff (hk : k < maxOrder) :
    L.alloc k = none ↔ ∀ o, k ≤ o → o < maxOrder → L.lists o = [] := by
  rw [alloc, if_neg (by omega), allocFrom_eq_none_iff (Nat.sub_le _ _),
    Nat.sub_sub_self hk.le]

end Layout

/-- There is no block for an order exactly if no aligned run of that many free pages exists. -/
lemma State.Inv.alloc_eq_none_iff {s : State} {L : Layout} {k : Nat} (hI : s.Inv L)
    (h : L.Canonical) (hk : k < maxOrder) : L.alloc k = none ↔
      ¬∃ z ∈ L.zones, ∃ i, 2 ^ k ∣ i ∧ i + 2 ^ k ≤ z.totalPages ∧ L.FreeRun z i k := by
  rw [Layout.alloc_eq_none_iff hk]
  constructor
  · rintro hnil ⟨z, hz, i, hal, hle, hrun⟩
    obtain ⟨b, hown, hfree, hkb⟩ := hI.exists_block_of_freeRun h hz k hk hal hle hrun
    have hmem := (hI.mem_lists_iff hfree).2 (hI.owner_start hown)
    have horder := (hI.fitsIn hz ⟨Nat.le_add_right _ i, by omega⟩ hown).order_lt
    rw [hnil b.order hkb horder] at hmem
    cases hmem
  · intro hnone o hko ho
    cases hlist : L.lists o with
    | nil => rfl
    | cons x l =>
      exfalso
      have hmem : x ∈ L.lists _ := hlist ▸ List.mem_cons_self
      obtain ⟨z, hz, i, -, -, hown, hfits, -, -⟩ := hI.exists_node hmem
      obtain ⟨-, hle, hal⟩ := fitsIn_iff.1 hfits
      have hpow : 2 ^ k ≤ 2 ^ o := Nat.pow_le_pow_right (by decide) hko
      refine hnone ⟨z, hz, i, (Nat.pow_dvd_pow 2 hko).trans hal, by omega, fun j hj => ?_⟩
      refine ⟨_, hI.consistent.eq_of_mem hown (mem_span.2 ?_), rfl⟩
      dsimp only
      omega

end Mars.Pm
