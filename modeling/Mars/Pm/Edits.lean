import Mars.Pm.Layout

/-!
# Edits of the layout

What the pieces that the operations of the allocator are made of do to the layout: writing meta
bytes, putting a block into its list, taking one out, and handing out or taking back a block.
-/

namespace Mars.Pm

open Function Lib Lib.DList Lib.Ownership Vm

/-! ### Frames -/

lemma ZoneChain.congr {m m' : Mem} {p : Nat} {zs : List Zone} (h : ZoneChain m p zs)
    (hm : ∀ z ∈ zs, Set.EqOn m m' (Set.Ico z.addr (z.addr + zoneSize))) : ZoneChain m' p zs := by
  induction zs generalizing p with
  | nil => exact h
  | cons z zs ih =>
    obtain ⟨hp, hmeta, hdata, htotal, hrest⟩ := h
    have hword : ∀ k ≤ 24, m'.word (z.addr + k) = m.word (z.addr + k) := by
      intro k hk
      refine Mem.word_congr fun a ha => (hm z (.head _) ?_).symm
      obtain ⟨hle, hlt⟩ := ha
      exact ⟨by omega, by rw [zoneSize]; omega⟩
    refine ⟨hp, ?_, ?_, ?_, ?_⟩
    · exact (hword 0 (by decide)).trans hmeta
    · exact (hword 8 (by decide)).trans hdata
    · exact (hword 16 (by decide)).trans htotal
    · rw [zoneNext, hword 24 (by decide)]
      exact ih hrest fun z' hz' => hm z' (.tail z hz')

lemma blockZone_congr {m m' : Mem} {p : Nat} (hm : Set.EqOn m m' (tailBytes p)) :
    blockZone m (p * pageSize) = blockZone m' (p * pageSize) :=
  Mem.word_congr fun _ ha => hm ⟨ha.1, by have := ha.2; omega⟩

lemma blockPageIndex_congr {m m' : Mem} {p : Nat} (hm : Set.EqOn m m' (tailBytes p)) :
    blockPageIndex m (p * pageSize) = blockPageIndex m' (p * pageSize) :=
  Mem.word_congr fun _ ha => hm ⟨by have := ha.1; omega, by have := ha.2; omega⟩

/-- Only the page `p` and the links in the list of the order `o` were written. -/
def Layout.Touches (L : Layout) (o p : Nat) (m m' : Mem) : Prop :=
  ∀ a, a ∉ pageBytes p → (∀ x ∈ L.lists o, a ∉ links x) → m a = m' a

/-- What an edit leaves alone: the zones and the allocated blocks. -/
structure Keeps (s : State) (L : Layout) (s' : State) (L' : Layout) : Prop where
  zones : L'.zones = L.zones
  zoneHead : s'.zoneHead = s.zoneHead
  allocated : s'.allocatedPages = s.allocatedPages
  live : ∀ p b, b.free = false → (L'.owner p = some b ↔ L.owner p = some b)
  bytes : ∀ p b, b.free = false → L.owner p = some b → Set.EqOn s.mem s'.mem (pageBytes p)

lemma Keeps.refl (s : State) (L : Layout) : Keeps s L s L :=
  ⟨rfl, rfl, rfl, fun _ _ _ => Iff.rfl, fun _ _ _ _ _ _ => rfl⟩

lemma Keeps.trans {s s' s'' : State} {L L' L'' : Layout} (h₁ : Keeps s L s' L')
    (h₂ : Keeps s' L' s'' L'') : Keeps s L s'' L'' where
  zones := h₂.zones.trans h₁.zones
  zoneHead := h₂.zoneHead.trans h₁.zoneHead
  allocated := h₂.allocated.trans h₁.allocated
  live := fun p b hb => (h₂.live p b hb).trans (h₁.live p b hb)
  bytes := fun p b hb hown =>
    (h₁.bytes p b hb hown).trans (h₂.bytes p b hb ((h₁.live p b hb).2 hown))

namespace State.Inv

variable {s : State} {L : Layout} {z z' : Zone} {b : Block} {p q a i o : Nat} {m' : Mem}
  (hI : s.Inv L)

include hI

section Touches

variable (hp : ∃ z ∈ L.zones, z.HasPage p) (ht : L.Touches o p s.mem m')

include hp ht

lemma touches_reserved (hz : z ∈ L.zones) : Set.EqOn s.mem m' z.reserved := by
  intro a ha
  refine ht a ?_ ?_
  · intro hap
    obtain ⟨z', hz', hpage⟩ := hp
    exact hI.notMem_reserved hz' hz hpage hap ha
  · intro x hx hax
    obtain ⟨q, rfl, hown⟩ := (hI.listed o x).1 hx
    obtain ⟨z', hz', hfits⟩ := hI.fits q _ hown
    have hpage := hfits.hasPage (hI.consistent.mem hown)
    exact hI.notMem_reserved hz' hz hpage (links_subset q hax) ha

lemma touches_chain : ZoneChain m' s.zoneHead L.zones := by
  refine hI.chain.congr fun z hz a ha => hI.touches_reserved hp ht hz ?_
  exact Zone.mem_reserved_header (hI.wf z hz) ha

lemma touches_meta (hz : z ∈ L.zones) (hi : i < z.totalPages) :
    m' (z.metaArray + i) = s.mem (z.metaArray + i) :=
  (hI.touches_reserved hp ht hz (Zone.mem_reserved_meta hi)).symm

omit hp in
lemma touches_tail (hq : q ≠ p) : Set.EqOn s.mem m' (tailBytes q) := by
  intro a ha
  refine ht a ?_ ?_
  · exact fun hap => hq (eq_of_mem_pageBytes (tailBytes_subset q ha) hap)
  · intro x hx
    obtain ⟨r, rfl, -⟩ := (hI.listed o x).1 hx
    exact notMem_links_of_tailBytes ha

omit hp in
lemma touches_page (hq : q ≠ p) (hnot : L.owner q ≠ some ⟨q, o, true⟩) :
    Set.EqOn s.mem m' (pageBytes q) := by
  intro a ha
  refine ht a ?_ ?_
  · exact fun hap => hq (eq_of_mem_pageBytes ha hap)
  · intro x hx hax
    obtain ⟨r, rfl, hown⟩ := (hI.listed o x).1 hx
    obtain rfl := eq_of_mem_pageBytes ha (links_subset r hax)
    exact hnot hown

omit hp in
lemma touches_links {o' x : Nat} (ho : o' ≠ o) (hx : x ∈ L.lists o') (hxp : x ≠ p * pageSize) :
    Set.EqOn s.mem m' (links x) := by
  obtain ⟨q, rfl, hown⟩ := (hI.listed o' x).1 hx
  have hq : q ≠ p := by
    rintro rfl
    exact hxp rfl
  refine (hI.touches_page ht hq ?_).mono (links_subset q)
  rw [hown]
  intro heq
  cases heq
  exact ho rfl

omit hp in
lemma touches_live (hown : L.owner q = some b) (hb : b.free = false) (hq : q ≠ p) :
    Set.EqOn s.mem m' (pageBytes q) := by
  refine hI.touches_page ht hq ?_
  rw [hown]
  rintro heq
  cases heq
  cases hb

end Touches

lemma first_pos (hz : z ∈ L.zones) : 0 < z.first := by
  have hwf := hI.wf z hz
  have hheader := hwf.header
  rw [Zone.dataBase, zoneSize] at hheader
  rcases Nat.eq_zero_or_pos z.first with hzero | hpos
  · rw [hzero, zero_mul] at hheader
    omega
  · exact hpos

lemma page_bounds (hz : z ∈ L.zones) (hp : z.HasPage p) :
    0 < p * pageSize ∧ p * pageSize < 2 ^ 64 := by
  have hstop := (hI.wf z hz).le
  have hpos := hI.first_pos hz
  obtain ⟨hle, hlt⟩ := hp
  constructor
  · exact Nat.mul_pos (by omega) (by decide)
  · exact (Nat.mul_lt_mul_of_pos_right hlt (by decide)).trans_le hstop

lemma freeArea_mem (ho : o < maxOrder) (hne : s.freeArea o ≠ 0) : s.freeArea o ∈ L.lists o := by
  have hlist := hI.lists o ho
  cases hl : L.lists o with
  | nil =>
    rw [hl] at hlist
    exact absurd (hlist.eq_zero_iff.2 rfl) hne
  | cons x l =>
    rw [hl] at hlist
    rw [hlist.head_eq]
    exact .head _

/-! ### A block enters its list -/

section Push

variable (hz : z ∈ L.zones) (hb : b = ⟨z.first + i, o, true⟩) (hfits : b.FitsIn z)
  (hvacant : ∀ p ∈ b.span, L.owner p = none)

include hb hfits

lemma touches_pushBlock : L.Touches o b.start s.mem (s.pushBlock z.addr b.addr i o).mem := by
  intro a hap hlinks
  have ho : o < maxOrder := by
    rw [← show b.order = o by rw [hb]]
    exact hfits.order_lt
  have hout : ∀ k, k + 8 ≤ 32 → a < b.addr + k ∨ b.addr + k + 8 ≤ a := by
    intro k hk
    rw [mem_pageBytes, pageSize_eq] at hap
    rw [Block.addr, pageSize_eq]
    omega
  have hself : a ∉ links b.addr := fun ha => hap (links_subset _ ha)
  simp only [pushBlock]
  rw [push_apply hself, Mem.setWord_of_outside (hout 24 (by decide)),
    Mem.setWord_of_outside (hout 16 (by decide))]
  intro hne
  exact hlinks _ (hI.freeArea_mem ho hne)

lemma node_pushBlock (hz : z ∈ L.zones) :
    blockZone (s.pushBlock z.addr b.addr i o).mem b.addr = z.addr ∧
    blockPageIndex (s.pushBlock z.addr b.addr i o).mem b.addr = i := by
  have ho : o < maxOrder := by
    rw [← show b.order = o by rw [hb]]
    exact hfits.order_lt
  have htail : Set.EqOn (s.pushBlock z.addr b.addr i o).mem
      ((s.mem.setWord (b.addr + 16) z.addr).setWord (b.addr + 24) i) (tailBytes b.start) := by
    intro a ha
    refine push_apply (notMem_links_of_tailBytes ha) fun hne => ?_
    obtain ⟨q, hq, -⟩ := (hI.listed o _).1 (hI.freeArea_mem ho hne)
    rw [hq]
    exact notMem_links_of_tailBytes ha
  have hwf := hI.wf z hz
  have hlt := hwf.le
  have haddr : z.addr < 2 ^ 64 := by
    have hheader := hwf.header
    have hle := z.dataBase_le_stop
    rw [zoneSize] at hheader
    omega
  have hi : i < 2 ^ 64 := by
    have hstop := hfits.le_stop
    have hpos := Nat.two_pow_pos o
    rw [hb] at hstop
    rw [Zone.stop, pageSize_eq] at hlt
    dsimp only at hstop
    omega
  constructor
  · have hdisjoint : b.addr + 16 + 8 ≤ b.addr + 24 := Nat.le_refl _
    refine (blockZone_congr htail).trans ?_
    exact (Mem.word_setWord_of_disjoint (.inl hdisjoint)).trans (Mem.word_setWord haddr)
  · exact (blockPageIndex_congr htail).trans (Mem.word_setWord hi)

include hvacant

lemma keeps_insert : Keeps s L (s.pushBlock z.addr b.addr i o) (L.insert b) := by
  refine ⟨rfl, rfl, rfl, ?_, ?_⟩
  · intro p c hc
    refine (assign_eq_some_iff hvacant).trans (or_iff_right ?_)
    rintro ⟨-, rfl⟩
    rw [hb] at hc
    cases hc
  · intro p c hc hown
    refine hI.touches_live (hI.touches_pushBlock hb hfits) hown hc ?_
    rintro rfl
    rw [hvacant _ b.start_mem_span] at hown
    cases hown

omit hI hb hfits in
lemma ne_start_of_owner {c : Block} (hown : L.owner q = some c) : q ≠ b.start := by
  rintro rfl
  rw [hvacant _ b.start_mem_span] at hown
  cases hown

include hz in
lemma lists_insert {o' : Nat} (ho' : o' < maxOrder) :
    IsList (s.pushBlock z.addr b.addr i o).mem ((s.pushBlock z.addr b.addr i o).freeArea o')
      ((L.insert b).lists o') := by
  have horder : b.order = o := by rw [hb]
  by_cases ho : o' = o
  · subst ho
    have hlist : IsList ((s.mem.setWord (b.addr + 16) z.addr).setWord (b.addr + 24) i)
        (s.freeArea o') (L.lists o') := by
      refine (hI.lists o' ho').congr ?_
      intro x hx a ha
      obtain ⟨q, rfl, hown⟩ := (hI.listed o' x).1 hx
      rw [mem_links, pageSize_eq] at ha
      rw [Mem.setWord_of_outside, Mem.setWord_of_outside]
      · rw [Block.addr, pageSize_eq]
        omega
      · rw [Block.addr, pageSize_eq]
        omega
    obtain ⟨hpos, hlt⟩ := hI.page_bounds hz (hfits.hasPage b.start_mem_span)
    simp only [pushBlock, Layout.insert, horder, update_self]
    refine hlist.push hpos.ne' hlt ?_
    intro x hx
    obtain ⟨q, rfl, hown⟩ := (hI.listed o' x).1 hx
    exact apart_of_ne (ne_start_of_owner hvacant hown).symm
  · simp only [pushBlock, Layout.insert, horder, update_of_ne ho]
    refine (hI.lists o' ho').congr fun x hx => ?_
    refine hI.touches_links (hI.touches_pushBlock hb hfits) ho hx ?_
    obtain ⟨q, rfl, hown⟩ := (hI.listed o' x).1 hx
    intro heq
    exact ne_start_of_owner hvacant hown (eq_of_mul_pageSize heq)

omit hfits in
lemma listed_insert {o' x : Nat} : x ∈ (L.insert b).lists o' ↔
    ∃ p, x = p * pageSize ∧ (L.insert b).owner p = some ⟨p, o', true⟩ := by
  have horder : b.order = o := by rw [hb]
  by_cases ho : o' = o
  · subst ho
    simp only [Layout.insert, horder, update_self, List.mem_cons, hI.listed]
    constructor
    · rintro (rfl | ⟨p, rfl, hown⟩)
      · refine ⟨b.start, rfl, (assign_eq_some_iff hvacant).2 (.inl ⟨b.start_mem_span, ?_⟩)⟩
        rw [hb]
      · exact ⟨p, rfl, (assign_eq_some_iff hvacant).2 (.inr hown)⟩
    · rintro ⟨p, rfl, hown⟩
      rcases (assign_eq_some_iff hvacant).1 hown with ⟨-, heq⟩ | hown
      · left
        rw [← heq]
        rfl
      · exact .inr ⟨p, rfl, hown⟩
  · simp only [Layout.insert, horder, update_of_ne ho, hI.listed]
    refine exists_congr fun p => and_congr_right fun _ => ?_
    refine (or_iff_right ?_).symm.trans (assign_eq_some_iff hvacant).symm
    rintro ⟨-, heq⟩
    rw [hb] at heq
    cases heq
    exact ho rfl

include hz in
/-- A block whose meta bytes are written is put into its list. -/
lemma insert (hmeta : ∀ j < 2 ^ o, s.mem (z.metaArray + (i + j)) = b.byte) :
    (s.pushBlock z.addr b.addr i o).Inv (L.insert b) := by
  have hin : ∃ z ∈ L.zones, z.HasPage b.start := ⟨z, hz, hfits.hasPage b.start_mem_span⟩
  have ht := hI.touches_pushBlock hb hfits
  refine ⟨hI.touches_chain hin ht, hI.wf, hI.apart, hI.consistent.assign hvacant, ?_, ?_,
    fun o' ho' => hI.lists_insert hz hb hfits hvacant ho', fun o' x => hI.listed_insert hb hvacant,
    ?_⟩
  · intro p c hc
    rcases (assign_eq_some_iff hvacant).1 hc with ⟨-, rfl⟩ | hc
    · exact ⟨z, hz, hfits⟩
    · exact hI.fits p c hc
  · intro z' hz' i' hi' c hc
    rw [hI.touches_meta hin ht hz' hi']
    rcases (assign_eq_some_iff hvacant).1 hc with ⟨hmem, rfl⟩ | hc
    · obtain rfl := hI.zone_eq hz' hz ⟨by omega, by omega⟩ (hfits.hasPage hmem)
      obtain ⟨hle, hlt⟩ := Block.mem_span.1 hmem
      rw [hb] at hle hlt
      dsimp only at hle hlt
      have hj := hmeta (i' - i) (by omega)
      rw [Nat.add_sub_cancel' (by omega)] at hj
      exact hj
    · exact hI.metas z' hz' i' hi' c hc
  · intro z' hz' i' hi' o' hown
    rcases (assign_eq_some_iff hvacant).1 hown with ⟨hmem, heq⟩ | hown
    · obtain rfl := hI.zone_eq hz' hz ⟨by omega, by omega⟩ (hfits.hasPage hmem)
      have haddr : (z'.first + i') * pageSize = b.addr := by
        rw [← heq]
        rfl
      have hi : i' = i := by
        rw [hb] at heq
        injection heq
        omega
      rw [haddr, hi]
      exact hI.node_pushBlock hb hfits hz
    · have htail := hI.touches_tail ht (ne_start_of_owner hvacant hown)
      rw [← blockZone_congr htail, ← blockPageIndex_congr htail]
      exact hI.nodes z' hz' i' hi' o' hown

end Push

/-! ### A block leaves its list -/

section Unlink

variable (hown : L.owner b.start = some b) (hfree : b.free = true)

include hown hfree

lemma lists_split : ∃ l₁ l₂, L.lists b.order = l₁ ++ b.addr :: l₂ ∧
    (L.lists b.order).erase b.addr = l₁ ++ l₂ ∧
    IsList s.mem (s.freeArea b.order) (l₁ ++ b.addr :: l₂) := by
  obtain ⟨z, hz, hfits⟩ := hI.fits _ _ hown
  have hlist := hI.lists b.order hfits.order_lt
  obtain ⟨l₁, l₂, heq⟩ := List.append_of_mem ((hI.mem_lists_iff hfree).2 hown)
  have hnot : b.addr ∉ l₁ := by
    have hnodup := hlist.nodup
    rw [heq, List.nodup_append] at hnodup
    exact fun hmem => hnodup.2.2 _ hmem _ (.head _) rfl
  refine ⟨l₁, l₂, heq, ?_, heq ▸ hlist⟩
  rw [heq, List.erase_append_right _ hnot, List.erase_cons_head]

lemma unlinkBlock_apply (ha : ∀ x ∈ (L.lists b.order).erase b.addr, a ∉ links x) :
    s.mem a = (s.unlinkBlock b.order b.addr).mem a := by
  obtain ⟨l₁, l₂, heq, herase, hlist⟩ := hI.lists_split hown hfree
  rw [herase] at ha
  simp only [unlinkBlock]
  rw [hlist.unlink_apply ha]

lemma touches_unlinkBlock : L.Touches b.order b.start s.mem (s.unlinkBlock b.order b.addr).mem := by
  intro a _ hlinks
  exact hI.unlinkBlock_apply hown hfree fun x hx => hlinks x (List.mem_of_mem_erase hx)

/-- The fields of the node can still be read. -/
lemma tail_unlinkBlock : Set.EqOn s.mem (s.unlinkBlock b.order b.addr).mem (tailBytes b.start) := by
  intro a ha
  refine hI.unlinkBlock_apply hown hfree fun x hx => ?_
  obtain ⟨q, rfl, -⟩ := (hI.listed _ x).1 (List.mem_of_mem_erase hx)
  exact notMem_links_of_tailBytes ha

omit hfree in
lemma owner_remove {c : Block} : (L.remove b).owner p = some c ↔ L.owner p = some c ∧ c ≠ b :=
  hI.consistent.release_eq_some_iff hown

lemma keeps_remove : Keeps s L (s.unlinkBlock b.order b.addr) (L.remove b) := by
  refine ⟨rfl, rfl, rfl, ?_, ?_⟩
  · intro p c hc
    refine (hI.owner_remove hown).trans (and_iff_left ?_)
    rintro rfl
    rw [hfree] at hc
    cases hc
  · intro p c hc hp
    refine hI.touches_live (hI.touches_unlinkBlock hown hfree) hp hc ?_
    rintro rfl
    rw [hown] at hp
    cases hp
    rw [hfree] at hc
    cases hc

lemma lists_remove {o' : Nat} (ho' : o' < maxOrder) :
    IsList (s.unlinkBlock b.order b.addr).mem ((s.unlinkBlock b.order b.addr).freeArea o')
      ((L.remove b).lists o') := by
  obtain ⟨l₁, l₂, heq, herase, hlist⟩ := hI.lists_split hown hfree
  by_cases ho : o' = b.order
  · subst ho
    simp only [unlinkBlock, Layout.remove, update_self, herase]
    exact hlist.unlink
  · simp only [Layout.remove, update_of_ne ho]
    have hlist' : IsList (s.unlinkBlock b.order b.addr).mem (s.freeArea o') (L.lists o') := by
      refine (hI.lists o' ho').congr fun x hx => ?_
      refine hI.touches_links (hI.touches_unlinkBlock hown hfree) ho hx ?_
      obtain ⟨q, rfl, hq⟩ := (hI.listed o' x).1 hx
      intro heq
      obtain rfl : q = b.start := eq_of_mul_pageSize heq
      rw [hown] at hq
      injection hq with hq
      exact ho (by rw [hq])
    simpa only [unlinkBlock, update_of_ne ho] using hlist'

lemma listed_remove {o' x : Nat} : x ∈ (L.remove b).lists o' ↔
    ∃ p, x = p * pageSize ∧ (L.remove b).owner p = some ⟨p, o', true⟩ := by
  simp only [hI.owner_remove hown]
  by_cases ho : o' = b.order
  · subst ho
    have hnodup := (hI.lists b.order (hI.fits _ _ hown).choose_spec.2.order_lt).nodup
    simp only [Layout.remove, update_self, hnodup.mem_erase_iff, hI.listed]
    constructor
    · rintro ⟨hne, p, rfl, hp⟩
      refine ⟨p, rfl, hp, fun heq => hne ?_⟩
      rw [Block.addr, ← heq]
    · rintro ⟨p, rfl, hp, hne⟩
      refine ⟨?_, p, rfl, hp⟩
      intro heq
      obtain rfl : p = b.start := eq_of_mul_pageSize heq
      rw [hown] at hp
      exact hne (Option.some.inj hp).symm
  · simp only [Layout.remove, update_of_ne ho, hI.listed]
    refine exists_congr fun p => and_congr_right fun _ => ?_
    refine (and_iff_left ?_).symm
    rintro rfl
    exact ho rfl

lemma remove : (s.unlinkBlock b.order b.addr).Inv (L.remove b) := by
  obtain ⟨z, hz, hfits⟩ := hI.fits _ _ hown
  have hin : ∃ z ∈ L.zones, z.HasPage b.start := ⟨z, hz, hfits.hasPage b.start_mem_span⟩
  have ht := hI.touches_unlinkBlock hown hfree
  refine ⟨hI.touches_chain hin ht, hI.wf, hI.apart, hI.consistent.release hown, ?_, ?_,
    fun o' ho' => hI.lists_remove hown hfree ho', fun o' x => hI.listed_remove hown hfree, ?_⟩
  · intro p c hc
    exact hI.fits p c ((hI.owner_remove hown).1 hc).1
  · intro z' hz' i' hi' c hc
    rw [hI.touches_meta hin ht hz' hi']
    exact hI.metas z' hz' i' hi' c ((hI.owner_remove hown).1 hc).1
  · intro z' hz' i' hi' o' hc
    obtain ⟨hc, hne⟩ := (hI.owner_remove hown).1 hc
    have hstart : z'.first + i' ≠ b.start := by
      intro heq
      rw [heq] at hc hne
      rw [hown] at hc
      exact hne (Option.some.inj hc).symm
    have htail := hI.touches_tail ht hstart
    rw [← blockZone_congr htail, ← blockPageIndex_congr htail]
    exact hI.nodes z' hz' i' hi' o' hc

end Unlink

/-! ### Meta bytes -/

section FillMeta

variable (hz : z ∈ L.zones) {k : Nat} (hle : i + 2 ^ k ≤ z.totalPages) (v : UInt8)

include hz hle

omit hI hz in
lemma fillMeta_apply (ha : a ∉ z.reserved) : s.mem a = (s.fillMeta z.metaArray i k v).mem a := by
  refine (Mem.fill_of_outside ?_).symm
  by_contra hin
  exact ha (.inl ⟨by omega, by omega⟩)

lemma fillMeta_page (hz' : z' ∈ L.zones) (hp : z'.HasPage p) :
    Set.EqOn s.mem (s.fillMeta z.metaArray i k v).mem (pageBytes p) :=
  fun _ ha => fillMeta_apply hle v (hI.notMem_reserved hz' hz hp ha)

lemma keeps_fillMeta : Keeps s L (s.fillMeta z.metaArray i k v) L := by
  refine ⟨rfl, rfl, rfl, fun _ _ _ => Iff.rfl, fun p b _ hown => ?_⟩
  obtain ⟨z', hz', hfits⟩ := hI.fits p b hown
  exact hI.fillMeta_page hz hle v hz' (hfits.hasPage (hI.consistent.mem hown))

lemma fillMeta_chain : ZoneChain (s.fillMeta z.metaArray i k v).mem s.zoneHead L.zones := by
  refine hI.chain.congr fun z' hz' a ha => ?_
  by_cases heq : z = z'
  · subst heq
    refine (Mem.fill_of_outside ?_).symm
    have hroom := (hI.wf z hz).room
    have hge := ha.1
    omega
  · have hheader := Zone.mem_reserved_header (hI.wf z' hz') ha
    exact fillMeta_apply hle v (hI.reserved_notMem hz' hz (Ne.symm heq) hheader)

/-- Meta bytes of pages that belong to no block may be written. -/
lemma fillMeta (hvacant : ∀ j < 2 ^ k, L.owner (z.first + (i + j)) = none) :
    (s.fillMeta z.metaArray i k v).Inv L := by
  refine ⟨hI.fillMeta_chain hz hle v, hI.wf, hI.apart, hI.consistent, hI.fits, ?_, ?_, hI.listed,
    ?_⟩
  · intro z' hz' i' hi' c hc
    rw [← hI.metas z' hz' i' hi' c hc]
    by_cases heq : z = z'
    · subst heq
      refine Mem.fill_of_outside ?_
      by_contra hin
      have hnone := hvacant (i' - i) (by omega)
      rw [Nat.add_sub_cancel' (by omega), hc] at hnone
      cases hnone
    · have hmeta := Zone.mem_reserved_meta hi'
      exact (fillMeta_apply hle v (hI.reserved_notMem hz' hz (Ne.symm heq) hmeta)).symm
  · intro o ho
    refine (hI.lists o ho).congr fun x hx => ?_
    obtain ⟨q, rfl, hown⟩ := (hI.listed o x).1 hx
    obtain ⟨z', hz', hfits⟩ := hI.fits q _ hown
    have hpage := hfits.hasPage (hI.consistent.mem hown)
    exact (hI.fillMeta_page hz hle v hz' hpage).mono (links_subset q)
  · intro z' hz' i' hi' o' hown
    have hpage : z'.HasPage (z'.first + i') := ⟨by omega, by omega⟩
    have htail := (hI.fillMeta_page hz hle v hz' hpage).mono (tailBytes_subset _)
    rw [← blockZone_congr htail, ← blockPageIndex_congr htail]
    exact hI.nodes z' hz' i' hi' o' hown

end FillMeta

/-! ### Allocated blocks -/

lemma assignLive (hz : z ∈ L.zones) (hfits : b.FitsIn z) (hb : b.free = false)
    (hvacant : ∀ p ∈ b.span, L.owner p = none)
    (hmeta : ∀ j < 2 ^ b.order, s.mem (z.metaArray + (b.start - z.first + j)) = b.byte) :
    s.Inv { L with owner := assign Block.span L.owner b } := by
  have hfree : ∀ {p o : Nat}, assign Block.span L.owner b p = some ⟨p, o, true⟩ ↔
      L.owner p = some ⟨p, o, true⟩ := by
    intro p o
    refine (assign_eq_some_iff hvacant).trans (or_iff_right ?_)
    rintro ⟨-, rfl⟩
    cases hb
  refine ⟨hI.chain, hI.wf, hI.apart, hI.consistent.assign hvacant, ?_, ?_, hI.lists, ?_, ?_⟩
  · intro p c hc
    rcases (assign_eq_some_iff hvacant).1 hc with ⟨-, rfl⟩ | hc
    · exact ⟨z, hz, hfits⟩
    · exact hI.fits p c hc
  · intro z' hz' i' hi' c hc
    rcases (assign_eq_some_iff hvacant).1 hc with ⟨hmem, rfl⟩ | hc
    · obtain rfl := hI.zone_eq hz' hz ⟨by omega, by omega⟩ (hfits.hasPage hmem)
      obtain ⟨hle, hlt⟩ := Block.mem_span.1 hmem
      have hfirst := hfits.first_le
      have hj := hmeta (z'.first + i' - c.start) (by omega)
      rwa [show c.start - z'.first + (z'.first + i' - c.start) = i' by omega] at hj
    · exact hI.metas z' hz' i' hi' c hc
  · intro o x
    simp only [hfree]
    exact hI.listed o x
  · intro z' hz' i' hi' o hown
    exact hI.nodes z' hz' i' hi' o (hfree.1 hown)

lemma releaseLive (hown : L.owner b.start = some b) (hb : b.free = false) :
    s.Inv { L with owner := release Block.span L.owner b } := by
  have hiff : ∀ {p : Nat} {c : Block}, release Block.span L.owner b p = some c ↔
      L.owner p = some c ∧ c ≠ b := hI.consistent.release_eq_some_iff hown
  refine ⟨hI.chain, hI.wf, hI.apart, hI.consistent.release hown, ?_, ?_, hI.lists, ?_, ?_⟩
  · exact fun p c hc => hI.fits p c (hiff.1 hc).1
  · exact fun z' hz' i' hi' c hc => hI.metas z' hz' i' hi' c (hiff.1 hc).1
  · intro o x
    rw [hI.listed]
    refine exists_congr fun p => and_congr_right fun _ => ?_
    refine (and_iff_left ?_).symm.trans hiff.symm
    rintro rfl
    cases hb
  · exact fun z' hz' i' hi' o hc => hI.nodes z' hz' i' hi' o (hiff.1 hc).1

end State.Inv

end Mars.Pm
