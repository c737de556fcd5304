import Mars.Pm.Canonical

/-!
# Moving a layout

A layout is moved by a number of pages: its blocks, the addresses in its lists, and its zones by a
map that moves their data pages. Every operation on layouts commutes with moving, so an allocator
that works at other addresses makes the same choices.
-/

namespace Mars.Pm

open Function Lib Lib.Bits Lib.Ownership Vm Mars.Pm.Block

/-! ### Blocks -/

def Block.shift (d : Nat) (b : Block) : Block := { b with start := b.start + d }

section Block

variable {b c : Block} {d p start o : Nat} {free : Bool}

@[simp] lemma Block.shift_mk :
    (⟨start, o, free⟩ : Block).shift d = ⟨start + d, o, free⟩ := rfl

@[simp] lemma Block.shift_order : (b.shift d).order = b.order := rfl

@[simp] lemma Block.shift_free : (b.shift d).free = b.free := rfl

@[simp] lemma Block.shift_start : (b.shift d).start = b.start + d := rfl

lemma Block.shift_injective (d : Nat) : Injective (Block.shift d) := by
  rintro ⟨start, o, free⟩ ⟨start', o', free'⟩ h
  simpa using h

lemma Block.add_mem_span_shift : p + d ∈ (b.shift d).span ↔ p ∈ b.span := by
  rw [mem_span, mem_span, shift_start, shift_order]
  omega

lemma Block.le_of_mem_span_shift (h : p ∈ (b.shift d).span) : d ≤ p := by
  rw [mem_span, shift_start] at h
  omega

lemma Block.addr_shift : (b.shift d).addr = b.addr + d * pageSize := add_mul _ _ _

lemma Block.byte_shift : (b.shift d).byte = b.byte := rfl

end Block

/-! ### Layouts -/

/-- The map moves the data pages of zones by `d` pages. -/
structure MovesPages (d : Nat) (f : Zone → Zone) : Prop where
  first : ∀ z, (f z).first = z.first + d
  totalPages : ∀ z, (f z).totalPages = z.totalPages

def Layout.shift (d : Nat) (f : Zone → Zone) (L : Layout) : Layout where
  zones := L.zones.map f
  owner p := if d ≤ p then (L.owner (p - d)).map (Block.shift d) else none
  lists o := (L.lists o).map (· + d * pageSize)

namespace Layout

variable {L : Layout} {b : Block} {z : Zone} {d i n o p target : Nat} {f : Zone → Zone}

@[simp] lemma owner_shift_add : (L.shift d f).owner (p + d) = (L.owner p).map (Block.shift d) := by
  simp [shift]

lemma owner_shift_of_lt (h : p < d) : (L.shift d f).owner p = none := if_neg (by omega)

@[simp] lemma lists_shift : (L.shift d f).lists o = (L.lists o).map (· + d * pageSize) := rfl

/-- A page is below the moved ones or a moved one. -/
lemma page_cases (d p : Nat) : p < d ∨ ∃ q, p = q + d := by
  by_cases h : p < d
  · exact .inl h
  · exact .inr ⟨p - d, by omega⟩

lemma owner_shift_eq_some (h : (L.shift d f).owner p = some b) :
    ∃ q c, p = q + d ∧ b = c.shift d ∧ L.owner q = some c := by
  rcases page_cases d p with hp | ⟨q, rfl⟩
  · rw [owner_shift_of_lt hp] at h
    cases h
  · rw [owner_shift_add, Option.map_eq_some_iff] at h
    obtain ⟨c, hc, rfl⟩ := h
    exact ⟨q, c, rfl, rfl, hc⟩

lemma owner_shift_add_iff :
    (L.shift d f).owner (p + d) = some (b.shift d) ↔ L.owner p = some b := by
  rw [owner_shift_add, Option.map_eq_some_iff]
  constructor
  · rintro ⟨c, hc, heq⟩
    rw [hc, shift_injective d heq]
  · intro h
    exact ⟨b, h, rfl⟩

/-- Layouts whose owners agree on the moved pages and have none below. -/
lemma owner_shift_ext {owner : Nat → Option Block} (hlt : ∀ p < d, owner p = none)
    (hadd : ∀ p, owner (p + d) = (L.owner p).map (Block.shift d)) :
    (L.shift d f).owner = owner := by
  funext p
  rcases page_cases d p with hp | ⟨q, rfl⟩
  · rw [owner_shift_of_lt hp, hlt p hp]
  · rw [owner_shift_add, hadd]

lemma shift_consistent (h : Consistent Block.span L.owner) :
    Consistent Block.span (L.shift d f).owner := by
  intro p b hb
  obtain ⟨q, c, rfl, rfl, hc⟩ := owner_shift_eq_some hb
  refine ⟨add_mem_span_shift.2 (h.mem hc), fun p' hp' => ?_⟩
  obtain ⟨q', rfl⟩ := Nat.exists_eq_add_of_le' (le_of_mem_span_shift hp')
  exact owner_shift_add_iff.2 (h.eq_of_mem hc (add_mem_span_shift.1 hp'))

lemma assign_shift : assign Block.span (L.shift d f).owner (b.shift d) =
    (shift d f { L with owner := assign Block.span L.owner b }).owner := by
  refine (owner_shift_ext ?_ ?_).symm
  · intro p hp
    rw [assign_eq_none_iff]
    exact ⟨fun hmem => absurd (le_of_mem_span_shift hmem) (by omega), owner_shift_of_lt hp⟩
  · intro p
    dsimp only
    by_cases hmem : p ∈ b.span
    · rw [assign_of_mem (add_mem_span_shift.2 hmem), assign_of_mem hmem]
      rfl
    · rw [assign_of_notMem fun h => hmem (add_mem_span_shift.1 h), assign_of_notMem hmem,
        owner_shift_add]

lemma release_shift : release Block.span (L.shift d f).owner (b.shift d) =
    (shift d f { L with owner := release Block.span L.owner b }).owner := by
  refine (owner_shift_ext ?_ ?_).symm
  · intro p hp
    rw [release_eq_none_iff]
    exact .inr (owner_shift_of_lt hp)
  · intro p
    dsimp only
    by_cases hmem : p ∈ b.span
    · rw [release_of_mem (add_mem_span_shift.2 hmem), release_of_mem hmem]
      rfl
    · rw [release_of_notMem fun h => hmem (add_mem_span_shift.1 h), release_of_notMem hmem,
        owner_shift_add]

lemma update_lists_shift {l : List Nat} :
    (fun k => (update L.lists o l k).map (· + d * pageSize)) =
      update (L.shift d f).lists o (l.map (· + d * pageSize)) := by
  funext k
  by_cases hk : k = o
  · rw [hk, update_self, update_self]
  · rw [update_of_ne hk, update_of_ne hk, lists_shift]

/-! ### The operations commute with moving -/

lemma shift_insert : (L.insert b).shift d f = (L.shift d f).insert (b.shift d) := by
  rw [insert, insert, assign_shift, shift_order, addr_shift, lists_shift,
    ← List.map_cons (f := (· + d * pageSize)), ← update_lists_shift]
  rfl

lemma shift_remove : (L.remove b).shift d f = (L.shift d f).remove (b.shift d) := by
  have herase : ((L.lists b.order).erase b.addr).map (· + d * pageSize) =
      ((L.lists b.order).map (· + d * pageSize)).erase (b.addr + d * pageSize) :=
    List.map_erase (fun x y h => Nat.add_right_cancel h) _
  rw [remove, remove, release_shift, shift_order, addr_shift, lists_shift, ← herase,
    ← update_lists_shift]
  rfl

lemma shift_handOut : (L.handOut b).shift d f = (L.shift d f).handOut (b.shift d) := by
  rw [handOut, handOut, assign_shift]
  rfl

lemma shift_takeBack : (L.takeBack b).shift d f = (L.shift d f).takeBack (b.shift d) := by
  rw [takeBack, takeBack, release_shift]
  rfl

lemma shift_split (n : Nat) : ∀ {L : Layout},
    (L.split p target n).shift d f = (L.shift d f).split (p + d) target n := by
  induction n with
  | zero =>
    intro L
    rfl
  | succ n ih =>
    intro L
    rw [split, split, ih, shift_insert, shift_mk, add_right_comm]

lemma shift_take : (L.take p o target).shift d f = (L.shift d f).take (p + d) o target := by
  rw [take, take, shift_handOut, shift_split, shift_remove]
  rfl

lemma shift_allocFrom (n : Nat) : (L.shift d f).allocFrom target n =
    (L.allocFrom target n).map fun r => (r.1 + d, r.2.shift d f) := by
  induction n with
  | zero => rfl
  | succ n ih =>
    rw [allocFrom, allocFrom, lists_shift]
    cases hlist : L.lists (maxOrder - (n + 1)) with
    | nil => exact ih
    | cons x l =>
      have hdiv : (x + d * pageSize) / pageSize = x / pageSize + d :=
        Nat.add_mul_div_right x d (by decide)
      simp only [List.map_cons, Option.map_some, hdiv, shift_take]

lemma shift_alloc : (L.shift d f).alloc target =
    (L.alloc target).map fun r => (r.1 + d, r.2.shift d f) := by
  rw [alloc, alloc]
  split_ifs
  · rfl
  · exact shift_allocFrom _

section Moves

variable (hf : MovesPages d f)

include hf

lemma hasPage_shift : (f z).HasPage (p + d) ↔ z.HasPage p := by
  rw [Zone.HasPage, Zone.HasPage, hf.first, hf.totalPages]
  omega

lemma fitsIn_shift : (b.shift d).FitsIn (f z) ↔ b.FitsIn z := by
  have hsub : b.start + d - (z.first + d) = b.start - z.first := Nat.add_sub_add_right _ _ _
  constructor
  · rintro ⟨horder, hfirst, hstop, hal⟩
    rw [shift_start, hf.first] at *
    rw [shift_order] at *
    rw [hf.totalPages] at hstop
    rw [hsub] at hal
    exact ⟨horder, by omega, by omega, hal⟩
  · rintro ⟨horder, hfirst, hstop, hal⟩
    rw [← hsub, ← hf.first] at hal
    refine ⟨horder, ?_, ?_, hal⟩
    · rw [hf.first, shift_start]
      omega
    · rw [hf.first, hf.totalPages, shift_start, shift_order]
      omega

lemma shift_full (h : L.Full) : (L.shift d f).Full := by
  rintro p ⟨⟨y, hy, hp⟩, hnone⟩
  obtain ⟨z, hz, rfl⟩ := List.mem_map.1 hy
  have hle : d ≤ p := by
    have hfirst := hp.1
    rw [hf.first] at hfirst
    omega
  obtain ⟨q, rfl⟩ := Nat.exists_eq_add_of_le' hle
  rw [owner_shift_add, Option.map_eq_none_iff] at hnone
  exact h q ⟨⟨z, hz, (hasPage_shift hf).1 hp⟩, hnone⟩

lemma shift_isFree : (L.shift d f).isFree (f z) i o = L.isFree z i o := by
  have hpage : (f z).first + i = z.first + i + d := by
    rw [hf.first]
    omega
  rw [Bool.eq_iff_iff, isFree_eq_true_iff, isFree_eq_true_iff, hf.totalPages, hpage]
  refine and_congr_right fun _ => ?_
  exact owner_shift_add_iff (b := ⟨z.first + i, o, true⟩)

lemma shift_merge (n : Nat) : ∀ {L : Layout} {i o : Nat},
    merge (f z) n (L.shift d f) i o =
      ((merge z n L i o).1.shift d f, (merge z n L i o).2.1, (merge z n L i o).2.2) := by
  induction n with
  | zero =>
    intro L i o
    rfl
  | succ n ih =>
    intro L i o
    have hpage : (f z).first + (i ^^^ 1 <<< o) = z.first + (i ^^^ 1 <<< o) + d := by
      rw [hf.first]
      omega
    have hremove : (L.shift d f).remove ⟨(f z).first + (i ^^^ 1 <<< o), o, true⟩ =
        (L.remove ⟨z.first + (i ^^^ 1 <<< o), o, true⟩).shift d f := by
      rw [shift_remove, hpage]
      rfl
    rw [merge, merge, shift_isFree hf, hremove]
    split_ifs
    · exact ih
    · rfl

lemma shift_free (hp : z.first ≤ p) :
    (L.shift d f).free (f z) (p + d) o = (L.free z p o).shift d f := by
  have hindex : p + d - (f z).first = p - z.first := by
    rw [hf.first]
    omega
  have hback : (L.shift d f).takeBack ⟨p + d, o, false⟩ =
      (L.takeBack ⟨p, o, false⟩).shift d f := by
    rw [shift_takeBack]
    rfl
  rw [free, free, hindex, hback, shift_merge hf, shift_insert, shift_mk, hf.first]
  rw [add_right_comm]

end Moves

end Layout

end Mars.Pm
