import Mars.Aml.RoundTrip
import Mars.Aml.Total
import Mathlib.Data.List.Basic
import Mathlib.Data.List.Forall2

/-!
# Resource descriptors

A small descriptor of a `_CRS` has its type and its length in the tag, a large one has its length in
the two bytes after the tag. `CrsIter` and `into_rss` give back what was encoded, and the chunks of
other bytes are still what the bytes start with.
-/

namespace Mars.Aml

open Hardware

/-! ### The format -/

/-- A descriptor, with the fields of those that are decoded. -/
inductive Descriptor where
  | irq (mask : UInt16) (info : Option UInt8)
  | memory32 (info : UInt8) (min max alignment len : UInt32)
  | fixedMemory32 (info : UInt8) (base len : UInt32)
  | dwordMemory (flags typeFlags : UInt8) (granularity min max translation len : UInt32)
      (source : List UInt8) (length_lt : 23 + source.length < 2 ^ 16)
  | qwordMemory (flags typeFlags : UInt8) (granularity min max translation len : UInt64)
      (source : List UInt8) (length_lt : 43 + source.length < 2 ^ 16)
  | extendedIrq (flags : UInt8) (irqs : List UInt32) (source : List UInt8)
      (count_lt : irqs.length < 256) (length_lt : 2 + 4 * irqs.length + source.length < 2 ^ 16)
  /-- Any other small descriptor but the end tag. -/
  | small (type : Fin 16) (data : List UInt8) (length_lt : data.length < 8)
      (other : type ≠ 4 ∧ ¬ (type = 15 ∧ data.length = 1))
  /-- Any other large descriptor; an address space that is not memory has another resource
  type. -/
  | large (type : Fin 128) (data : List UInt8) (length_lt : data.length < 2 ^ 16)
      (other : type ∉ [5, 6, 7, 9, 10] ∨ type ∈ [7, 10] ∧ data.head? ≠ some 0)

def smallItem (type : Nat) (data : List UInt8) : List UInt8 :=
  UInt8.ofNat (8 * type + data.length) :: data

def largeItem (type : Nat) (data : List UInt8) : List UInt8 :=
  UInt8.ofNat (128 + type) :: (leBytes 2 data.length ++ data)

def le32 (v : UInt32) : List UInt8 := leBytes 4 v.toNat

def le64 (v : UInt64) : List UInt8 := leBytes 8 v.toNat

namespace Descriptor

def encode : Descriptor → List UInt8
  | irq mask info => smallItem 4 (leBytes 2 mask.toNat ++ info.toList)
  | memory32 info min max alignment len =>
    largeItem 5 (info :: (le32 min ++ le32 max ++ le32 alignment ++ le32 len))
  | fixedMemory32 info base len => largeItem 6 (info :: (le32 base ++ le32 len))
  | dwordMemory flags typeFlags granularity min max translation len source _ =>
    largeItem 7 (0 :: flags :: typeFlags :: (le32 granularity ++ le32 min ++ le32 max ++
      le32 translation ++ le32 len ++ source))
  | qwordMemory flags typeFlags granularity min max translation len source _ =>
    largeItem 10 (0 :: flags :: typeFlags :: (le64 granularity ++ le64 min ++ le64 max ++
      le64 translation ++ le64 len ++ source))
  | extendedIrq flags irqs source _ _ =>
    largeItem 9 (flags :: UInt8.ofNat irqs.length :: (irqs.flatMap le32 ++ source))
  | small type data _ _ => smallItem type data
  | large type data _ _ => largeItem type data

end Descriptor

/-- A resource that a descriptor stands for. -/
inductive Encoded where
  | memory (base len : Nat)
  | irq (n : Nat)

/-- The resource is the encoded one; the range of a memory resource is `[base, base + len)`. -/
def Encoded.Is : Resource → Encoded → Prop
  | .mmio start stop, memory base len => start.toNat = base ∧ stop.toNat = base + len
  | .irq n, irq m                     => n.toNat = m
  | _, _                              => False

/-- A range that is empty does not count. -/
def memoryOf (base len : Nat) : List Encoded := if 0 < len then [.memory base len] else []

namespace Descriptor

def encoded : Descriptor → List Encoded
  | irq mask _                         =>
    ((List.range 16).filter fun i => mask.toNat.testBit i).map .irq
  | memory32 _ min _ _ len             => memoryOf min.toNat len.toNat
  | fixedMemory32 _ base len           => memoryOf base.toNat len.toNat
  | dwordMemory _ _ _ min _ _ len _ _  => memoryOf min.toNat len.toNat
  | qwordMemory _ _ _ min _ _ len _ _  => memoryOf min.toNat len.toNat
  | extendedIrq _ irqs _ _ _           => irqs.map fun n => .irq n.toNat
  | small _ _ _ _ | large _ _ _ _      => []

/-- The end of the range is an address. -/
def Fits : Descriptor → Prop
  | qwordMemory _ _ _ min _ _ len _ _ => min.toNat + len.toNat < 2 ^ 64
  | _                                 => True

end Descriptor

/-! ### Chunks -/

variable {data : List UInt8} {tag : UInt8}

def crsChunks : Nat → List UInt8 → Option (List (List UInt8))
  | 0, _ => none
  | fuel + 1, bytes =>
    match crsNext bytes with
    | none               => some []
    | some (chunk, rest) => (crsChunks fuel rest).map (chunk :: ·)

lemma splitChunk_append (chunk rest : List UInt8) {n : Nat} (hn : n = chunk.length) :
    splitChunk (chunk ++ rest) n = some (chunk, rest) := by
  subst hn
  rw [splitChunk, if_pos (by simp), List.take_left, List.drop_left]

lemma smallTag : ∀ (t : Fin 16) (n : Fin 8), ¬ (t = 15 ∧ (n : Nat) = 1) →
    let tag := UInt8.ofNat (8 * t + n)
    tag ≠ 0x79 ∧ tag &&& 0x80 = 0 ∧ (tag &&& 0x07).toNat = n ∧
      ((tag >>> 3) &&& 0x0F = 0x04 ↔ t = 4) := by
  decide

lemma largeTag : ∀ t : Fin 128,
    let tag := UInt8.ofNat (128 + t)
    tag ≠ 0x79 ∧ tag &&& 0x80 ≠ 0 ∧ tag &&& 0x7F = UInt8.ofNat t := by
  decide

lemma crsNext_small (htag : tag ≠ 0x79) (hsmall : tag &&& 0x80 = 0) (rest : List UInt8) :
    crsNext (tag :: rest) = splitChunk (tag :: rest) (1 + (tag &&& 0x07).toNat) := by
  unfold crsNext
  dsimp only
  rw [if_neg htag, if_pos hsmall]

lemma crsNext_large (htag : tag ≠ 0x79) (hlarge : tag &&& 0x80 ≠ 0) (b₀ b₁ : UInt8)
    (rest : List UInt8) :
    crsNext (tag :: b₀ :: b₁ :: rest) =
      splitChunk (tag :: b₀ :: b₁ :: rest) (3 + fromLeBytes [b₀, b₁]) := by
  unfold crsNext
  dsimp only
  rw [if_neg htag, if_neg hlarge]

lemma crsNext_smallItem {t : Fin 16} (hlen : data.length < 8) (hend : ¬ (t = 15 ∧ data.length = 1))
    (rest : List UInt8) : crsNext (smallItem t data ++ rest) = some (smallItem t data, rest) := by
  obtain ⟨htag, hsmall, hn, -⟩ := smallTag t ⟨data.length, hlen⟩ hend
  rw [smallItem, List.cons_append, crsNext_small htag hsmall, hn, ← List.cons_append]
  apply splitChunk_append
  rw [List.length_cons, Nat.add_comm]

lemma crsNext_largeItem (t : Fin 128) (hlen : data.length < 2 ^ 16) (rest : List UInt8) :
    crsNext (largeItem t data ++ rest) = some (largeItem t data, rest) := by
  obtain ⟨htag, hlarge, -⟩ := largeTag t
  have hle : fromLeBytes (leBytes 2 data.length) = data.length := by
    rw [fromLeBytes_leBytes]
    exact Nat.mod_eq_of_lt hlen
  simp only [largeItem, leBytes, List.cons_append, List.nil_append] at hle ⊢
  rw [crsNext_large htag hlarge, hle]
  simp only [← List.cons_append]
  apply splitChunk_append
  simp only [List.length_cons]
  rw [Nat.add_comm]

@[simp] lemma length_le32 (v : UInt32) : (le32 v).length = 4 := length_leBytes 4 _

@[simp] lemma length_le64 (v : UInt64) : (le64 v).length = 8 := length_leBytes 8 _

lemma length_flatMap_le32 (irqs : List UInt32) : (irqs.flatMap le32).length = 4 * irqs.length := by
  induction irqs with
  | nil => rfl
  | cons n irqs ih =>
    rw [List.flatMap_cons, List.length_append, ih, length_le32, List.length_cons, Nat.mul_succ,
      Nat.add_comm]

lemma crsNext_encode (d : Descriptor) (rest : List UInt8) :
    crsNext (d.encode ++ rest) = some (d.encode, rest) := by
  cases d with
  | irq mask info =>
    refine crsNext_smallItem (t := 4) ?_ (by simp) rest
    cases info <;> simp
  | memory32 info min max alignment len => exact crsNext_largeItem 5 (by simp) rest
  | fixedMemory32 info base len => exact crsNext_largeItem 6 (by simp) rest
  | dwordMemory flags typeFlags granularity min max translation len source hlen =>
    refine crsNext_largeItem 7 ?_ rest
    simp only [List.length_cons, List.length_append, length_le32]
    omega
  | qwordMemory flags typeFlags granularity min max translation len source hlen =>
    refine crsNext_largeItem 10 ?_ rest
    simp only [List.length_cons, List.length_append, length_le64]
    omega
  | extendedIrq flags irqs source hcount hlen =>
    refine crsNext_largeItem 9 ?_ rest
    simp only [List.length_cons, List.length_append, length_flatMap_le32]
    omega
  | small type data hlen hother => exact crsNext_smallItem hlen hother.2 rest
  | large type data hlen hother => exact crsNext_largeItem type hlen rest

lemma encode_length_pos (d : Descriptor) : 0 < d.encode.length := by
  cases d <;> exact Nat.succ_pos _

/-- The chunks are the descriptors before the end tag. -/
lemma crsChunks_encode {fuel : Nat} (ds : List Descriptor) (trailing : List UInt8)
    (hfuel : (ds.flatMap Descriptor.encode).length < fuel) :
    crsChunks fuel (ds.flatMap Descriptor.encode ++ 0x79 :: trailing) =
      some (ds.map Descriptor.encode) := by
  induction ds generalizing fuel with
  | nil =>
    obtain ⟨fuel, rfl⟩ := Nat.exists_eq_succ_of_ne_zero (Nat.ne_of_gt hfuel)
    rfl
  | cons d ds ih =>
    obtain ⟨fuel, rfl⟩ := Nat.exists_eq_succ_of_ne_zero (Nat.ne_of_gt (Nat.zero_lt_of_lt hfuel))
    have hpos := encode_length_pos d
    rw [List.flatMap_cons, List.length_append] at hfuel
    rw [List.flatMap_cons, List.append_assoc, crsChunks, crsNext_encode]
    dsimp only
    rw [ih (by omega)]
    rfl

/-- For all bytes, the chunks are not empty and the bytes start with them. -/
lemma exists_crsChunks {fuel : Nat} (bytes : List UInt8) (hfuel : bytes.length < fuel) :
    ∃ chunks, crsChunks fuel bytes = some chunks ∧ (∀ c ∈ chunks, c ≠ []) ∧
      chunks.flatten <+: bytes := by
  induction fuel generalizing bytes with
  | zero => exact absurd hfuel (Nat.not_lt_zero _)
  | succ fuel ih =>
    cases hnext : crsNext bytes with
    | none => exact ⟨[], by simp only [crsChunks, hnext], by simp, List.nil_prefix⟩
    | some next =>
      obtain ⟨chunk, rest⟩ := next
      obtain ⟨hne, hlt, rfl⟩ := crsNext_eq_some hnext
      obtain ⟨chunks, hchunks, hnonempty, hprefix⟩ := ih rest (by omega)
      refine ⟨chunk :: chunks, by simp only [crsChunks, hnext, hchunks, Option.map_some], ?_, ?_⟩
      · intro c hc
        rcases List.mem_cons.mp hc with rfl | hc
        · exact hne
        · exact hnonempty c hc
      · rw [List.flatten_cons]
        exact (List.prefix_append_right_inj chunk).mpr hprefix

/-! ### Decoding -/

def memoryFields (type : UInt8) (data : List UInt8) : Option (Nat × Nat) :=
  if type = 0x05 ∧ 17 ≤ data.length then some (leAt data 1 4, leAt data 13 4)
  else if type = 0x06 ∧ 9 ≤ data.length then some (leAt data 1 4, leAt data 5 4)
  else if type = 0x07 ∧ 23 ≤ data.length ∧ data.head? = some 0 then
    some (leAt data 7 4, leAt data 19 4)
  else if type = 0x0A ∧ 43 ≤ data.length ∧ data.head? = some 0 then
    some (leAt data 11 8, leAt data 35 8)
  else none

def extendedIrqs (data : List UInt8) : List Resource :=
  (List.range (leAt data 1 1)).filterMap fun i =>
    (getSlice data (2 + i * 4) (2 + i * 4 + 4)).map fun b => .irq (.ofNat (fromLeBytes b))

lemma intoRss_small (hsmall : tag &&& 0x80 = 0) (data : List UInt8) :
    intoRss (tag :: data) = some
      (if (tag >>> 3) &&& 0x0F = 0x04 ∧ 2 ≤ data.length then
        ((List.range 16).filter fun i => (leAt data 0 2).testBit i).map fun i => .irq (.ofNat i)
      else []) := by
  simp [intoRss, hsmall]

lemma intoRss_smallItem {t : Fin 16} (hlen : data.length < 8) (hend : ¬ (t = 15 ∧ data.length = 1))
    : intoRss (smallItem t data) = some
      (if t = 4 ∧ 2 ≤ data.length then
        ((List.range 16).filter fun i => (leAt data 0 2).testBit i).map fun i => .irq (.ofNat i)
      else []) := by
  obtain ⟨-, hsmall, -, htype⟩ := smallTag t ⟨data.length, hlen⟩ hend
  rw [smallItem, intoRss_small hsmall]
  simp only [htype]

lemma intoRss_large (hlarge : tag &&& 0x80 ≠ 0) (rest : List UInt8) :
    intoRss (tag :: rest) = some
      (match memoryFields (tag &&& 0x7F) (rest.drop 2) with
      | some (base, len) => mmioRange base len
      | none             =>
        if tag &&& 0x7F = 0x09 ∧ 2 ≤ (rest.drop 2).length then extendedIrqs (rest.drop 2)
        else []) := by
  have hbool := bne_iff_ne.mpr hlarge
  simp only [intoRss, hbool, if_true, Bool.true_eq_false, false_and, if_false, true_and,
    memoryFields]
  split_ifs <;> rfl

lemma getSlice_of_eq {pre mid post : List UInt8} {k w : Nat} (h : data = pre ++ (mid ++ post))
    (hk : pre.length = k) (hw : mid.length = w) : getSlice data k (k + w) = some mid := by
  subst hk hw h
  rw [getSlice, if_pos, Nat.add_sub_cancel_left, List.drop_left, List.take_left]
  simp

lemma fromLeBytes_le32 (v : UInt32) : fromLeBytes (le32 v) = v.toNat := by
  rw [le32, fromLeBytes_leBytes]
  exact Nat.mod_eq_of_lt v.toNat_lt

lemma fromLeBytes_le64 (v : UInt64) : fromLeBytes (le64 v) = v.toNat := by
  rw [le64, fromLeBytes_leBytes]
  exact Nat.mod_eq_of_lt v.toNat_lt

lemma filterMap_range_getElem? {α β : Type} (l : List α) (f : α → β) :
    (List.range l.length).filterMap (fun i => l[i]?.map f) = l.map f := by
  induction l with
  | nil => rfl
  | cons a l ih =>
    rw [List.length_cons, List.range_succ_eq_map, List.filterMap_cons, List.filterMap_map]
    exact congrArg (f a :: ·) ih

/-- The interrupts are four bytes apart, after the flags and their number. -/
lemma extendedIrqs_encode (flags : UInt8) {irqs : List UInt32} (source : List UInt8)
    (hcount : irqs.length < 256) :
    extendedIrqs (flags :: UInt8.ofNat irqs.length :: (irqs.flatMap le32 ++ source)) =
      irqs.map .irq := by
  have hlen : leAt (flags :: UInt8.ofNat irqs.length :: (irqs.flatMap le32 ++ source)) 1 1 =
      irqs.length := by
    exact UInt8.toNat_ofNat_of_lt' hcount
  rw [extendedIrqs, hlen, ← filterMap_range_getElem?]
  apply List.filterMap_congr
  intro i hi
  have hi := List.mem_range.mp hi
  have hsplit : irqs.flatMap le32 = (irqs.take i).flatMap le32 ++
      (le32 irqs[i] ++ (irqs.drop (i + 1)).flatMap le32) := by
    rw [← List.flatMap_cons, List.getElem_cons_drop, ← List.flatMap_append, List.take_append_drop]
  have hpre : (flags :: UInt8.ofNat irqs.length :: (irqs.take i).flatMap le32).length =
      2 + i * 4 := by
    simp only [List.length_cons, length_flatMap_le32, List.length_take]
    omega
  have hslice : getSlice (flags :: UInt8.ofNat irqs.length :: (irqs.flatMap le32 ++ source))
      (2 + i * 4) (2 + i * 4 + 4) = some (le32 irqs[i]) := by
    have hdata : flags :: UInt8.ofNat irqs.length :: (irqs.flatMap le32 ++ source) =
        (flags :: UInt8.ofNat irqs.length :: (irqs.take i).flatMap le32) ++
          (le32 irqs[i] ++ ((irqs.drop (i + 1)).flatMap le32 ++ source)) := by
      rw [hsplit]
      simp only [List.cons_append, List.append_assoc]
    exact getSlice_of_eq hdata hpre (length_le32 _)
  rw [hslice, List.getElem?_eq_getElem hi, Option.map_some, Option.map_some, fromLeBytes_le32,
    UInt32.ofNat_toNat]

lemma mmioRange_is {base len : Nat} (h : base + len < 2 ^ 64) :
    List.Forall₂ Encoded.Is (mmioRange base len) (memoryOf base len) := by
  rw [mmioRange, memoryOf]
  split_ifs with hlen
  · refine .cons ⟨?_, ?_⟩ .nil
    · exact UInt64.toNat_ofNat_of_lt' (Nat.lt_of_le_of_lt (Nat.le_add_right _ _) h)
    · rw [← UInt64.ofNat_add]
      exact UInt64.toNat_ofNat_of_lt' h
  · exact .nil

lemma drop_two_leBytes (n : Nat) (data : List UInt8) : (leBytes 2 n ++ data).drop 2 = data := rfl

lemma intoRss_memory {t : Fin 128} {base len : Nat}
    (h : memoryFields (UInt8.ofNat t) data = some (base, len)) :
    intoRss (largeItem t data) = some (mmioRange base len) := by
  obtain ⟨-, hlarge, htype⟩ := largeTag t
  rw [largeItem, intoRss_large hlarge, drop_two_leBytes, htype, h]

/-- The types that are decoded are told apart from the others. -/
lemma other_type : ∀ t : Fin 128, t ∉ [5, 6, 7, 9, 10] →
    UInt8.ofNat t ≠ 0x05 ∧ UInt8.ofNat t ≠ 0x06 ∧ UInt8.ofNat t ≠ 0x07 ∧ UInt8.ofNat t ≠ 0x09 ∧
      UInt8.ofNat t ≠ 0x0A := by
  decide

lemma address_type : ∀ t : Fin 128, t ∈ [7, 10] →
    UInt8.ofNat t ≠ 0x05 ∧ UInt8.ofNat t ≠ 0x06 ∧ UInt8.ofNat t ≠ 0x09 := by
  decide

lemma intoRss_other {t : Fin 128} (h : t ∉ [5, 6, 7, 9, 10] ∨ t ∈ [7, 10] ∧ data.head? ≠ some 0) :
    intoRss (largeItem t data) = some [] := by
  obtain ⟨-, hlarge, htype⟩ := largeTag t
  have hnone : memoryFields (UInt8.ofNat t) data = none ∧ UInt8.ofNat t ≠ 0x09 := by
    rcases h with h | ⟨h, hhead⟩
    · obtain ⟨h₅, h₆, h₇, h₉, h₁₀⟩ := other_type t h
      simp [memoryFields, h₅, h₆, h₇, h₉, h₁₀]
    · obtain ⟨h₅, h₆, h₉⟩ := address_type t h
      simp [memoryFields, h₅, h₆, h₉, hhead]
  rw [largeItem, intoRss_large hlarge, drop_two_leBytes, htype, hnone.1, if_neg]
  exact fun h9 => hnone.2 h9.1

lemma intoRss_extended (h : 2 ≤ data.length) :
    intoRss (largeItem 9 data) = some (extendedIrqs data) := by
  have hlarge : UInt8.ofNat (128 + 9) &&& 0x80 ≠ 0 := by decide
  have htype : UInt8.ofNat (128 + 9) &&& 0x7F = 0x09 := by decide
  have hnone : memoryFields 0x09 data = none := by simp [memoryFields]
  rw [largeItem, intoRss_large hlarge, drop_two_leBytes, htype, hnone]
  exact congrArg some (if_pos ⟨rfl, h⟩)

lemma irqs_is (l : List Nat) (h : ∀ i ∈ l, i < 16) :
    List.Forall₂ Encoded.Is (l.map fun i => .irq (.ofNat i)) (l.map .irq) := by
  rw [List.forall₂_map_left_iff, List.forall₂_map_right_iff, List.forall₂_same]
  intro i hi
  exact UInt32.toNat_ofNat_of_lt' (Nat.lt_trans (h i hi) (by decide))

lemma add_lt_of_u32 (base len : UInt32) : base.toNat + len.toNat < 2 ^ 64 := by
  have hbase := base.toNat_lt
  have hlen := len.toNat_lt
  omega

lemma intoRss_encode {d : Descriptor} (hd : d.Fits) :
    ∃ rss, intoRss d.encode = some rss ∧ List.Forall₂ Encoded.Is rss d.encoded := by
  cases d with
  | irq mask info =>
    have hmask : leAt (leBytes 2 mask.toNat ++ info.toList) 0 2 = mask.toNat := by
      rw [show leAt (leBytes 2 mask.toNat ++ info.toList) 0 2 =
        fromLeBytes (leBytes 2 mask.toNat) from rfl, fromLeBytes_leBytes]
      exact Nat.mod_eq_of_lt mask.toNat_lt
    refine ⟨_, intoRss_smallItem (t := 4) ?_ (by simp), ?_⟩
    · cases info <;> simp
    · rw [if_pos ⟨rfl, by simp⟩, hmask]
      exact irqs_is _ fun i hi => List.mem_range.mp (List.mem_of_mem_filter hi)
  | memory32 info min max alignment len =>
    refine ⟨_, intoRss_memory (t := 5) ?_, mmioRange_is (add_lt_of_u32 min len)⟩
    rw [memoryFields, if_pos ⟨rfl, by simp⟩, ← fromLeBytes_le32 min, ← fromLeBytes_le32 len]
    rfl
  | fixedMemory32 info base len =>
    refine ⟨_, intoRss_memory (t := 6) ?_, mmioRange_is (add_lt_of_u32 base len)⟩
    rw [memoryFields, if_neg (fun h => absurd h.1 (by decide)), if_pos ⟨rfl, by simp⟩,
      ← fromLeBytes_le32 base, ← fromLeBytes_le32 len]
    rfl
  | dwordMemory flags typeFlags granularity min max translation len source hlen =>
    refine ⟨_, intoRss_memory (t := 7) ?_, mmioRange_is (add_lt_of_u32 min len)⟩
    have hdata : 23 ≤ (0 :: flags :: typeFlags :: (le32 granularity ++ le32 min ++ le32 max ++
        le32 translation ++ le32 len ++ source)).length := by
      simp only [List.length_cons, List.length_append, length_le32]
      omega
    rw [memoryFields, if_neg (fun h => absurd h.1 (by decide)),
      if_neg (fun h => absurd h.1 (by decide)), if_pos ⟨rfl, hdata, rfl⟩,
      ← fromLeBytes_le32 min, ← fromLeBytes_le32 len]
    rfl
  | qwordMemory flags typeFlags granularity min max translation len source hlen =>
    refine ⟨_, intoRss_memory (t := 10) ?_, mmioRange_is hd⟩
    have hdata : 43 ≤ (0 :: flags :: typeFlags :: (le64 granularity ++ le64 min ++ le64 max ++
        le64 translation ++ le64 len ++ source)).length := by
      simp only [List.length_cons, List.length_append, length_le64]
      omega
    rw [memoryFields, if_neg (fun h => absurd h.1 (by decide)),
      if_neg (fun h => absurd h.1 (by decide)), if_neg (fun h => absurd h.1 (by decide)),
      if_pos ⟨rfl, hdata, rfl⟩, ← fromLeBytes_le64 min, ← fromLeBytes_le64 len]
    rfl
  | extendedIrq flags irqs source hcount hlen =>
    refine ⟨irqs.map .irq, ?_, ?_⟩
    · rw [Descriptor.encode, intoRss_extended (by simp), extendedIrqs_encode flags source hcount]
    · rw [Descriptor.encoded, List.forall₂_map_left_iff, List.forall₂_map_right_iff,
        List.forall₂_same]
      exact fun n _ => rfl
  | small type data hlen hother =>
    refine ⟨[], ?_, .nil⟩
    rw [Descriptor.encode, intoRss_smallItem hlen hother.2, if_neg fun h => hother.1 h.1]
  | large type data hlen hother => exact ⟨[], intoRss_other hother, .nil⟩

/-! ### The whole buffer -/

lemma crsResources_eq (fuel : Nat) (bytes : List UInt8) :
    crsResources fuel bytes =
      (crsChunks fuel bytes).bind fun chunks => (chunks.mapM intoRss).map List.flatten := by
  induction fuel generalizing bytes with
  | zero => rfl
  | succ fuel ih =>
    rw [crsResources, crsChunks]
    cases crsNext bytes with
    | none => rfl
    | some next =>
      dsimp only
      rw [ih]
      cases crsChunks fuel next.2 with
      | none => cases intoRss next.1 <;> rfl
      | some chunks =>
        rw [Option.map_some, Option.bind_some, Option.bind_some, List.mapM_cons]
        cases intoRss next.1 <;> cases chunks.mapM intoRss <;> rfl

lemma mapM_intoRss_encode {ds : List Descriptor} (h : ∀ d ∈ ds, d.Fits) :
    ∃ rss, (ds.map Descriptor.encode).mapM intoRss = some rss ∧
      List.Forall₂ Encoded.Is rss.flatten (ds.flatMap Descriptor.encoded) := by
  induction ds with
  | nil => exact ⟨[], rfl, .nil⟩
  | cons d ds ih =>
    obtain ⟨rs, hrs, his⟩ := intoRss_encode (h d (.head _))
    obtain ⟨rss, hrss, hrest⟩ := ih fun d' hd' => h d' (.tail d hd')
    refine ⟨rs :: rss, ?_, ?_⟩
    · rw [List.map_cons, List.mapM_cons, hrs, hrss]
      rfl
    · rw [List.flatten_cons, List.flatMap_cons]
      exact List.rel_append his hrest

/-- Encoded descriptors come back as chunks and as resources, and whatever the bytes are, they
start with the chunks. -/
theorem crs_decode (ds : List Descriptor) (trailing bytes : List UInt8) :
    let crs := ds.flatMap Descriptor.encode ++ 0x79 :: trailing
    crsChunks (crs.length + 1) crs = some (ds.map Descriptor.encode) ∧
      ((∀ d ∈ ds, d.Fits) → ∃ rss, crsResources (crs.length + 1) crs = some rss ∧
        List.Forall₂ Encoded.Is rss (ds.flatMap Descriptor.encoded)) ∧
      ∃ chunks, crsChunks (bytes.length + 1) bytes = some chunks ∧ (∀ c ∈ chunks, c ≠ []) ∧
        chunks.flatten <+: bytes := by
  intro crs
  have hfuel : (ds.flatMap Descriptor.encode).length < crs.length + 1 := by
    simp only [crs, List.length_append]
    omega
  have hchunks := crsChunks_encode ds trailing hfuel
  refine ⟨hchunks, ?_, exists_crsChunks bytes (Nat.lt_succ_self _)⟩
  intro hfits
  obtain ⟨rss, hrss, his⟩ := mapM_intoRss_encode hfits
  refine ⟨rss.flatten, ?_, his⟩
  rw [crsResources_eq, hchunks, Option.bind_some, hrss]
  rfl

/-- An address space of the upper half of the memory, and two interrupts. -/
theorem crs_decode_pair :
    let ds : List Descriptor := [.qwordMemory 0 0 0 0x8000000000000000 0 0 0x10000 [] (by decide),
      .extendedIrq 1 [40, 41] [] (by decide) (by decide)]
    let crs := ds.flatMap Descriptor.encode ++ 0x79 :: [0x00]
    (∀ d ∈ ds, d.Fits) ∧ ∃ rss, crsResources (crs.length + 1) crs = some rss ∧
      List.Forall₂ Encoded.Is rss [.memory 0x8000000000000000 0x10000, .irq 40, .irq 41] := by
  intro ds crs
  have hfits : ∀ d ∈ ds, d.Fits := by
    simp [ds, Descriptor.Fits]
  obtain ⟨rss, hrss, his⟩ := (crs_decode ds [0x00] []).2.1 hfits
  exact ⟨hfits, rss, hrss, his⟩

end Mars.Aml
