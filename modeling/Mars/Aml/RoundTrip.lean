import Mars.Aml.Grammar

/-!
# Parsing an encoded term list gives the terms back

Each production of the grammar gets one `Reads` lemma; the data objects and the terms are then
inductions over the syntax tree, and a package is the same argument six times, stated once as
`reads_pkg`.
-/

namespace Mars.Aml

open Reader Reads Reader PkgWidth ByteCursor

variable {p : ByteCursor}

/-! ### Bytes and integers -/

lemma reads_readU8 (b : UInt8) : Reads p readU8 [b] b := by
  rintro ⟨-, r, hr⟩
  have hb : p.bytes[p.cursor]? = some b := by
    have h := congrArg (fun l => l[0]?) hr
    simpa [rest, List.getElem?_drop] using h.symm
  simp [readU8, hb]

lemma reads_byte {α : Type} {f : UInt8 → Reader α} {b : UInt8} {e : List UInt8} {v : α}
    (h : Reads (p.advance 1) (f b) e v) : Reads p (readU8 >>= f) (b :: e) v :=
  bind (reads_readU8 b) h

lemma reads_takeBytes (e : List UInt8) : Reads p (takeBytes e.length) e e := by
  intro h
  simp only [takeBytes, if_pos h.length_le, h.slice_eq]

lemma fromLeBytes_leBytes (k n : Nat) : fromLeBytes (leBytes k n) = n % 256 ^ k := by
  induction k generalizing n with
  | zero => simp [leBytes, fromLeBytes, Nat.mod_one]
  | succ k ih =>
    have hb : (UInt8.ofNat n).toNat = n % 256 := UInt8.toNat_ofNat'
    rw [leBytes, fromLeBytes, ih, hb, Nat.pow_succ', Nat.mod_mul]

@[simp] lemma length_leBytes (k n : Nat) : (leBytes k n).length = k := by
  induction k generalizing n with
  | zero => rfl
  | succ k ih => simp [leBytes, ih]

/-- An integer of `k` bytes is read back, for every width up to eight. -/
lemma reads_readLe {k n : Nat} (hn : n < 256 ^ k) :
    Reads p (readLe k) (leBytes k n) (UInt64.ofNat n) := by
  have h := reads_takeBytes (p := p) (leBytes k n)
  rw [length_leBytes] at h
  have h' := bind_pure (f := fun b => UInt64.ofNat (fromLeBytes b)) h
  simp only [fromLeBytes_leBytes, Nat.mod_eq_of_lt hn] at h'
  exact h'

/-! ### Package lengths -/

/-- The loop invariant of `read_pkg_length`: the bytes read so far are below the next shift. -/
lemma reads_readPkgLengthBytes (k i m acc : Nat) (hacc : acc < 2 ^ (4 + i * 8)) (hm : m < 256 ^ k) :
    Reads p (readPkgLengthBytes k i acc) (leBytes k m) (acc + 2 ^ (4 + i * 8) * m) := by
  induction k generalizing i m acc p with
  | zero =>
    have : m = 0 := by simpa using hm
    subst this
    exact pure acc
  | succ k ih =>
    have hb : (UInt8.ofNat m).toNat = m % 256 := UInt8.toNat_ofNat'
    have hor : acc ||| (m % 256) <<< (4 + i * 8) = acc + 2 ^ (4 + i * 8) * (m % 256) := by
      rw [Nat.shiftLeft_eq, Nat.or_comm, Nat.mul_comm, ← Nat.two_pow_add_eq_or_of_lt hacc]
      exact Nat.add_comm _ _
    have hpow : 2 ^ (4 + (i + 1) * 8) = 2 ^ (4 + i * 8) * 256 := by
      rw [show 4 + (i + 1) * 8 = (4 + i * 8) + 8 by omega, Nat.pow_add]
    have hdiv : m / 256 < 256 ^ k := by
      omega
    have hlt : acc + 2 ^ (4 + i * 8) * (m % 256) < 2 ^ (4 + (i + 1) * 8) := by
      have : 2 ^ (4 + i * 8) * (m % 256) ≤ 2 ^ (4 + i * 8) * 255 :=
        Nat.mul_le_mul_left _ (by omega)
      omega
    have hval : acc + 2 ^ (4 + i * 8) * (m % 256) + 2 ^ (4 + (i + 1) * 8) * (m / 256)
        = acc + 2 ^ (4 + i * 8) * m := by
      conv_rhs => rw [← Nat.mod_add_div m 256]
      rw [hpow, Nat.mul_add, Nat.mul_assoc, Nat.add_assoc]
    have hstep := ih (i + 1) (m / 256) _ hlt hdiv (p := p.advance 1)
    rw [hval] at hstep
    refine bind (reads_readU8 (UInt8.ofNat m)) ?_
    rw [hb, hor]
    exact hstep

/-- Decoding of the lead byte of a package length of `e` following bytes. -/
lemma leadByte_decode {e t : Nat} (he : e < 4) :
    (UInt8.ofNat (64 * e + t % 16) >>> 6).toNat = e ∧
      (UInt8.ofNat (64 * e + t % 16) &&& 0x0F).toNat = t % 16 := by
  have hb : (UInt8.ofNat (64 * e + t % 16)).toNat = 64 * e + t % 16 := by
    rw [UInt8.toNat_ofNat', Nat.mod_eq_of_lt]
    omega
  constructor
  · rw [UInt8.toNat_shiftRight, hb, Nat.shiftRight_eq_div_pow]
    show (64 * e + t % 16) / 2 ^ 6 = e
    omega
  · rw [UInt8.toNat_and, hb]
    show (64 * e + t % 16) &&& 2 ^ 4 - 1 = t % 16
    rw [Nat.and_two_pow_sub_one_eq_mod]
    omega

lemma reads_pkgLength_wide {e t : Nat} (he : e < 4) (he0 : e ≠ 0) (ht : t < 2 ^ (4 + 8 * e)) :
    Reads p readPkgLength (UInt8.ofNat (64 * e + t % 16) :: leBytes e (t / 16)) t := by
  obtain ⟨hcount, hlow⟩ := leadByte_decode (t := t) he
  have hdiv : t / 16 < 256 ^ e := by
    rw [Nat.pow_add, Nat.pow_mul] at ht
    exact Nat.div_lt_of_lt_mul ht
  have hloop := reads_readPkgLengthBytes (p := p.advance 1) e 0 (t / 16) (t % 16)
    (by simp only [Nat.zero_mul, Nat.add_zero]; omega) hdiv
  have hval : t % 16 + 2 ^ (4 + 0 * 8) * (t / 16) = t := by
    omega
  rw [hval] at hloop
  refine bind (reads_readU8 _) ?_
  simp only [hcount, hlow, he0, if_false]
  exact hloop

/-- A legal package length is read back as the length it encodes. -/
lemma reads_readPkgLength {w : PkgWidth} {n : Nat} (hw : w.Legal n) :
    Reads p readPkgLength (w.encodeLength n) (w.total n) := by
  cases w with
  | w0 =>
    have ht : w0.total n < 64 := hw
    have hb : (UInt8.ofNat (w0.total n)).toNat = w0.total n := by
      rw [UInt8.toNat_ofNat', Nat.mod_eq_of_lt]
      omega
    have hcount : (UInt8.ofNat (w0.total n) >>> 6).toNat = 0 := by
      rw [UInt8.toNat_shiftRight, hb, Nat.shiftRight_eq_div_pow]
      exact Nat.div_eq_of_lt ht
    have hlow : (UInt8.ofNat (w0.total n) &&& 0x3F).toNat = w0.total n := by
      rw [UInt8.toNat_and, hb]
      show w0.total n &&& 2 ^ 6 - 1 = _
      rw [Nat.and_two_pow_sub_one_eq_mod, Nat.mod_eq_of_lt ht]
    have h := bind (p := p) (f := fun lead : UInt8 =>
      if (lead >>> 6).toNat = 0 then return (lead &&& 0x3F).toNat
      else readPkgLengthBytes (lead >>> 6).toNat 0 (lead &&& 0x0F).toNat)
      (reads_readU8 (UInt8.ofNat (w0.total n)))
      (by simp only [hcount, hlow, if_true]; exact pure _)
    exact h
  | w1 => exact reads_pkgLength_wide (by decide) (by decide) hw
  | w2 => exact reads_pkgLength_wide (by decide) (by decide) hw
  | w3 => exact reads_pkgLength_wide (by decide) (by decide) hw

/-- The end of a package: the body is what the length leaves. -/
lemma reads_takePkgBody {start len : Nat} {body : List UInt8} (msg : String)
    (h : p.cursor - start + body.length = len) : Reads p (takePkgBody start len msg) body body := by
  have hsub : len - (p.cursor - start) = body.length := by omega
  refine bind_nil position ?_
  simp only [if_pos (show p.cursor - start ≤ len by omega), hsub]
  exact bind_nil (okOr_some _ msg) (reads_takeBytes body)

/-! ### Names -/

/-- A lead character is none of the bytes that `read_name_path` treats specially. -/
lemma isLeadNameChar_ne {c : UInt8} (h : isLeadNameChar c) :
    isNamePrefix c = false ∧ c ≠ 0x00 ∧ c ≠ 0x2E ∧ c ≠ 0x2F := by
  refine ⟨?_, ?_, ?_, ?_⟩
  · by_contra hp
    simp only [isNamePrefix, Bool.or_eq_true, beq_iff_eq, Bool.not_eq_false] at hp
    rcases hp with rfl | rfl <;> exact absurd h (by decide)
  all_goals
    rintro rfl
    exact absurd h (by decide)

lemma countNamePrefixes_append (ps : List NamePrefix) {c : UInt8} (hc : isNamePrefix c = false)
    (r : List UInt8) : countNamePrefixes (ps.map NamePrefix.encode ++ c :: r) = ps.length := by
  induction ps with
  | nil => simp [countNamePrefixes, hc]
  | cons q ps ih =>
    have hq : isNamePrefix q.encode = true := by cases q <;> rfl
    simp [countNamePrefixes, hq, ih]

lemma NameBody.encode_head (b : NameBody) : ∃ c r, b.encode = c :: r ∧ isNamePrefix c = false := by
  cases b with
  | null => exact ⟨_, _, rfl, by decide⟩
  | single s => exact ⟨_, _, rfl, (isLeadNameChar_ne s.lead_ok).1⟩
  | dual s t => exact ⟨_, _, rfl, by decide⟩
  | multi segs hlen => exact ⟨_, _, rfl, by decide⟩

lemma skipNamePrefixes_run (n : NamePath) (h : p.At n.encode) :
    skipNamePrefixes.run p = (.ok (), p.advance n.prefixes.length) := by
  obtain ⟨c, r, hb, hc⟩ := n.body.encode_head
  obtain ⟨r', hr⟩ := h.2
  have hcount : countNamePrefixes p.rest = n.prefixes.length := by
    rw [← hr, NamePath.encode, hb, List.append_assoc, List.cons_append,
      countNamePrefixes_append _ hc]
  simp only [skipNamePrefixes, hcount]

lemma length_flatMap_encode (segs : List NameSeg) :
    (segs.flatMap NameSeg.encode).length = segs.length * 4 := by
  induction segs with
  | nil => rfl
  | cons s segs ih =>
    simp only [List.flatMap_cons, List.length_append, ih, NameSeg.encode, List.length_cons,
      List.length_nil]
    omega

lemma reads_readNameBody (b : NameBody) : Reads p readNameBody b.encode () := by
  have htail : ∀ {q : ByteCursor} (e : List UInt8) {k : Nat}, e.length = k →
      Reads q (do let _ ← takeBytes k) e () := by
    rintro q e k rfl
    exact bind_pure (f := fun _ => ()) (reads_takeBytes e)
  cases b with
  | null => exact reads_byte (pure ())
  | single s =>
    obtain ⟨-, h₁, h₂, h₃⟩ := isLeadNameChar_ne s.lead_ok
    refine reads_byte ?_
    simp only [h₁, h₂, h₃, if_false]
    exact htail _ rfl
  | dual s t => exact reads_byte (htail _ rfl)
  | multi segs hlen =>
    have hcount : (UInt8.ofNat segs.length).toNat = segs.length := by
      rw [UInt8.toNat_ofNat', Nat.mod_eq_of_lt hlen]
    refine reads_byte (reads_byte ?_)
    rw [hcount]
    exact htail _ (length_flatMap_encode segs)

lemma sliceFrom_advance {e : List UInt8} (msg : String) (h : p.At e) :
    (sliceFrom p.cursor msg).run (p.advance e.length) = (.ok e, p.advance e.length) := by
  have hslice : getSlice p.bytes p.cursor (p.cursor + e.length) = some e := by
    rw [getSlice, if_pos ⟨Nat.le_add_right _ _, h.length_le⟩, Nat.add_sub_cancel_left, h.slice_eq]
  show (okOr (getSlice p.bytes p.cursor (p.cursor + e.length)) msg).run _ = _
  rw [hslice]
  rfl

lemma reads_readNamePath (n : NamePath) : Reads p readNamePath n.encode { raw := n.encode } := by
  intro h
  have hskip := skipNamePrefixes_run n h
  have hbody := reads_readNameBody n.body h.right
  rw [advance_advance, ← List.length_append, List.length_map] at hbody
  rw [readNamePath, run_bind_ok (position ⟨h.1, List.nil_prefix⟩),
    List.length_nil, advance_zero, run_bind_ok hskip,
    run_bind_ok hbody]
  exact run_bind_ok (sliceFrom_advance _ h)

/-! ### Data objects -/

lemma fromUtf8_toUTF8 (s : String) : fromUtf8 (utf8Bytes s) = some s := by
  have hb : (⟨(utf8Bytes s).toArray⟩ : ByteArray) = s.toByteArray := by
    simp [utf8Bytes]
  have hv := s.isValidUTF8
  rw [fromUtf8, hb, String.fromUTF8?, dif_pos hv]
  rfl

lemma reads_readToNul {e : List UInt8} (he : 0x00 ∉ e) {fuel : Nat} (hf : e.length < fuel) :
    Reads p (readToNul fuel) (e ++ [0x00]) () := by
  induction e generalizing fuel p with
  | nil =>
    obtain ⟨fuel, rfl⟩ := Nat.exists_eq_succ_of_ne_zero (Nat.ne_zero_of_lt hf)
    exact reads_byte (pure ())
  | cons b e ih =>
    obtain ⟨fuel, rfl⟩ := Nat.exists_eq_succ_of_ne_zero (Nat.ne_zero_of_lt hf)
    rw [List.mem_cons, not_or] at he
    refine reads_byte ?_
    rw [if_pos (Ne.symm he.1)]
    exact ih he.2 (Nat.lt_of_succ_lt_succ hf)

lemma reads_string {s : String} (hs : 0x00 ∉ utf8Bytes s) :
    Reads p (do
      let start ← position
      readToNul ((← remaining) + 1)
      return .string (← stringFrom start)) (utf8Bytes s ++ [0x00]) (AmlValue.string s) := by
  intro h
  have hfuel : (utf8Bytes s).length < p.rest.length + 1 := by
    have := h.left.2.length_le
    omega
  have hscan := reads_readToNul (p := p) hs hfuel h
  have hslice : (p.bytes.drop p.cursor).take
      ((p.advance (utf8Bytes s ++ [0x00]).length).cursor - 1 - p.cursor)
        = utf8Bytes s := by
    have hlen : (p.advance (utf8Bytes s ++ [0x00]).length).cursor - 1 - p.cursor
        = (utf8Bytes s).length := by
      simp only [advance_cursor, List.length_append, List.length_singleton]
      omega
    rw [hlen, h.left.slice_eq]
  have hstr : (stringFrom p.cursor).run (p.advance (utf8Bytes s ++ [0x00]).length)
      = (.ok s, p.advance (utf8Bytes s ++ [0x00]).length) := by
    simp only [stringFrom, advance_bytes, hslice, fromUtf8_toUTF8]
    rfl
  have hpos : position.run p = (.ok p.cursor, p) := rfl
  have hrem : remaining.run p = (.ok p.rest.length, p) := rfl
  rw [run_bind_ok hpos, run_bind_ok hrem, run_bind_ok hscan, run_bind_ok hstr, run_pure]

lemma PkgWidth.length_encodeLength (w : PkgWidth) (n : Nat) :
    (w.encodeLength n).length = 1 + w.extra := by
  cases w <;> simp [encodeLength, extra, Nat.add_comm]

lemma length_encodePkg (w : PkgWidth) (contents : List UInt8) :
    (encodePkg w contents).length = 1 + w.extra + contents.length := by
  rw [encodePkg, List.length_append, w.length_encodeLength]

/-- A package whose header fields are read by `hdr`: what follows them is the body. -/
lemma reads_pkg {α β : Type} {w : PkgWidth} {hdr : Reader α} {a : α} (mk : α → List UInt8 → β)
    {msg : String} (header body : List UInt8) (hw : w.Legal (header ++ body).length)
    (hh : ∀ q : ByteCursor, Reads q hdr header a) :
    Reads p (do
      let pkgStart ← position
      let pkgLen ← readPkgLength
      let x ← hdr
      let b ← takePkgBody pkgStart pkgLen msg
      return mk x b) (encodePkg w (header ++ body)) (mk a body) := by
  refine bind_nil position (bind (reads_readPkgLength hw)
    (bind (hh _) (bind_pure (reads_takePkgBody msg ?_))))
  rw [advance_cursor, advance_cursor, w.length_encodeLength,
    total, List.length_append]
  omega

lemma isNameStart_of_lead {c : UInt8} (h : isLeadNameChar c) : isNameStart c = true := by
  simp only [isLeadNameChar, Bool.or_eq_true] at h
  simp only [isNameStart, Bool.or_eq_true]
  rcases h with h | h
  · exact .inl (.inr h)
  · exact .inr h

/-- Every name path but the bare null one starts with a byte that `parse_data_object` takes
for a name. -/
lemma NamePath.encode_head {n : NamePath} (hn : n.isBareNull = false) :
    ∃ c r, n.encode = c :: r ∧ isNameStart c = true := by
  obtain ⟨ps, b⟩ := n
  match ps, b with
  | .root :: _, _ => exact ⟨_, _, rfl, by decide⟩
  | .parent :: _, _ => exact ⟨_, _, rfl, by decide⟩
  | [], .null => simp [NamePath.isBareNull] at hn
  | [], .single s => exact ⟨_, _, rfl, isNameStart_of_lead s.lead_ok⟩
  | [], .dual _ _ => exact ⟨_, _, rfl, by decide⟩
  | [], .multi _ _ => exact ⟨_, _, rfl, by decide⟩

/-- The opcodes handled before names are not name starts. -/
lemma isNameStart_ne {c : UInt8} (h : isNameStart c = true) :
    c ≠ 0x00 ∧ c ≠ 0x01 ∧ c ≠ 0xFF ∧ c ≠ 0x0A ∧ c ≠ 0x0B ∧ c ≠ 0x0C ∧ c ≠ 0x0E ∧ c ≠ 0x0D ∧
      c ≠ 0x11 ∧ c ≠ 0x12 ∧ c ≠ 0x13 := by
  refine ⟨?_, ?_, ?_, ?_, ?_, ?_, ?_, ?_, ?_, ?_, ?_⟩ <;> rintro rfl <;> exact absurd h (by decide)

lemma reads_nameRef {n : NamePath} (hn : n.isBareNull = false) (fuel : Nat) :
    Reads p (parseDataObject (fuel + 1)) n.encode (.namePath { raw := n.encode }) := by
  intro h
  obtain ⟨c, r, henc, hc⟩ := n.encode_head hn
  obtain ⟨h₁, h₂, h₃, h₄, h₅, h₆, h₇, h₈, h₉, h₁₀, h₁₁⟩ := isNameStart_ne hc
  have hat : p.At ([c] ++ r) := by simpa [henc] using h
  have hback : stepBack.run (p.advance 1) = (.ok (), p) := rfl
  rw [parseDataObject, run_bind_ok (reads_readU8 c hat.left)]
  simp only [h₁, h₂, h₃, h₄, h₅, h₆, h₇, h₈, h₉, h₁₀, h₁₁, hc, if_false, if_true]
  rw [List.length_singleton, run_bind_ok hback, run_bind_ok (reads_readNamePath n h), run_pure]

lemma DataObject.length_encode_pos {d : DataObject} (hd : d.WellFormed) : 0 < d.encode.length := by
  cases d with
  | nameRef n =>
    obtain ⟨c, r, hn, -⟩ := n.encode_head hd
    simp [DataObject.encode, hn]
  | _ => simp [DataObject.encode]

lemma reads_integer {k n : Nat} {v : UInt64} (hn : n < 256 ^ k) (hv : UInt64.ofNat n = v) :
    Reads p (do return .integer (← readLe k)) (leBytes k n) (AmlValue.integer v) :=
  hv ▸ bind_pure (reads_readLe hn)

/-- A data object is read back as its value. The fuel only has to cover its own bytes, because
the nested sizes are shorter. -/
lemma reads_parseDataObject (d : DataObject) (hd : d.WellFormed) {fuel : Nat}
    (hf : d.encode.length ≤ fuel) (p : ByteCursor) :
    Reads p (parseDataObject fuel) d.encode d.value := by
  have hpos := d.length_encode_pos hd
  obtain ⟨fuel, rfl⟩ :=
    Nat.exists_eq_succ_of_ne_zero (Nat.ne_zero_of_lt (Nat.lt_of_lt_of_le hpos hf))
  match d with
  | .zero => exact reads_byte (pure _)
  | .one => exact reads_byte (pure _)
  | .ones => exact reads_byte (pure _)
  | .byte v => exact reads_byte (bind_pure (reads_readU8 v))
  | .word v => exact reads_byte (reads_integer v.toNat_lt (by simp))
  | .dword v => exact reads_byte (reads_integer v.toNat_lt (by simp))
  | .qword v => exact reads_byte (reads_integer v.toNat_lt (by simp))
  | .string s => exact reads_byte (reads_string hd)
  | .buffer w size data =>
    have hsize : size.encode.length ≤ fuel := by
      simp only [DataObject.encode, List.length_cons, length_encodePkg, List.length_append] at hf
      omega
    exact reads_byte (reads_pkg (fun _ b => AmlValue.buffer b) size.encode data hd.1
      (reads_parseDataObject size hd.2 hsize))
  | .package w n elems =>
    exact reads_byte (reads_pkg (fun _ b => AmlValue.buffer b) [n] (encodeElems elems) hd.1
      (fun _ => reads_readU8 n))
  | .varPackage w n elems =>
    have hn : n.encode.length ≤ fuel := by
      simp only [DataObject.encode, List.length_cons, length_encodePkg, List.length_append] at hf
      omega
    exact reads_byte (reads_pkg (fun _ b => AmlValue.buffer b) n.encode (encodeElems elems) hd.1
      (reads_parseDataObject n hd.2.1 hn))
  | .nameRef n => exact reads_nameRef hd fuel

lemma reads_parseData (d : DataObject) (hd : d.WellFormed) :
    Reads p parseData d.encode d.value := by
  intro h
  have hrem : remaining.run p = (.ok p.rest.length, p) := rfl
  rw [parseData, run_bind_ok hrem]
  exact reads_parseDataObject d hd (Nat.le_succ_of_le h.2.length_le) p h

/-! ### Terms -/

def Term.parsed : Term → AmlTerm
  | .scope _ n body        => .scope { raw := n.encode } (AmlParser.new (encodeTerms body))
  | .device _ n body       => .device { raw := n.encode } (AmlParser.new (encodeTerms body))
  | .name n v              => .name { raw := n.encode } v.value
  | .method _ n flags code => .method { raw := n.encode } flags code
  | .opRegion n _ _ _      => .opRegion { raw := n.encode }
  | .field _ _ _ _         => .field

/-- Two header fields read as one header, with the flags behind the name. -/
lemma reads_nameFlags {β : Type} {w : PkgWidth} {msg : String}
    (mk : AmlNamePath → UInt8 → List UInt8 → β) (n : NamePath) (flags : UInt8)
    (body : List UInt8) (hw : w.Legal (n.encode ++ flags :: body).length) :
    Reads p (do
      let pkgStart ← position
      let pkgLen ← readPkgLength
      let name ← readNamePath
      let fl ← readU8
      let b ← takePkgBody pkgStart pkgLen msg
      return mk name fl b) (encodePkg w (n.encode ++ flags :: body))
        (mk { raw := n.encode } flags body) := by
  refine bind_nil position (bind (reads_readPkgLength hw)
    (bind (reads_readNamePath n) (reads_byte (bind_pure (reads_takePkgBody msg ?_)))))
  simp only [advance_cursor, length_encodeLength, total,
    List.length_append, List.length_cons]
  omega

lemma reads_parseOpcode (t : Term) (ht : t.WellFormed) :
    Reads p parseOpcode t.encode (some t.parsed) := by
  match t with
  | .scope w n body =>
    refine reads_byte (bind_pure ?_)
    exact reads_pkg (fun name b => AmlTerm.scope name (AmlParser.new b)) n.encode _ ht.1
      (fun _ => reads_readNamePath n)
  | .device w n body =>
    refine reads_byte (bind_pure (reads_byte ?_))
    exact reads_pkg (fun name b => AmlTerm.device name (AmlParser.new b)) n.encode _ ht.1
      (fun _ => reads_readNamePath n)
  | .name n v =>
    refine reads_byte (bind_pure ?_)
    exact bind (reads_readNamePath n) (bind_pure (reads_parseData v ht))
  | .method w n flags code =>
    refine reads_byte (bind_pure ?_)
    exact reads_nameFlags (fun name fl b => AmlTerm.method name fl b) n flags code ht
  | .opRegion n space o l =>
    refine reads_byte (bind_pure (reads_byte ?_))
    exact bind (reads_readNamePath n) (reads_byte (bind (reads_parseData o ht.1)
      (bind_pure (reads_parseData l ht.2))))
  | .field w n flags body =>
    refine reads_byte (bind_pure (reads_byte ?_))
    exact reads_nameFlags (fun _ _ _ => AmlTerm.field) n flags body ht
lemma Term.length_encode_pos (t : Term) : 0 < t.encode.length := by
  cases t <;> simp [Term.encode]

lemma parseNext_cons {p : AmlParser} {t : Term} {r : List UInt8} (ht : t.WellFormed)
    (hp : p.cursor ≤ p.bytes.length) (h : p.rest = t.encode ++ r) :
    parseNext.run p = (.ok (some t.parsed), p.advance t.encode.length) := by
  have hpos := t.length_encode_pos
  have hempty : isEmpty p = false := by
    have hne : p.rest ≠ [] := by
      rw [h]
      exact List.append_ne_nil_of_left_ne_nil (List.length_pos_iff.mp hpos) r
    rw [Ne, p.rest_eq_nil_iff] at hne
    simpa [isEmpty] using hne
  simp only [parseNext, hempty, Bool.false_eq_true, if_false]
  exact reads_parseOpcode t ht ⟨hp, r, h.symm⟩

mutual
lemma Term.parsedAs_parsed (t : Term) (ht : t.WellFormed) : t.ParsedAs t.parsed := by
  match t with
  | .scope w n body =>
    exact ⟨rfl, yields_of_rest body ht.2 (AmlParser.new (encodeTerms body)) (Nat.zero_le _) rfl⟩
  | .device w n body =>
    exact ⟨rfl, yields_of_rest body ht.2 (AmlParser.new (encodeTerms body)) (Nat.zero_le _) rfl⟩
  | .name n v => rfl
  | .method w n flags code => rfl
  | .opRegion n space o l => rfl
  | .field w n flags body => rfl

lemma yields_of_rest (ts : List Term) (hts : TermsWellFormed ts) (p : AmlParser)
    (hp : p.cursor ≤ p.bytes.length) (h : p.rest = encodeTerms ts) : Yields ts p := by
  match ts with
  | [] => exact parseNext_nil h
  | t :: ts =>
    have hrun := parseNext_cons hts.1 hp h
    have hat : p.At (t.encode ++ encodeTerms ts) := ⟨hp, by rw [h]; exact List.prefix_refl _⟩
    refine ⟨t.parsed, p.advance t.encode.length, hrun, t.parsedAs_parsed hts.1, ?_⟩
    refine yields_of_rest ts hts.2 _ hat.left.length_le ?_
    rw [rest_advance, h, encodeTerms, List.drop_left]
end

/-- Parsing the encoding of a list of terms yields exactly these terms in order, recursively
for the contents of scopes and devices, and then `Ok(None)`. -/
theorem parse_encodeTerms (ts : List Term) (hts : TermsWellFormed ts) :
    Yields ts (AmlParser.new (encodeTerms ts)) :=
  yields_of_rest ts hts (AmlParser.new (encodeTerms ts)) (Nat.zero_le _) rfl

/-- `Scope (\_SB) { Device (PCI0) { Name (_HID, Package ...) ... } }`, with package lengths of
every width. -/
def sampleTable : List Term :=
  let sb : NameSeg := ⟨0x5F, 0x53, 0x42, 0x5F, by decide, by decide⟩
  let pci : NameSeg := ⟨0x50, 0x43, 0x49, 0x30, by decide, by decide⟩
  let hid : NameSeg := ⟨0x5F, 0x48, 0x49, 0x44, by decide, by decide⟩
  [.scope .w1 ⟨[.root], .single sb⟩
    [.device .w2 ⟨[], .single pci⟩
      [.name ⟨[], .single hid⟩ (.package .w0 2 [.string "PNP0A08", .word 0x1234]),
        .method .w3 ⟨[.parent, .parent], .dual pci hid⟩ 8 [0xA4, 0x00],
        .opRegion ⟨[], .multi [sb, pci, hid] (by decide)⟩ 0 (.dword 0xFE000000)
          (.nameRef ⟨[.root], .null⟩),
        .field .w0 ⟨[], .null⟩ 1 [0x08]],
      .name ⟨[], .single hid⟩ (.varPackage .w0 (.byte 1) [.qword 7])],
    .name ⟨[], .single sb⟩ (.buffer .w0 .one [0xAA])]

theorem parse_sampleTable :
    TermsWellFormed sampleTable ∧ Yields sampleTable (AmlParser.new (encodeTerms sampleTable)) := by
  have h : TermsWellFormed sampleTable := by
    simp only [sampleTable, TermsWellFormed, Term.WellFormed, DataObject.WellFormed,
      ElemsWellFormed]
    decide
  exact ⟨h, parse_encodeTerms sampleTable h⟩

end Mars.Aml
