import Mars.Aml.Progress

/-!
# No unchecked operation is out of range

The parser with its unchecked operations agrees with the plain one: from every position of a
slice, with fuel for the bytes that are left, it has an outcome, the one of the plain parser.
-/

namespace Mars.Aml.Checked

open CheckedReader

variable {p : AmlParser} {fuel : Nat}

/-! ### Bytes and integers -/

lemma agrees_readU8 (hp : p.Fits) : Agrees readU8 Aml.readU8 p := by
  have hadd : usizeAdd p.cursor 1 = some (p.cursor + 1) := by
    have h₁ := hp.inside
    have h₂ := hp.small
    exact usizeAdd_eq (by omega)
  unfold Agrees
  rcases hb : p.bytes[p.cursor]? with _ | b
  · rw [run_readU8_none hb]
    simp [readU8, hb]
  · rw [run_readU8_some hb]
    simp [readU8, hb, hadd, ByteCursor.advance]

lemma agrees_takeBytes (hp : p.Fits) {len : Nat} (hlen : len < 2 ^ 63) :
    Agrees (takeBytes len) (Aml.takeBytes len) p := by
  have hadd : usizeAdd p.cursor len = some (p.cursor + len) := by
    have h₁ := hp.inside
    have h₂ := hp.small
    exact usizeAdd_eq (by omega)
  unfold Agrees
  by_cases hle : p.cursor + len ≤ p.bytes.length
  · have hslice := indexSlice_eq (Nat.le_add_right p.cursor len) hle
    simp [takeBytes, Aml.takeBytes, hadd, hle, hslice, ByteCursor.advance]
  · simp [takeBytes, Aml.takeBytes, hadd, hle]

lemma agrees_readLe (hp : p.Fits) {width : Nat} (hwidth : width < 2 ^ 63) :
    Agrees (readLe width) (Aml.readLe width) p := by
  refine .bind hp (agrees_takeBytes hp hwidth) (forward_takeBytes width) ?_
  intro b q hb _ _
  obtain ⟨hle, rfl, -⟩ := run_takeBytes_ok hb
  have hlen : ((p.bytes.drop p.cursor).take width).length = width := by
    simp only [List.length_take, List.length_drop]
    omega
  exact .expect_bind (if_pos hlen) (.pure _)

/-! ### Package lengths and names -/

/-- The byte `i` of a package length, shifted to its place. -/
lemma pkgLength_shift_lt (b : UInt8) {i : Nat} (hi : i < 3) : b.toNat <<< (4 + i * 8) < 2 ^ 28 := by
  have hb := b.toNat_lt
  have hpow : 2 ^ (4 + i * 8) ≤ 2 ^ 20 := Nat.pow_le_pow_right (by omega) (by omega)
  rw [Nat.shiftLeft_eq]
  calc b.toNat * 2 ^ (4 + i * 8) < 2 ^ 8 * 2 ^ (4 + i * 8) :=
        Nat.mul_lt_mul_of_pos_right hb (Nat.two_pow_pos _)
    _ ≤ 2 ^ 8 * 2 ^ 20 := Nat.mul_le_mul_left _ hpow
    _ = 2 ^ 28 := rfl

lemma returns_readPkgLengthBytes (n : Nat) : ∀ {i length : Nat}, i + n ≤ 3 → length < 2 ^ 28 →
    (Aml.readPkgLengthBytes n i length).Returns (· < 2 ^ 28) := by
  induction n with
  | zero => exact fun _ hlength => .pure hlength
  | succ n ih =>
    intro i length hi hlength
    refine .bind fun b => ih (by omega) ?_
    exact Nat.or_lt_two_pow hlength (pkgLength_shift_lt b (by omega))

lemma toNat_shiftRight_six_le (lead : UInt8) : (lead >>> 6).toNat ≤ 3 := by
  have hlt := lead.toNat_lt
  have hshift : (lead >>> 6).toNat = lead.toNat / 2 ^ 6 := by
    simp [Nat.shiftRight_eq_div_pow]
  omega

lemma toNat_and_lt (lead mask : UInt8) : (lead &&& mask).toNat < 2 ^ 28 := by
  have hlt : (lead &&& mask).toNat < 2 ^ 8 := (lead &&& mask).toNat_lt
  omega

/-- A package length has at most 28 bits. -/
lemma returns_readPkgLength : Aml.readPkgLength.Returns (· < 2 ^ 28) := by
  refine .bind fun lead => .ite (.pure (toNat_and_lt lead _)) ?_
  exact returns_readPkgLengthBytes _ (by have := toNat_shiftRight_six_le lead; omega)
    (toNat_and_lt lead _)

lemma agrees_readPkgLengthBytes (n : Nat) : ∀ {p : AmlParser} {i length : Nat}, p.Fits →
    i + n ≤ 3 → Agrees (readPkgLengthBytes n i length) (Aml.readPkgLengthBytes n i length) p := by
  induction n with
  | zero => exact fun _ _ => rfl
  | succ n ih =>
    intro p i length hp hi
    refine .bind hp (agrees_readU8 hp) forward_readU8 fun b q _ _ hq => ?_
    have hlt := pkgLength_shift_lt b (show i < 3 by omega)
    have hshift : (usizeMul i 8).bind (usizeAdd 4) = some (4 + i * 8) := by
      rw [usizeMul_eq (by omega)]
      exact usizeAdd_eq (by omega)
    have hbits := usizeShl_eq (show 4 + i * 8 < 64 by omega) (Nat.lt_trans hlt (by omega))
    exact .expect_bind hshift (.expect_bind hbits (ih hq (by omega)))

lemma agrees_readPkgLength (hp : p.Fits) : Agrees readPkgLength Aml.readPkgLength p := by
  refine .bind hp (agrees_readU8 hp) forward_readU8 fun lead q _ _ hq => .ite (fun _ => rfl) ?_
  intro _
  exact agrees_readPkgLengthBytes _ hq (by have := toNat_shiftRight_six_le lead; omega)

lemma rest_eq_cons {ch : UInt8} (h : p.bytes[p.cursor]? = some ch) :
    p.rest = ch :: (p.advance 1).rest := by
  obtain ⟨hlt, rfl⟩ := List.getElem?_eq_some_iff.mp h
  exact List.drop_eq_getElem_cons hlt

lemma rest_eq_nil (h : p.bytes[p.cursor]? = none) : p.rest = [] := by
  rw [ByteCursor.rest_eq_nil_iff]
  exact List.getElem?_eq_none_iff.mp h

lemma agrees_skipNamePrefixes (fuel : Nat) : ∀ {p : AmlParser}, p.Fits → p.rest.length < fuel →
    Agrees (skipNamePrefixes fuel) Aml.skipNamePrefixes p := by
  induction fuel with
  | zero => exact fun _ hfuel => absurd hfuel (Nat.not_lt_zero _)
  | succ fuel ih =>
    intro p hp hfuel
    unfold Agrees
    rcases hch : p.bytes[p.cursor]? with _ | ch
    · simp [skipNamePrefixes, Aml.skipNamePrefixes, peekU8, hch, rest_eq_nil hch, countNamePrefixes]
    · have hrest := rest_eq_cons hch
      by_cases hprefix : isNamePrefix ch = true
      · -- one byte further the loop starts again
        have hnext := forward_readU8.before hp.inside (run_readU8_some hch)
        have hadd : usizeAdd p.cursor 1 = some (p.cursor + 1) := by
          have h₁ := hp.inside
          have h₂ := hp.small
          exact usizeAdd_eq (by omega)
        have hloop := ih (hp.of_before hnext) (by rw [hrest] at hfuel; simpa using hfuel)
        have hcount : countNamePrefixes p.rest = countNamePrefixes (p.advance 1).rest + 1 := by
          rw [hrest, countNamePrefixes, if_pos hprefix]
        simp only [skipNamePrefixes, run_get_bind, peekU8, hch, if_pos hprefix, hadd,
          run_expect_some_bind, run_moveTo_bind]
        refine hloop.trans ?_
        simp only [Aml.skipNamePrefixes, hcount, ByteCursor.advance_advance, Nat.add_comm]
      · simp [skipNamePrefixes, Aml.skipNamePrefixes, peekU8, hch, hrest, countNamePrefixes,
          hprefix]

lemma agrees_readNameBody (hp : p.Fits) : Agrees readNameBody Aml.readNameBody p := by
  refine .bind hp (agrees_readU8 hp) forward_readU8 fun lead q _ _ hq => ?_
  refine .ite (fun _ => rfl) fun _ => .ite (fun _ => ?_) fun _ => .ite (fun _ => ?_) fun _ => ?_
  · exact (agrees_takeBytes hq (by omega)).bind_pure
  · refine .bind hq (agrees_readU8 hq) forward_readU8 fun count r _ _ hr => ?_
    have hcount := count.toNat_lt
    have hmul : usizeMul count.toNat 4 = some (count.toNat * 4) := usizeMul_eq (by omega)
    exact .expect_bind hmul (agrees_takeBytes hr (by omega)).bind_pure
  · exact (agrees_takeBytes hq (by omega)).bind_pure

lemma agrees_sliceFrom (start : Nat) (msg : String) :
    Agrees (sliceFrom start msg) (Aml.sliceFrom start msg) p :=
  Agrees.okOr _ msg

lemma agrees_readNamePath (hp : p.Fits) (hfuel : p.rest.length < fuel) :
    Agrees (readNamePath fuel) Aml.readNamePath p := by
  apply Agrees.position_bind
  refine .bind hp (agrees_skipNamePrefixes fuel hp hfuel) forward_skipNamePrefixes ?_
  intro _ q _ _ hq
  refine .bind hq (agrees_readNameBody hq) forward_readNameBody fun _ r _ _ _ => ?_
  exact (agrees_sliceFrom _ _).bind_pure

/-- The subtraction is in range because the cursor is not before the start of the package, the
addition because a package length is short. -/
lemma agrees_takePkgBody (hp : p.Fits) {pkgStart pkgLen : Nat} (hstart : pkgStart ≤ p.cursor)
    (hlen : pkgLen < 2 ^ 28) (msg : String) :
    Agrees (takePkgBody pkgStart pkgLen msg) (Aml.takePkgBody pkgStart pkgLen msg) p := by
  apply Agrees.position_bind
  refine .expect_bind (usizeSub_eq hstart) ?_
  refine .bind hp (.okOr _ msg) (.okOr _ msg) fun len q hrun _ hq => ?_
  refine agrees_takeBytes hq ?_
  split at hrun
  · cases hrun
    omega
  · cases hrun

/-! ### Data objects -/

lemma run_readU8_ok {q : AmlParser} {b : UInt8} (h : Aml.readU8.run p = (.ok b, q)) :
    p.bytes[p.cursor]? = some b ∧ q = p.advance 1 := by
  rcases hb : p.bytes[p.cursor]? with _ | b'
  · rw [run_readU8_none hb] at h
    cases h
  · rw [run_readU8_some hb] at h
    cases h
    exact ⟨rfl, rfl⟩

lemma length_rest_of_readU8 {q : AmlParser} {b : UInt8} (h : Aml.readU8.run p = (.ok b, q)) :
    q.rest.length + 1 = p.rest.length := by
  obtain ⟨hb, rfl⟩ := run_readU8_ok h
  rw [rest_eq_cons hb, List.length_cons]

lemma agrees_readToNul (fuel : Nat) : ∀ {p : AmlParser} {fuel' : Nat}, p.Fits →
    p.rest.length < fuel → p.rest.length < fuel' →
    Agrees (readToNul fuel) (Aml.readToNul fuel') p := by
  induction fuel with
  | zero => exact fun _ hfuel => absurd hfuel (Nat.not_lt_zero _)
  | succ fuel ih =>
    intro p fuel' hp hfuel hfuel'
    obtain _ | fuel' := fuel'
    · exact absurd hfuel' (Nat.not_lt_zero _)
    · refine .bind hp (agrees_readU8 hp) forward_readU8 fun b q hb _ hq => ?_
      have hlen := length_rest_of_readU8 hb
      exact .ite (fun _ => ih hq (by omega) (by omega)) fun _ => rfl

/-- The loop ends one past a NUL, so at least one byte further. -/
lemma lt_of_readToNul {fuel : Nat} {q : AmlParser} (hp : p.cursor ≤ p.bytes.length)
    (h : (Aml.readToNul fuel).run p = (.ok (), q)) : p.cursor < q.cursor := by
  obtain _ | fuel := fuel
  · cases h
  · obtain ⟨b, p', hb, h⟩ := Reader.ok_of_run_bind h
    have hp' := forward_readU8.before hp hb
    obtain ⟨-, rfl⟩ := run_readU8_ok hb
    have hq : (p.advance 1).Before q :=
      (Reader.Forward.ite (forward_readToNul fuel) (.pure _)).before hp'.inside' h
    exact hq.le

lemma agrees_stringFrom (hp : p.Fits) {start : Nat} (hstart : start < p.cursor) :
    Agrees (stringFrom start) (Aml.stringFrom start) p := by
  have hsub : usizeSub p.cursor 1 = some (p.cursor - 1) := usizeSub_eq (by omega)
  have hslice : indexSlice p.bytes start (p.cursor - 1) =
      some ((p.bytes.drop start).take (p.cursor - 1 - start)) :=
    indexSlice_eq (by omega) (by have := hp.inside; omega)
  unfold Agrees
  simp only [stringFrom, run_get_bind, hsub, run_expect_some_bind, hslice]
  exact Agrees.okOr _ _

lemma agrees_stepBack {α : Type} {f : Unit → CheckedReader α} {g : Unit → Reader α}
    (h : Agrees (f ()) (g ()) p) : Agrees (stepBack >>= f) (Aml.stepBack >>= g) (p.advance 1) := by
  have hback : stepBack.run (p.advance 1) = some (.ok (), p) := by
    simp only [stepBack, run_get_bind]
    rw [usizeSub_eq (show 1 ≤ (p.advance 1).cursor from Nat.le_add_left _ _)]
    rfl
  unfold Agrees at h ⊢
  rw [run_stepBack_bind, ← h]
  show (CheckedReader.bind stepBack f).run _ = _
  simp only [CheckedReader.bind, hback]

/-- A package header, its size object and the body. -/
lemma agrees_package {α β : Type} {size : CheckedReader α} {size' : Reader α} (hp : p.Fits)
    (hsize : ∀ q : AmlParser, q.Fits → p.Before q → Agrees size size' q)
    (hforward : size'.Forward) (msg : String) (f : List UInt8 → β) :
    Agrees
      (do
        let pkgStart ← position
        let pkgLen ← readPkgLength
        let _ ← size
        return f (← takePkgBody pkgStart pkgLen msg))
      (do
        let pkgStart ← Reader.position
        let pkgLen ← Aml.readPkgLength
        let _ ← size'
        return f (← Aml.takePkgBody pkgStart pkgLen msg)) p := by
  apply Agrees.position_bind
  refine .bind hp (agrees_readPkgLength hp) forward_readPkgLength fun pkgLen q hlen hpq hq => ?_
  refine .bind hq (hsize q hq hpq) hforward fun _ r _ hqr hr => ?_
  have hstart : p.cursor ≤ r.cursor := (hpq.trans hqr).le
  exact (agrees_takePkgBody hr hstart (returns_readPkgLength _ _ _ hlen) msg).bind_pure

lemma agrees_parseDataObject (fuel : Nat) : ∀ {p : AmlParser} {fuel' : Nat}, p.Fits →
    p.rest.length < fuel → p.rest.length < fuel' →
    Agrees (parseDataObject fuel) (Aml.parseDataObject fuel') p := by
  induction fuel with
  | zero => exact fun _ hfuel => absurd hfuel (Nat.not_lt_zero _)
  | succ fuel ih =>
    intro p fuel' hp hfuel hfuel'
    obtain _ | fuel' := fuel'
    · exact absurd hfuel' (Nat.not_lt_zero _)
    refine .bind hp (agrees_readU8 hp) forward_readU8 fun op q hop hpq hq => ?_
    have hlen := length_rest_of_readU8 hop
    have hsize : ∀ r : AmlParser, r.Fits → q.Before r →
        Agrees (parseDataObject fuel) (Aml.parseDataObject fuel') r := by
      intro r hr hqr
      have hle := hqr.length_rest_le
      exact ih hr (by omega) (by omega)
    refine .ite (fun _ => rfl) fun _ => .ite (fun _ => rfl) fun _ => .ite (fun _ => rfl) fun _ =>
      .ite (fun _ => (agrees_readU8 hq).bind_pure) fun _ =>
      .ite (fun _ => (agrees_readLe hq (by omega)).bind_pure) fun _ =>
      .ite (fun _ => (agrees_readLe hq (by omega)).bind_pure) fun _ =>
      .ite (fun _ => (agrees_readLe hq (by omega)).bind_pure) fun _ =>
      .ite (fun _ => ?_) fun _ =>
      .ite (fun _ => agrees_package hq hsize (forward_parseDataObject _) _ _) fun _ =>
      .ite (fun _ => agrees_package hq (fun r hr _ => agrees_readU8 hr) forward_readU8 _ _) fun _ =>
      .ite (fun _ => agrees_package hq hsize (forward_parseDataObject _) _ _) fun _ =>
      .ite (fun _ => ?_) fun _ => .ite (fun _ => (agrees_readU8 hq).bind_pure) fun _ => rfl
    · -- the string
      apply Agrees.position_bind
      have hnul := agrees_readToNul fuel hq (show q.rest.length < fuel by omega)
        (Nat.lt_succ_self q.rest.length)
      refine Agrees.bind hq hnul (forward_readToNul _) fun _ r hr _ hr' => ?_
      exact (agrees_stringFrom hr' (lt_of_readToNul hq.inside hr)).bind_pure
    · -- the name path starts at the byte just read
      obtain ⟨-, rfl⟩ := run_readU8_ok hop
      apply agrees_stepBack
      exact (agrees_readNamePath hp (by omega)).bind_pure

lemma agrees_parseData (hp : p.Fits) (hfuel : p.rest.length < fuel) :
    Agrees (parseDataObject fuel) Aml.parseData p :=
  agrees_parseDataObject fuel hp hfuel (Nat.lt_succ_self _)

/-! ### Terms -/

lemma agrees_parseExt (hp : p.Fits) (hfuel : p.rest.length < fuel) :
    Agrees (parseExt fuel) Aml.parseExt p := by
  refine .bind hp (agrees_readU8 hp) forward_readU8 fun extOpc q _ hpq hq => ?_
  have hfuel : ∀ {r : AmlParser}, q.Before r → r.rest.length < fuel := fun hr =>
    Nat.lt_of_le_of_lt (hpq.trans hr).length_rest_le hfuel
  refine .ite (fun _ => ?_) fun _ => .ite (fun _ => ?_) fun _ => .ite (fun _ => ?_) fun _ => rfl
  · refine .bind hq (agrees_readNamePath hq (hfuel (.refl hq.inside))) forward_readNamePath ?_
    intro name r _ hqr hr
    refine .bind hr (agrees_readU8 hr) forward_readU8 fun _ s _ hrs hs => ?_
    have hqs := hqr.trans hrs
    refine .bind hs (agrees_parseData hs (hfuel hqs)) forward_parseData fun _ t _ hst ht => ?_
    exact (agrees_parseData ht (hfuel (hqs.trans hst))).bind_pure
  · apply Agrees.position_bind
    refine .bind hq (agrees_readPkgLength hq) forward_readPkgLength fun pkgLen r hlen hqr hr => ?_
    refine .bind hr (agrees_readNamePath hr (hfuel hqr)) forward_readNamePath ?_
    intro _ s _ hrs hs
    refine .bind hs (agrees_readU8 hs) forward_readU8 fun _ t _ hst ht => ?_
    have hstart := ((hqr.trans hrs).trans hst).le
    exact (agrees_takePkgBody ht hstart (returns_readPkgLength _ _ _ hlen) _).bind_pure
  · apply Agrees.position_bind
    refine .bind hq (agrees_readPkgLength hq) forward_readPkgLength fun pkgLen r hlen hqr hr => ?_
    refine .bind hr (agrees_readNamePath hr (hfuel hqr)) forward_readNamePath ?_
    intro name s _ hrs hs
    have hstart := (hqr.trans hrs).le
    exact (agrees_takePkgBody hs hstart (returns_readPkgLength _ _ _ hlen) _).bind_pure

lemma agrees_parseTerm (opcode : UInt8) (hp : p.Fits) (hfuel : p.rest.length < fuel) :
    Agrees (parseTerm fuel opcode) (Aml.parseTerm opcode) p := by
  have hfuel' : ∀ {r : AmlParser}, p.Before r → r.rest.length < fuel := fun hr =>
    Nat.lt_of_le_of_lt hr.length_rest_le hfuel
  refine .ite (fun _ => ?_) fun _ => .ite (fun _ => ?_) fun _ => .ite (fun _ => ?_) fun _ =>
    .ite (fun _ => agrees_parseExt hp hfuel) fun _ => rfl
  · apply Agrees.position_bind
    refine .bind hp (agrees_readPkgLength hp) forward_readPkgLength fun pkgLen q hlen hpq hq => ?_
    refine .expect_bind (usizeSub_eq hpq.le) ?_
    refine .bind hq (agrees_readNamePath hq (hfuel' hpq)) forward_readNamePath ?_
    intro name r _ hqr hr
    have hstart := (hpq.trans hqr).le
    exact (agrees_takePkgBody hr hstart (returns_readPkgLength _ _ _ hlen) _).bind_pure
  · refine .bind hp (agrees_readNamePath hp hfuel) forward_readNamePath ?_
    intro name q _ hpq hq
    exact (agrees_parseData hq (hfuel' hpq)).bind_pure
  · apply Agrees.position_bind
    refine .bind hp (agrees_readPkgLength hp) forward_readPkgLength fun pkgLen q hlen hpq hq => ?_
    refine .bind hq (agrees_readNamePath hq (hfuel' hpq)) forward_readNamePath ?_
    intro name r _ hqr hr
    refine .bind hr (agrees_readU8 hr) forward_readU8 fun flags s _ hrs hs => ?_
    have hstart := ((hpq.trans hqr).trans hrs).le
    exact (agrees_takePkgBody hs hstart (returns_readPkgLength _ _ _ hlen) _).bind_pure

/-- `parse_next` has an outcome from every position of every slice: nothing is out of range,
and fuel for the bytes that are left is enough. -/
lemma agrees_parseNext (hsmall : p.bytes.length < 2 ^ 63) (hfuel : p.rest.length < fuel) :
    Agrees (parseNext fuel) Aml.parseNext p := by
  by_cases hnil : p.rest = []
  · have hempty := (isEmpty_iff p).mpr hnil
    unfold Agrees
    rw [parseNext_nil hnil]
    simp only [parseNext, run_get_bind, if_pos hempty]
    rfl
  · have hempty : ¬isEmpty p = true := by rwa [isEmpty_iff]
    have hp : p.Fits := by
      refine ⟨?_, hsmall⟩
      rw [ByteCursor.rest_eq_nil_iff] at hnil
      omega
    have hread : Agrees (readU8 >>= fun opcode => parseTerm fuel opcode >>= fun t => pure (some t))
        Aml.parseOpcode p := by
      refine .bind hp (agrees_readU8 hp) forward_readU8 fun opcode q _ hpq hq => ?_
      have hle := hpq.length_rest_le
      exact (agrees_parseTerm opcode hq (by omega)).bind_pure
    unfold Agrees at hread ⊢
    simp only [parseNext, run_get_bind, if_neg hempty, hread]
    exact congrArg some (if_neg hempty).symm

end Mars.Aml.Checked
