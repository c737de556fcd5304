import Mars.Aml.RoundTrip
import Mars.Aml.Device
import Mathlib.Data.Nat.Digits.Defs

/-!
# EISA ids

An EISA id of three letters and four hexadecimal digits is compressed into four bytes, the most
significant byte first. The parser reads an integer whose least significant byte comes first, and
`as_string` takes the letters from its upper bits, where the bytes of the digits are.
-/

namespace Mars.Aml

/-! ### The format -/

/-- Three upper-case letters and four hexadecimal digits. -/
structure EisaId where
  l₁ : Fin 26
  l₂ : Fin 26
  l₃ : Fin 26
  d₁ : Fin 16
  d₂ : Fin 16
  d₃ : Fin 16
  d₄ : Fin 16

namespace EisaId

def letter (l : Fin 26) : Char := Char.ofNat (0x41 + l)

def digit (d : Fin 16) : Char :=
  if (d : Nat) < 10 then Char.ofNat (0x30 + d) else Char.ofNat (0x37 + d)

variable (id : EisaId)

def text : String :=
  String.ofList [letter id.l₁, letter id.l₂, letter id.l₃, digit id.d₁, digit id.d₂, digit id.d₃,
    digit id.d₄]

/-- The letters, with `A` as 1 and five bits for each. -/
def letters : Nat := (id.l₁ + 1) * 2 ^ 10 + (id.l₂ + 1) * 2 ^ 5 + (id.l₃ + 1)

def digits : Nat := id.d₁ * 16 ^ 3 + id.d₂ * 16 ^ 2 + id.d₃ * 16 + id.d₄

/-- `EISAID (id)` -/
def bytes : List UInt8 :=
  [.ofNat (id.letters / 256), .ofNat (id.letters % 256), .ofNat (id.digits / 256),
    .ofNat (id.digits % 256)]

/-- The integer with the same bytes, the most significant one first. -/
def value : Nat := id.letters * 2 ^ 16 + id.digits

def stored : UInt32 :=
  .ofNat (id.letters / 256 + 256 * (id.letters % 256 + 256 * (id.digits / 256 +
    256 * (id.digits % 256))))

end EisaId

/-! ### Hexadecimal digits -/

lemma leftpad_append {α : Type} (n : Nat) (a b : α) (l : List α) :
    List.leftpad (n + 1) a (l ++ [b]) = List.leftpad n a l ++ [b] := by
  simp [List.leftpad]

lemma upperHexPadded_succ {w : Nat} (hw : 0 < w) (n : Nat) :
    upperHexPadded (w + 1) n = upperHexPadded w (n / 16) ++ [(n % 16).digitChar.toUpper] := by
  rw [upperHexPadded, upperHexPadded, upperHex, upperHex]
  by_cases hn : n < 16
  · have hzero := Nat.div_eq_of_lt hn
    obtain ⟨w, rfl⟩ := Nat.exists_eq_succ_of_ne_zero hw.ne'
    rw [hzero, Nat.mod_eq_of_lt hn, Nat.toDigits_of_lt_base hn, Nat.toDigits_of_lt_base (by decide)]
    have hdigit : (Nat.digitChar 0).toUpper = '0' := rfl
    simp [List.leftpad, List.replicate_succ', hdigit]
  · rw [Nat.toDigits_of_base_le (by decide) (not_lt.mp hn), List.map_append]
    exact leftpad_append _ _ _ _

lemma upperHexPadded_four {n : Nat} (hn : n < 16 ^ 4) :
    upperHexPadded 4 n = [(n / 16 ^ 3).digitChar.toUpper, (n / 16 ^ 2 % 16).digitChar.toUpper,
      (n / 16 % 16).digitChar.toUpper, (n % 16).digitChar.toUpper] := by
  have hfirst : n / 16 / 16 / 16 < 16 := by omega
  have hone : upperHexPadded 1 (n / 16 / 16 / 16) = [(n / 16 / 16 / 16).digitChar.toUpper] := by
    rw [upperHexPadded, upperHex, Nat.toDigits_of_lt_base hfirst]
    rfl
  rw [upperHexPadded_succ (by decide), upperHexPadded_succ (by decide),
    upperHexPadded_succ (by decide), hone]
  simp [Nat.div_div_eq_div_mul]

/-! ### What is read -/

lemma digitChar_eq_iff : ∀ m n : Fin 16, (m : Nat).digitChar.toUpper = EisaId.digit n ↔ m = n := by
  decide

lemma letter_eq_iff : ∀ (m : Fin 32) (l : Fin 26),
    Char.ofNat (0x40 + m) = EisaId.letter l ↔ (m : Nat) = l + 1 := by
  decide

/-- The characters of an integer, by its digits to the base 32 and 16. -/
lemma eisaId_ofNat {n : Nat} (hn : n < 2 ^ 32) : eisaId (.ofNat n) =
    [Char.ofNat (0x40 + n / 2 ^ 26 % 32), Char.ofNat (0x40 + n / 2 ^ 21 % 32),
      Char.ofNat (0x40 + n / 2 ^ 16 % 32)] ++ upperHexPadded 4 (n % 2 ^ 16) := by
  have hlt : n < 2 ^ 64 := hn.trans (by decide)
  have hn' := UInt64.toNat_ofNat_of_lt' hlt
  have hletter (k : UInt64) :
      ((UInt64.ofNat n >>> k) &&& 0x1F).toNat = n / 2 ^ (k.toNat % 64) % 32 := by
    rw [UInt64.toNat_and, UInt64.toNat_shiftRight, hn', Nat.shiftRight_eq_div_pow]
    exact Nat.and_two_pow_sub_one_eq_mod _ 5
  have hdigits : (UInt64.ofNat n &&& 0xFFFF).toNat = n % 2 ^ 16 := by
    rw [UInt64.toNat_and, hn']
    exact Nat.and_two_pow_sub_one_eq_mod _ 16
  simp only [eisaId, hletter, hdigits]
  rfl

namespace EisaId

variable {id : EisaId}

lemma letters_lt (id : EisaId) : id.letters < 2 ^ 15 := by
  rw [letters]
  omega

lemma digits_lt (id : EisaId) : id.digits < 2 ^ 16 := by
  rw [digits]
  omega

/-- An integer shows the text of the id exactly if its lower bits are those of the id. -/
lemma eisaId_eq_text_iff {n : Nat} (hn : n < 2 ^ 32) :
    String.ofList (eisaId (.ofNat n)) = id.text ↔ n % 2 ^ 31 = id.value := by
  have hletter (k : Nat) (l : Fin 26) :
      Char.ofNat (0x40 + n / 2 ^ k % 32) = letter l ↔ n / 2 ^ k % 32 = l + 1 :=
    letter_eq_iff ⟨n / 2 ^ k % 32, Nat.mod_lt _ (by decide)⟩ l
  have hdigit (m : Nat) (hm : m < 16) (d : Fin 16) : m.digitChar.toUpper = digit d ↔ m = d :=
    (digitChar_eq_iff ⟨m, hm⟩ d).trans Fin.ext_iff
  have hlt : n % 2 ^ 16 < 16 ^ 4 := Nat.mod_lt _ (by decide)
  rw [text, String.ofList_inj, eisaId_ofNat hn, upperHexPadded_four hlt]
  simp only [List.cons_append, List.nil_append, List.cons.injEq, and_true, hletter]
  rw [hdigit _ (by omega), hdigit _ (by omega), hdigit _ (by omega), hdigit _ (by omega)]
  rw [value, letters, digits]
  omega

lemma toNat_stored (id : EisaId) : id.stored.toNat = id.letters / 256 +
    256 * (id.letters % 256 + 256 * (id.digits / 256 + 256 * (id.digits % 256))) := by
  have hl := id.letters_lt
  have hd := id.digits_lt
  apply UInt32.toNat_ofNat_of_lt'
  show _ < 2 ^ 32
  omega

lemma leBytes_stored (id : EisaId) : leBytes 4 id.stored.toNat = id.bytes := by
  have hl := id.letters_lt
  have hd := id.digits_lt
  have hcons (k b m : Nat) (hb : b < 256) :
      leBytes (k + 1) (b + 256 * m) = UInt8.ofNat b :: leBytes k m := by
    have hbyte : UInt8.ofNat (b + 256 * m) = UInt8.ofNat b := by
      apply UInt8.toNat.inj
      rw [UInt8.toNat_ofNat', UInt8.toNat_ofNat', Nat.add_mul_mod_self_left]
    have hrest : (b + 256 * m) / 256 = m := by omega
    rw [leBytes, hbyte, hrest]
  have hlast : leBytes 1 (id.digits % 256) = [UInt8.ofNat (id.digits % 256)] := rfl
  rw [toNat_stored, hcons _ _ _ (by omega), hcons _ _ _ (by omega), hcons _ _ _ (by omega), hlast]
  rfl

/-- The lower 31 bits of four bytes are the same in both orders exactly if the bytes are. -/
lemma horner_mod_eq_iff {b₀ b₁ b₂ b₃ : Nat} (h₀ : b₀ < 128) (h₁ : b₁ < 256) (h₂ : b₂ < 256)
    (h₃ : b₃ < 256) :
    (b₀ + 256 * (b₁ + 256 * (b₂ + 256 * b₃))) % 2 ^ 31 =
      (b₀ * 256 + b₁) * 2 ^ 16 + (b₂ * 256 + b₃) ↔ b₃ = b₀ ∧ b₂ = b₁ := by
  have hmod : (b₀ + 256 * (b₁ + 256 * (b₂ + 256 * b₃))) % 2 ^ 31 =
      b₀ + 256 * (b₁ + 256 * (b₂ + 256 * (b₃ % 128))) := by omega
  rw [hmod]
  constructor
  · intro h
    have hends : b₃ = b₀ := by omega
    refine ⟨hends, ?_⟩
    omega
  · rintro ⟨rfl, rfl⟩
    rw [Nat.mod_eq_of_lt h₀]
    omega

/-- The bytes are read in the wrong order, which does not matter if they are the same from both
ends. -/
lemma stored_mod_iff (id : EisaId) :
    id.stored.toNat % 2 ^ 31 = id.value ↔ id.bytes.reverse = id.bytes := by
  have hl := id.letters_lt
  have hd := id.digits_lt
  have hbyte (m n : Nat) (hm : m < 256) (hn : n < 256) :
      UInt8.ofNat m = UInt8.ofNat n ↔ m = n := by
    rw [← UInt8.toNat_inj, UInt8.toNat_ofNat_of_lt' hm, UInt8.toNat_ofNat_of_lt' hn]
  have hletters : id.letters = id.letters / 256 * 256 + id.letters % 256 := by omega
  have hdigits : id.digits = id.digits / 256 * 256 + id.digits % 256 := by omega
  have hvalue : id.value = (id.letters / 256 * 256 + id.letters % 256) * 2 ^ 16 +
      (id.digits / 256 * 256 + id.digits % 256) := by
    rw [← hletters, ← hdigits]
    rfl
  rw [toNat_stored, hvalue, horner_mod_eq_iff (by omega) (by omega) (by omega) (by omega), bytes]
  simp only [List.reverse_cons, List.reverse_nil, List.nil_append, List.cons_append,
    List.cons.injEq, and_true]
  rw [hbyte _ _ (by omega) (by omega), hbyte _ _ (by omega) (by omega),
    hbyte _ _ (by omega) (by omega), hbyte _ _ (by omega) (by omega)]
  constructor
  · rintro ⟨hends, hmiddle⟩
    exact ⟨hends, hmiddle, hmiddle.symm, hends.symm⟩
  · rintro ⟨hends, hmiddle, -⟩
    exact ⟨hends, hmiddle⟩

lemma reads_bytes (id : EisaId) (p : AmlParser) :
    Reads p parseData (0x0C :: id.bytes) (.integer id.stored.toUInt64) := by
  rw [← leBytes_stored]
  exact reads_parseData (.dword id.stored) trivial

lemma asString_stored_iff (id : EisaId) :
    (AmlValue.integer id.stored.toUInt64).asString = some id.text ↔
      id.bytes.reverse = id.bytes := by
  have hofNat : id.stored.toUInt64 = .ofNat id.stored.toNat := by
    apply UInt64.toNat.inj
    simp
  rw [AmlValue.asString, Option.some_inj, hofNat, eisaId_eq_text_iff id.stored.toNat_lt]
  exact id.stored_mod_iff

/-! ### Host bridges -/

/-- `PNP0A08` -/
def pciExpressBridge : EisaId :=
  ⟨15, 13, 15, ⟨0, by decide⟩, ⟨10, by decide⟩, ⟨0, by decide⟩, ⟨8, by decide⟩⟩

/-- `PNP0A03` -/
def pciBridge : EisaId :=
  ⟨15, 13, 15, ⟨0, by decide⟩, ⟨10, by decide⟩, ⟨0, by decide⟩, ⟨3, by decide⟩⟩

example : pciExpressBridge.text = "PNP0A08" ∧ pciBridge.text = "PNP0A03" := by decide

/-- Neither of the two ids is recognised. -/
lemma classify_bridge {props : DeviceProperties} (h : id = pciExpressBridge ∨ id = pciBridge)
    (hhid : props.hid = (AmlValue.integer id.stored.toUInt64).asString) :
    props.classify = (.other, .regular) := by
  rcases h with rfl | rfl
  · have hread : props.hid = some "B@JD041" := hhid.trans (by decide)
    simp [DeviceProperties.classify, hread]
  · have hread : props.hid = some "@XJD041" := hhid.trans (by decide)
    simp [DeviceProperties.classify, hread]

/-- The text comes back exactly for the ids whose bytes are the same from both ends; those of host
bridges are not. -/
theorem parseData_asString_iff {p : AmlParser} (h : p.At (0x0C :: id.bytes)) :
    ∃ value, parseData.run p = (.ok value, p.advance 5) ∧
      (value.asString = some id.text ↔ id.bytes.reverse = id.bytes) ∧
      ∀ props : DeviceProperties, id = pciExpressBridge ∨ id = pciBridge →
        props.hid = value.asString → props.classify = (.other, .regular) :=
  ⟨_, id.reads_bytes p h, id.asString_stored_iff, fun _ => classify_bridge⟩

/-- `PNPD041` has the bytes 41, D0, D0, 41. -/
theorem parseData_asString_PNPD041 :
    let id : EisaId := ⟨15, 13, 15, 13, 0, 4, 1⟩
    let p := AmlParser.new (0x0C :: id.bytes)
    p.At (0x0C :: id.bytes) ∧ ∃ value, parseData.run p = (.ok value, p.advance 5) ∧
      value.asString = some "PNPD041" := by
  intro id p
  have h : p.At (0x0C :: id.bytes) := ⟨Nat.zero_le _, List.prefix_refl _⟩
  obtain ⟨value, hrun, hiff, -⟩ := parseData_asString_iff h
  exact ⟨h, value, hrun, hiff.mpr (by decide)⟩

/-- A host bridge is not recognised by its `_HID`. -/
theorem parseData_asString_bridge :
    let p := AmlParser.new (0x0C :: pciExpressBridge.bytes)
    ∃ value, parseData.run p = (.ok value, p.advance 5) ∧ value.asString = some "B@JD041" ∧
      pciExpressBridge.text = "PNP0A08" ∧
      ({ hid := value.asString } : DeviceProperties).classify = (.other, .regular) := by
  intro p
  have hrun := pciExpressBridge.reads_bytes p ⟨Nat.zero_le _, List.prefix_refl _⟩
  exact ⟨_, hrun, by decide, by decide, classify_bridge (.inl rfl) rfl⟩

end EisaId

end Mars.Aml
