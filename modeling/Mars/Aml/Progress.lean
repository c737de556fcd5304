import Mars.Aml.Checked

/-!
# Progress of the AML parser

Every function of the parser stays inside its slice and moves forward, whether it succeeds or
fails; the step back of `parse_data_object` only returns the byte just read. So `parse_next`
consumes at least its opcode, and the body of a scope or a device lies behind it.
-/

namespace Mars.Aml

open Reader Forward

/-! ### Moving forward -/

variable {p : AmlParser} {α : Type}

lemma run_readU8_some {b : UInt8} (h : p.bytes[p.cursor]? = some b) :
    readU8.run p = (.ok b, p.advance 1) := by
  simp only [readU8, h]

lemma run_readU8_none (h : p.bytes[p.cursor]? = none) :
    readU8.run p = (.error "buffer underflow while taking bytes", p) := by
  simp only [readU8, h]

lemma forward_readU8 : Forward readU8 := by
  intro p hp
  rcases hb : p.bytes[p.cursor]? with _ | b
  · rw [run_readU8_none hb]
    exact .refl hp
  · rw [run_readU8_some hb]
    obtain ⟨hlt, -⟩ := List.getElem?_eq_some_iff.mp hb
    exact ByteCursor.before_advance hlt

lemma forward_takeBytes (len : Nat) : Forward (takeBytes len) := by
  intro p hp
  by_cases hlen : p.cursor + len ≤ p.bytes.length
  · simp only [takeBytes, if_pos hlen]
    exact ByteCursor.before_advance hlen
  · simp only [takeBytes, if_neg hlen]
    exact .refl hp

lemma forward_readLe (width : Nat) : Forward (readLe width) :=
  (forward_takeBytes width).bind fun _ => .pure _

lemma forward_readPkgLengthBytes (n : Nat) :
    ∀ i length, Forward (readPkgLengthBytes n i length) := by
  induction n with
  | zero => exact fun _ _ => .pure _
  | succ n ih => exact fun _ _ => forward_readU8.bind fun _ => ih _ _

lemma forward_readPkgLength : Forward readPkgLength :=
  forward_readU8.bind fun _ => .ite (.pure _) (forward_readPkgLengthBytes _ _ _)

lemma countNamePrefixes_le (bytes : List UInt8) : countNamePrefixes bytes ≤ bytes.length := by
  induction bytes with
  | nil => exact Nat.le_refl 0
  | cons ch chs ih =>
    simp only [countNamePrefixes, List.length_cons]
    split
    · exact Nat.succ_le_succ ih
    · exact Nat.zero_le _

lemma forward_skipNamePrefixes : Forward skipNamePrefixes := by
  intro p hp
  have hle := countNamePrefixes_le p.rest
  rw [ByteCursor.length_rest] at hle
  exact ByteCursor.before_advance (by omega)

lemma forward_readNameBody : Forward readNameBody :=
  forward_readU8.bind fun _ =>
    .ite (.pure _) <| .ite ((forward_takeBytes 8).bind fun _ => .pure _) <|
      .ite (forward_readU8.bind fun _ => (forward_takeBytes _).bind fun _ => .pure _)
        ((forward_takeBytes 3).bind fun _ => .pure _)

lemma forward_sliceFrom (start : Nat) (msg : String) : Forward (sliceFrom start msg) :=
  fun p hp => okOr _ msg p hp

lemma forward_readNamePath : Forward readNamePath :=
  position.bind fun _ => forward_skipNamePrefixes.bind fun _ =>
    forward_readNameBody.bind fun _ => (forward_sliceFrom _ _).bind fun _ => .pure _

lemma forward_takePkgBody (pkgStart pkgLen : Nat) (msg : String) :
    Forward (takePkgBody pkgStart pkgLen msg) :=
  Forward.position.bind fun _ => (Forward.okOr _ _).bind fun _ => forward_takeBytes _

lemma forward_readToNul (fuel : Nat) : Forward (readToNul fuel) := by
  induction fuel with
  | zero => exact .fail _
  | succ fuel ih => exact forward_readU8.bind fun _ => .ite ih (.pure _)

lemma forward_stringFrom (start : Nat) : Forward (stringFrom start) :=
  fun p hp => okOr _ _ p hp

/-- A package header, its size object and the body. -/
lemma forward_package {β : Type} {size : Reader α} (hsize : Forward size) (msg : String)
    (f : List UInt8 → β) :
    Forward (do
      let pkgStart ← position
      let pkgLen ← readPkgLength
      let _ ← size
      return f (← takePkgBody pkgStart pkgLen msg)) :=
  position.bind fun _ => forward_readPkgLength.bind fun _ => hsize.bind fun _ =>
    (forward_takePkgBody _ _ _).bind fun _ => .pure _

lemma run_stepBack_bind (f : Unit → Reader α) (p : AmlParser) :
    (stepBack >>= f).run (p.advance 1) = (f ()).run p := rfl

/-- The reader moves forward, or does so once it has returned the byte just read. -/
def Resumes {α : Type} (m : Reader α) : Prop :=
  Forward m ∨ ∃ m' : Reader α, Forward m' ∧ m = stepBack >>= fun _ => m'

lemma Resumes.ite {c : Prop} [Decidable c] {m m' : Reader α} (h : Resumes m) (h' : Resumes m') :
    Resumes (if c then m else m') := by
  split
  · exact h
  · exact h'

lemma forward_opcode {f : UInt8 → Reader α} (hf : ∀ op, Resumes (f op)) :
    Forward (readU8 >>= f) := by
  intro p hp
  rcases hb : p.bytes[p.cursor]? with _ | op
  · rw [run_bind_error (run_readU8_none hb)]
    exact .refl hp
  · rw [run_bind_ok (run_readU8_some hb)]
    have hop := forward_readU8.before hp (run_readU8_some hb)
    rcases hf op with h | ⟨m, hm, h⟩
    · exact hop.trans (h _ hop.inside')
    · rw [h, run_stepBack_bind]
      exact hm p hp

lemma forward_parseDataObject (fuel : Nat) : Forward (parseDataObject fuel) := by
  induction fuel with
  | zero => exact .fail _
  | succ fuel ih =>
    refine forward_opcode fun op => ?_
    refine .ite (.inl (.pure _)) <| .ite (.inl (.pure _)) <| .ite (.inl (.pure _)) <|
      .ite (.inl (forward_readU8.bind fun _ => .pure _)) <|
      .ite (.inl ((forward_readLe 2).bind fun _ => .pure _)) <|
      .ite (.inl ((forward_readLe 4).bind fun _ => .pure _)) <|
      .ite (.inl ((forward_readLe 8).bind fun _ => .pure _)) <|
      .ite (.inl ?_) <| .ite (.inl (forward_package ih _ _)) <|
      .ite (.inl (forward_package forward_readU8 _ _)) <| .ite (.inl (forward_package ih _ _)) <|
      .ite (.inr ⟨_, forward_readNamePath.bind fun _ => .pure _, rfl⟩) <|
      .ite (.inl (forward_readU8.bind fun _ => .pure _)) (.inl (.pure _))
    exact position.bind fun _ => remaining.bind fun _ =>
      (forward_readToNul _).bind fun _ => (forward_stringFrom _).bind fun _ => .pure _

lemma forward_parseData : Forward parseData :=
  remaining.bind fun _ => forward_parseDataObject _

lemma forward_parseExt : Forward parseExt := by
  refine forward_readU8.bind fun _ => .ite ?_ <| .ite ?_ <| .ite ?_ (.pure _)
  · exact forward_readNamePath.bind fun _ => forward_readU8.bind fun _ =>
      forward_parseData.bind fun _ => forward_parseData.bind fun _ => .pure _
  · exact position.bind fun _ => forward_readPkgLength.bind fun _ =>
      forward_readNamePath.bind fun _ => forward_readU8.bind fun _ =>
      (forward_takePkgBody _ _ _).bind fun _ => .pure _
  · exact position.bind fun _ => forward_readPkgLength.bind fun _ =>
      forward_readNamePath.bind fun _ => (forward_takePkgBody _ _ _).bind fun _ => .pure _

lemma forward_parseTerm (opcode : UInt8) : Forward (parseTerm opcode) := by
  refine .ite ?_ <| .ite ?_ <| .ite ?_ <| .ite forward_parseExt (.pure _)
  · exact position.bind fun _ => forward_readPkgLength.bind fun _ =>
      forward_readNamePath.bind fun _ => (forward_takePkgBody _ _ _).bind fun _ => .pure _
  · exact forward_readNamePath.bind fun _ => forward_parseData.bind fun _ => .pure _
  · exact position.bind fun _ => forward_readPkgLength.bind fun _ =>
      forward_readNamePath.bind fun _ => forward_readU8.bind fun _ =>
      (forward_takePkgBody _ _ _).bind fun _ => .pure _

/-! ### The term behind an opcode -/

variable {q : AmlParser}

lemma parseNext_of_rest (h : p.rest ≠ []) :
    ∃ opcode, p.bytes[p.cursor]? = some opcode ∧
      parseNext.run p = (parseTerm opcode >>= fun term => pure (some term)).run (p.advance 1) := by
  have hlt : p.cursor < p.bytes.length := by
    rw [Ne, ByteCursor.rest_eq_nil_iff] at h
    omega
  have hb := List.getElem?_eq_getElem hlt
  refine ⟨_, hb, ?_⟩
  have hne : ¬isEmpty p = true := by rwa [isEmpty_iff]
  show (if isEmpty p then _ else parseOpcode.run p) = _
  rw [if_neg hne]
  exact run_bind_ok (run_readU8_some hb)

/-- `parse_next` reports the end exactly when no byte remains. -/
lemma parseNext_eq_none_iff (p : AmlParser) : (parseNext.run p).1 = .ok none ↔ p.rest = [] := by
  constructor
  · intro h
    by_contra hne
    obtain ⟨opcode, -, hrun⟩ := parseNext_of_rest hne
    rw [hrun] at h
    rcases hterm : (parseTerm opcode).run (p.advance 1) with ⟨e | term, q⟩
    · rw [run_bind_error hterm] at h
      cases h
    · rw [run_bind_ok hterm] at h
      cases h
  · intro h
    rw [parseNext_nil h]

/-- Unless it is at the end, `parse_next` consumes its opcode and stays inside the slice,
whether it succeeds or fails. -/
lemma parseNext_before {r : Except String (Option AmlTerm)} (h : p.rest ≠ [])
    (hrun : parseNext.run p = (r, q)) : (p.advance 1).Before q := by
  obtain ⟨opcode, hb, hterm⟩ := parseNext_of_rest h
  obtain ⟨hlt, -⟩ := List.getElem?_eq_some_iff.mp hb
  rw [hterm] at hrun
  exact ((forward_parseTerm opcode).bind fun _ => .pure _).before hlt hrun

/-! ### The contents of a scope or a device -/

variable {c : AmlParser}

/-- The parser of the contents that a term hands out. -/
def AmlTerm.contents? : AmlTerm → Option AmlParser
  | .scope _ contents | .device _ contents => some contents
  | _ => none

/-- A fresh parser `c` on a part of the slice that a reader consumed between `p` and `q`. -/
structure Encloses (p q c : AmlParser) : Prop where
  fresh : c.cursor = 0
  infix_bytes : c.bytes <:+: p.bytes
  length_le : p.cursor + c.bytes.length ≤ q.cursor

lemma Encloses.of_before {p' : AmlParser} (h : Encloses p' q c) (hp : p.Before p') :
    Encloses p q c where
  fresh := h.fresh
  infix_bytes := hp.bytes_eq ▸ h.infix_bytes
  length_le := Nat.le_trans (Nat.add_le_add_right hp.le _) h.length_le

lemma run_takeBytes_ok {len : Nat} {body : List UInt8} (h : (takeBytes len).run p = (.ok body, q)) :
    p.cursor + len ≤ p.bytes.length ∧ body = (p.bytes.drop p.cursor).take len ∧
      q = p.advance len := by
  by_cases hlen : p.cursor + len ≤ p.bytes.length
  · simp only [takeBytes, if_pos hlen] at h
    cases h
    exact ⟨hlen, rfl, rfl⟩
  · simp only [takeBytes, if_neg hlen] at h
    cases h

/-- The body of a package is enclosed by what the package reads. -/
lemma encloses_takePkgBody {pkgStart pkgLen : Nat} {msg : String} {body : List UInt8}
    (h : (takePkgBody pkgStart pkgLen msg).run p = (.ok body, q)) :
    Encloses p q (AmlParser.new body) := by
  obtain ⟨cursor, p₁, hp₁, h⟩ := ok_of_run_bind h
  cases hp₁
  obtain ⟨len, p₂, hp₂, h⟩ := ok_of_run_bind h
  have hp : p₂ = p := by
    have := congrArg Prod.snd hp₂
    split at this
    · exact this.symm
    · exact this.symm
  obtain ⟨hlen, rfl, rfl⟩ := run_takeBytes_ok h
  rw [hp] at hlen ⊢
  refine ⟨rfl, ?_, ?_⟩
  · exact (List.take_prefix _ _).isInfix.trans (List.drop_suffix _ _).isInfix
  · simp only [AmlParser.new, List.length_take, List.length_drop, ByteCursor.advance_cursor]
    omega

variable {t : AmlTerm}

/-- A package with a name, which is what scopes and devices are. -/
lemma encloses_package {term : AmlNamePath → AmlParser → AmlTerm} {msg : String}
    (hp : p.cursor ≤ p.bytes.length) (h : Reader.run (do
      let pkgStart ← position
      let pkgLen ← readPkgLength
      let name ← readNamePath
      let body ← takePkgBody pkgStart pkgLen msg
      return term name (AmlParser.new body)) p = (.ok t, q)) :
    ∃ name c, t = term name c ∧ Encloses p q c := by
  obtain ⟨pkgStart, p₁, hp₁, h⟩ := ok_of_run_bind h
  obtain ⟨pkgLen, p₂, hp₂, h⟩ := ok_of_run_bind h
  obtain ⟨name, p₃, hp₃, h⟩ := ok_of_run_bind h
  obtain ⟨body, p₄, hp₄, h⟩ := ok_of_run_bind h
  cases h
  have h₁ := position.before hp hp₁
  have h₂ := h₁.trans (forward_readPkgLength.before h₁.inside' hp₂)
  have h₃ := h₂.trans (forward_readNamePath.before h₂.inside' hp₃)
  exact ⟨name, _, rfl, (encloses_takePkgBody hp₄).of_before h₃⟩

/-- Of the extended opcodes only a device hands out a parser. -/
lemma encloses_parseExt (hp : p.cursor ≤ p.bytes.length) (h : parseExt.run p = (.ok t, q))
    (hc : t.contents? = some c) : Encloses p q c := by
  obtain ⟨extOpc, p₁, hp₁, h⟩ := ok_of_run_bind h
  have h₁ := forward_readU8.before hp hp₁
  by_cases hdev : extOpc = 0x82
  · subst hdev
    have hpkg := encloses_package h₁.inside' h
    obtain ⟨name, c', rfl, henc⟩ := hpkg
    cases hc
    exact henc.of_before h₁
  · simp only [if_neg hdev] at h
    have hnone : t.contents? = none := by
      refine Returns.ite (P := fun t => t.contents? = none) ?_ (.ite ?_ ?_) _ _ _ h
      · exact .bind fun _ => .bind fun _ => .bind fun _ => .bind fun _ => .pure rfl
      · exact .bind fun _ => .bind fun _ => .bind fun _ => .bind fun _ => .bind fun _ => .pure rfl
      · exact .pure rfl
    rw [hnone] at hc
    cases hc

lemma encloses_parseTerm {opcode : UInt8} (hp : p.cursor ≤ p.bytes.length)
    (h : (parseTerm opcode).run p = (.ok t, q)) (hc : t.contents? = some c) : Encloses p q c := by
  unfold parseTerm at h
  by_cases hscope : opcode = 0x10
  · rw [if_pos hscope] at h
    have hpkg := encloses_package hp h
    obtain ⟨name, c', rfl, henc⟩ := hpkg
    cases hc
    exact henc
  · by_cases hext : opcode = 0x5B
    · subst hext
      exact encloses_parseExt hp h hc
    · simp only [if_neg hscope, if_neg hext] at h
      have hnone : t.contents? = none := by
        refine Returns.ite (P := fun t => t.contents? = none) ?_ (.ite ?_ ?_) _ _ _ h
        · exact .bind fun _ => .bind fun _ => .pure rfl
        · exact .bind fun _ => .bind fun _ => .bind fun _ => .bind fun _ => .bind fun _ =>
            .pure rfl
        · exact .pure rfl
      rw [hnone] at hc
      cases hc

/-- The contents of a scope or a device lie behind the opcode, inside what `parse_next`
consumed. -/
lemma encloses_parseNext (h : parseNext.run p = (.ok (some t), q)) (hc : t.contents? = some c) :
    Encloses (p.advance 1) q c := by
  have hne : p.rest ≠ [] := by
    intro hnil
    rw [parseNext_nil hnil] at h
    cases h
  obtain ⟨opcode, hb, hrun⟩ := parseNext_of_rest hne
  obtain ⟨hlt, -⟩ := List.getElem?_eq_some_iff.mp hb
  rw [hrun] at h
  obtain ⟨term, q', hterm, h⟩ := ok_of_run_bind h
  cases h
  exact encloses_parseTerm hlt hterm hc

end Mars.Aml
