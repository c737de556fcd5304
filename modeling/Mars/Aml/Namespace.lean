import Mars.Aml.Device
import Mars.Aml.RoundTrip
import Mathlib.Data.List.Infix

/-!
# The AML namespace

A name in a scope is resolved to an absolute path: `\` restarts at the root and `^` goes up by one
segment. The tree builder does not resolve names. It displays them and joins the texts with dots,
prefixes included; but the text that results determines the absolute path.
-/

namespace Mars.Aml

open NameSeg

/-! ### Absolute paths -/

def NameBody.segs : NameBody → List NameSeg
  | .null         => []
  | .single s     => [s]
  | .dual s t     => [s, t]
  | .multi segs _ => segs

def NamePrefix.apply (path : List NameSeg) : NamePrefix → List NameSeg
  | .root   => []
  | .parent => path.dropLast

/-- The absolute path of a name in the scope with the given path. -/
def NamePath.resolve (scope : List NameSeg) (n : NamePath) : List NameSeg :=
  n.prefixes.foldl NamePrefix.apply scope ++ n.body.segs

def NamePath.text (n : NamePath) : String := AmlNamePath.toString { raw := n.encode }

/-! ### Displayed segments -/

def NameSeg.display (s : NameSeg) : List Char := fmtSeg s.encode

lemma fmtByte_of_isNameChar {b : UInt8} (h : isNameChar b) :
    UInt8.ofNat (fmtByte b).toNat = b ∧ fmtByte b ≠ '\\' ∧ fmtByte b ≠ '^' ∧ fmtByte b ≠ '.' := by
  have hall : ∀ n < 256, isNameChar (UInt8.ofNat n) →
      UInt8.ofNat (fmtByte (UInt8.ofNat n)).toNat = UInt8.ofNat n ∧
        fmtByte (UInt8.ofNat n) ≠ '\\' ∧ fmtByte (UInt8.ofNat n) ≠ '^' ∧
        fmtByte (UInt8.ofNat n) ≠ '.' := by decide +kernel
  have hb := hall b.toNat b.toNat_lt
  rw [UInt8.ofNat_toNat] at hb
  exact hb h

lemma NameSeg.isNameChar_of_mem {s : NameSeg} {b : UInt8} (h : b ∈ s.encode) : isNameChar b := by
  obtain ⟨h₁, h₂, h₃⟩ := s.tail_ok
  simp only [encode, List.mem_cons, List.not_mem_nil, or_false] at h
  rcases h with rfl | rfl | rfl | rfl
  · simp [isNameChar, s.lead_ok]
  · exact h₁
  · exact h₂
  · exact h₃

/-- The characters with a meaning in a path do not occur in a segment. -/
lemma NameSeg.ne_of_mem_display {s : NameSeg} {c : Char} (h : c ∈ s.display) :
    c ≠ '\\' ∧ c ≠ '^' ∧ c ≠ '.' := by
  obtain ⟨b, hb, rfl⟩ := List.mem_map.mp h
  exact (fmtByte_of_isNameChar (isNameChar_of_mem (List.mem_of_mem_take hb))).2

lemma actualLen_pos (seg : List UInt8) (n : Nat) : 0 < actualLen seg (n + 1) := by
  induction n with
  | zero => simp [actualLen]
  | succ n ih =>
    rw [actualLen]
    split_ifs with h h'
    · exact Nat.one_pos
    · exact ih
    · exact Nat.succ_pos _

lemma NameSeg.display_ne_nil (s : NameSeg) : s.display ≠ [] := by
  have hpos : actualLen s.encode 4 ≠ 0 := (actualLen_pos s.encode 3).ne'
  have hne : s.encode ≠ [] := List.cons_ne_nil _ _
  simp [display, fmtSeg, hpos, hne]

lemma actualLen_le (seg : List UInt8) (n : Nat) : actualLen seg n ≤ n := by
  induction n with
  | zero => exact le_rfl
  | succ n ih =>
    rw [actualLen]
    split_ifs
    · exact Nat.succ_pos n
    · exact Nat.le_succ_of_le ih
    · exact le_rfl

/-- Only underscores are left out. -/
lemma take_actualLen (seg : List UInt8) (n : Nat) : seg.take n =
    seg.take (actualLen seg n) ++ List.replicate (n - actualLen seg n) 0x5F := by
  induction n with
  | zero => rfl
  | succ n ih =>
    rw [actualLen]
    split_ifs with h hzero
    · subst hzero
      simp
    · have hle := actualLen_le seg n
      rw [List.take_add_one, h, Nat.succ_sub hle, List.replicate_succ', ← List.append_assoc, ← ih]
      rfl
    · simp

lemma NameSeg.encode_eq_display (s : NameSeg) : s.encode =
    s.display.map (fun c => UInt8.ofNat c.toNat) ++ List.replicate (4 - s.display.length) 0x5F := by
  have hle := actualLen_le s.encode 4
  have hlen : s.display.length = actualLen s.encode 4 := by
    simp only [display, fmtSeg, List.length_map, List.length_take]
    exact Nat.min_eq_left hle
  have hchars : s.display.map (fun c => UInt8.ofNat c.toNat) =
      s.encode.take (actualLen s.encode 4) := by
    rw [display, fmtSeg, List.map_map]
    conv_rhs => rw [← List.map_id (List.take _ _)]
    apply List.map_congr_left
    intro b hb
    exact (fmtByte_of_isNameChar (isNameChar_of_mem (List.mem_of_mem_take hb))).1
  rw [hlen, hchars]
  exact take_actualLen s.encode 4

lemma NameSeg.display_injective : Function.Injective display := by
  intro s t h
  have hst : s.encode = t.encode := by rw [s.encode_eq_display, t.encode_eq_display, h]
  cases s
  cases t
  simpa [encode] using hst

/-! ### Reading a text -/

/-- The segments up to the current one, which may be empty. -/
def segsRead (s : List (List Char) × List Char) : List (List Char) :=
  if s.2 = [] then s.1 else s.1 ++ [s.2]

/-- A text is read from left to right. The state is the segments before the current one, and the
current one. -/
def readChar (s : List (List Char) × List Char) (c : Char) : List (List Char) × List Char :=
  if c = '\\' then ([], [])
  else if c = '^' then ((segsRead s).dropLast, [])
  else if c = '.' then (segsRead s, [])
  else (s.1, s.2 ++ [c])

/-- The displayed path that a text stands for. -/
def readPath (text : String) : List (List Char) := segsRead (text.toList.foldl readChar ([], []))

variable {P : List (List Char)} {cur : List Char}

lemma foldl_readChar_display (s : NameSeg) :
    s.display.foldl readChar (P, cur) = (P, cur ++ s.display) := by
  have hordinary (cs : List Char) (h : ∀ c ∈ cs, c ≠ '\\' ∧ c ≠ '^' ∧ c ≠ '.') :
      ∀ cur, cs.foldl readChar (P, cur) = (P, cur ++ cs) := by
    induction cs with
    | nil => simp
    | cons c cs ih =>
      intro cur
      obtain ⟨hroot, hparent, hdot⟩ := h c (.head _)
      rw [List.foldl_cons, readChar, if_neg hroot, if_neg hparent, if_neg hdot,
        ih fun c hc => h c (.tail _ hc)]
      simp
  exact hordinary s.display (fun c => ne_of_mem_display) cur

lemma segsRead_fmtSegs (pre rest : List NameSeg) (s : List (List Char) × List Char)
    (hs : pre = [] → s.2 = []) :
    segsRead ((fmtSegs ((pre ++ rest).flatMap encode) rest.length pre.length).foldl
      readChar s) = segsRead s ++ rest.map display := by
  induction rest generalizing pre s with
  | nil => simp [fmtSegs]
  | cons r rest ih =>
    have hdrop : (((pre ++ r :: rest).flatMap encode).drop (pre.length * 4)).take 4 =
        r.encode := by
      rw [List.flatMap_append, ← length_flatMap_encode, List.drop_left, List.flatMap_cons]
      rfl
    have hlen : ¬ ((pre ++ r :: rest).flatMap encode).length < pre.length * 4 + 4 := by
      rw [length_flatMap_encode, List.length_append, List.length_cons]
      omega
    -- the dot in front of the segment ends the one before it
    have hdot : (if 0 < pre.length then ['.'] else []).foldl readChar s = (segsRead s, []) := by
      split_ifs with hpre
      · simp [readChar]
      · have hnil := hs (List.length_eq_zero_iff.mp (Nat.eq_zero_of_not_pos hpre))
        simp only [List.foldl_nil, segsRead, hnil, if_true]
        exact Prod.ext rfl hnil
    have hnext := ih (pre ++ [r]) (segsRead s, r.display) (by simp)
    rw [List.append_assoc, List.singleton_append, List.length_append, List.length_singleton]
      at hnext
    rw [List.length_cons, fmtSegs]
    rw [if_neg hlen, hdrop, List.foldl_append, List.foldl_append, hdot]
    rw [show fmtSeg r.encode = r.display from rfl, foldl_readChar_display, List.nil_append, hnext]
    simp [segsRead, r.display_ne_nil]

lemma fmtName_encode (b : NameBody) :
    fmtName b.encode = fmtSegs (b.segs.flatMap encode) b.segs.length 0 := by
  cases b with
  | null => rfl
  | single s =>
    obtain ⟨-, h₀, h₁, h₂⟩ := isLeadNameChar_ne s.lead_ok
    simp [NameBody.encode, encode, fmtName, h₀, h₁, h₂, NameBody.segs]
  | dual s t => simp [NameBody.encode, fmtName, NameBody.segs]
  | multi segs hlen =>
    have hcount : (UInt8.ofNat segs.length).toNat = segs.length := by
      simpa using Nat.mod_eq_of_lt hlen
    simp [NameBody.encode, fmtName, NameBody.segs, hcount]

def NamePrefix.display : NamePrefix → Char
  | .root   => '\\'
  | .parent => '^'

lemma fmtPrefixes_encode (ps : List NamePrefix) (b : NameBody) :
    fmtPrefixes (ps.map NamePrefix.encode ++ b.encode) = (ps.map NamePrefix.display, b.encode) := by
  induction ps with
  | nil =>
    obtain ⟨c, r, hb, hc⟩ := b.encode_head
    simp only [isNamePrefix, Bool.or_eq_false_iff, beq_eq_false_iff_ne] at hc
    simp [hb, fmtPrefixes, hc.1, hc.2]
  | cons p ps ih => cases p <;> simp [fmtPrefixes, NamePrefix.encode, NamePrefix.display, ih]

lemma NamePath.toList_text (n : NamePath) : n.text.toList =
    n.prefixes.map NamePrefix.display ++ fmtSegs (n.body.segs.flatMap NameSeg.encode)
      n.body.segs.length 0 := by
  rw [NamePath.text, AmlNamePath.toString, AmlNamePath.fmt, NamePath.encode, fmtPrefixes_encode,
    fmtName_encode]
  simp

/-- The prefixes are the leading characters that no segment has. -/
lemma NamePath.takeWhile_text (n : NamePath) :
    n.text.toList.takeWhile (fun c => c == '\\' || c == '^') =
      n.prefixes.map NamePrefix.display := by
  have hsegs : (fmtSegs (n.body.segs.flatMap NameSeg.encode) n.body.segs.length 0).takeWhile
      (fun c => c == '\\' || c == '^') = [] := by
    cases n.body.segs with
    | nil => rfl
    | cons s rest =>
      obtain ⟨c, cs, hc⟩ := List.exists_cons_of_ne_nil s.display_ne_nil
      obtain ⟨hroot, hparent, -⟩ := NameSeg.ne_of_mem_display (s := s) (hc ▸ List.mem_cons_self)
      have hseg : fmtSeg [s.lead, s.c₁, s.c₂, s.c₃] = c :: cs := hc
      rw [List.length_cons, fmtSegs, if_neg (by simp [NameSeg.encode])]
      simp [NameSeg.encode, hseg, hroot, hparent]
  rw [n.toList_text, List.takeWhile_append_of_pos, hsegs, List.append_nil]
  intro c hc
  obtain ⟨p, -, rfl⟩ := List.mem_map.mp hc
  cases p <;> rfl

lemma NamePrefix.display_injective : Function.Injective display := by
  intro p q h
  cases p <;> cases q <;> first | rfl | cases h

lemma foldl_readChar_prefixes (ps : List NamePrefix) (scope : List NameSeg) :
    (ps.map NamePrefix.display).foldl readChar (scope.map display, []) =
      ((ps.foldl NamePrefix.apply scope).map display, []) := by
  induction ps generalizing scope with
  | nil => rfl
  | cons p ps ih =>
    rw [List.map_cons, List.foldl_cons, List.foldl_cons, ← ih]
    cases p with
    | root => rfl
    | parent => simp [NamePrefix.display, readChar, segsRead, NamePrefix.apply, List.map_dropLast]

/-- Reading the text of a name resolves the name. -/
lemma segsRead_text (scope : List NameSeg) (n : NamePath) :
    segsRead (n.text.toList.foldl readChar (scope.map display, [])) =
      (n.resolve scope).map display := by
  have hsegs := segsRead_fmtSegs [] n.body.segs
    ((n.prefixes.foldl NamePrefix.apply scope).map display, []) (fun _ => rfl)
  rw [n.toList_text, List.foldl_append, foldl_readChar_prefixes]
  refine hsegs.trans ?_
  simp [segsRead, NamePath.resolve]

/-- The text of a name tells its prefixes and its segments apart from all others, however the
segments are encoded, and the bytes of a name are read back in front of any others. -/
theorem NamePath.text_eq_iff (n m : NamePath) :
    (n.text = m.text ↔ n.prefixes = m.prefixes ∧ n.body.segs = m.body.segs) ∧
      ∀ before rest : List UInt8,
        readNamePath.run { bytes := before ++ (n.encode ++ rest), cursor := before.length } =
          (.ok { raw := n.encode },
            { bytes := before ++ (n.encode ++ rest)
              cursor := before.length + n.encode.length }) := by
  refine ⟨⟨?_, ?_⟩, ?_⟩
  · intro h
    have hprefixes : n.prefixes = m.prefixes := by
      have hmap := n.takeWhile_text
      rw [h, m.takeWhile_text] at hmap
      exact List.map_injective_iff.2 NamePrefix.display_injective hmap.symm
    have hresolve := segsRead_text [] n
    rw [h, segsRead_text, NamePath.resolve, NamePath.resolve, hprefixes] at hresolve
    have hpath := List.map_injective_iff.2 display_injective hresolve
    exact ⟨hprefixes, (List.append_cancel_left hpath).symm⟩
  · rintro ⟨hprefixes, hsegs⟩
    apply String.toList_injective
    rw [n.toList_text, m.toList_text, hprefixes, hsegs]
  · intro before rest
    apply reads_readNamePath n
    simp [ByteCursor.At, ByteCursor.rest]

lemma foldl_readChar_dropWhile (cs : List Char) :
    (cs.dropWhile (· == '.')).foldl readChar (P, []) = cs.foldl readChar (P, []) := by
  induction cs with
  | nil => rfl
  | cons c cs ih =>
    by_cases hc : c = '.'
    · subst hc
      simpa [readChar, segsRead] using ih
    · simp [hc]

lemma readPath_joinPath {parent : String} {scope : List NameSeg}
    (h : readPath parent = scope.map display) (n : NamePath) :
    readPath (TreeBuilder.joinPath parent n.text) = (n.resolve scope).map display := by
  rw [← segsRead_text, TreeBuilder.joinPath]
  split_ifs with hroot hparent
  · -- the name starts at the root, whatever has been read before
    obtain ⟨cs, hcs⟩ : ∃ cs, n.text.toList = '\\' :: cs := by
      cases htext : n.text.toList with
      | nil => simp [htext] at hroot
      | cons c cs =>
        rw [htext] at hroot
        cases hroot
        exact ⟨cs, rfl⟩
    rw [readPath, hcs]
    rfl
  · have hscope : scope.map display = [] := by
      rw [← h]
      rcases hparent with rfl | rfl <;> decide +kernel
    rw [hscope, ← foldl_readChar_dropWhile]
    simp [readPath, readChar]
  · rw [← h, ← foldl_readChar_dropWhile]
    simp [readPath, readChar]

end Mars.Aml
