import Mars.Aml.Parser

/-!
# The AML grammar

The terms the parser supports, as syntax trees, and their encoding in bytes. This is the
format itself, stated independently of the parser: every package records which of the legal
widths its length is encoded with, and the length counts its own encoding and everything
behind it, but not the opcode.
-/

namespace Mars.Aml

/-! ### Names -/

def isLeadNameChar (c : UInt8) : Bool := (0x41 ≤ c && c ≤ 0x5A) || c == 0x5F

def isNameChar (c : UInt8) : Bool := isLeadNameChar c || (0x30 ≤ c && c ≤ 0x39)

/-- A name segment: four characters, the first of them not a digit. -/
structure NameSeg where
  lead : UInt8
  c₁ : UInt8
  c₂ : UInt8
  c₃ : UInt8
  lead_ok : isLeadNameChar lead
  tail_ok : isNameChar c₁ ∧ isNameChar c₂ ∧ isNameChar c₃

def NameSeg.encode (s : NameSeg) : List UInt8 := [s.lead, s.c₁, s.c₂, s.c₃]

inductive NamePrefix where
  | root
  | parent

def NamePrefix.encode : NamePrefix → UInt8
  | .root   => 0x5C
  | .parent => 0x5E

/-- What follows the prefixes of a name path. -/
inductive NameBody where
  | null
  | single (s : NameSeg)
  | dual (s t : NameSeg)
  | multi (segs : List NameSeg) (count_ok : segs.length < 256)

def NameBody.encode : NameBody → List UInt8
  | .null         => [0x00]
  | .single s     => s.encode
  | .dual s t     => 0x2E :: (s.encode ++ t.encode)
  | .multi segs _ => 0x2F :: UInt8.ofNat segs.length :: segs.flatMap NameSeg.encode

structure NamePath where
  prefixes : List NamePrefix
  body : NameBody

def NamePath.encode (n : NamePath) : List UInt8 :=
  n.prefixes.map NamePrefix.encode ++ n.body.encode

/-- The name path `0x00` with no prefix, which reads as the integer zero in a data object. -/
def NamePath.isBareNull (n : NamePath) : Bool :=
  match n.prefixes, n.body with
  | [], .null => true
  | _, _      => false

/-! ### Package lengths -/

/-- Number of bytes that follow the lead byte of a package length. -/
inductive PkgWidth where
  | w0 | w1 | w2 | w3

def PkgWidth.extra : PkgWidth → Nat
  | .w0 => 0
  | .w1 => 1
  | .w2 => 2
  | .w3 => 3

/-- The value a package length takes in front of `n` bytes. -/
def PkgWidth.total (w : PkgWidth) (n : Nat) : Nat := 1 + w.extra + n

/-- Six bits in a lead byte of its own, else four bits and eight more a following byte. -/
def PkgWidth.Legal (w : PkgWidth) (n : Nat) : Prop :=
  match w with
  | .w0 => w.total n < 2 ^ 6
  | _   => w.total n < 2 ^ (4 + 8 * w.extra)

instance : (w : PkgWidth) → (n : Nat) → Decidable (w.Legal n)
  | .w0, n => Nat.decLt (PkgWidth.w0.total n) (2 ^ 6)
  | .w1, n => Nat.decLt (PkgWidth.w1.total n) (2 ^ 12)
  | .w2, n => Nat.decLt (PkgWidth.w2.total n) (2 ^ 20)
  | .w3, n => Nat.decLt (PkgWidth.w3.total n) (2 ^ 28)

/-- `k` bytes of `n`, the least significant first. -/
def leBytes : Nat → Nat → List UInt8
  | 0, _     => []
  | k + 1, n => UInt8.ofNat n :: leBytes k (n / 256)

def PkgWidth.encodeLength (w : PkgWidth) (n : Nat) : List UInt8 :=
  match w with
  | .w0 => [UInt8.ofNat (w.total n)]
  | _   => UInt8.ofNat (64 * w.extra + w.total n % 16) :: leBytes w.extra (w.total n / 16)

def encodePkg (w : PkgWidth) (contents : List UInt8) : List UInt8 :=
  w.encodeLength contents.length ++ contents

/-! ### Data objects -/

def utf8Bytes (s : String) : List UInt8 := s.toUTF8.data.toList

inductive DataObject where
  | zero
  | one
  | ones
  | byte (v : UInt8)
  | word (v : UInt16)
  | dword (v : UInt32)
  | qword (v : UInt64)
  | string (s : String)
  | buffer (w : PkgWidth) (size : DataObject) (data : List UInt8)
  | package (w : PkgWidth) (numElems : UInt8) (elems : List DataObject)
  | varPackage (w : PkgWidth) (numElems : DataObject) (elems : List DataObject)
  | nameRef (n : NamePath)

mutual
def DataObject.encode : DataObject → List UInt8
  | .zero                 => [0x00]
  | .one                  => [0x01]
  | .ones                 => [0xFF]
  | .byte v               => [0x0A, v]
  | .word v               => 0x0B :: leBytes 2 v.toNat
  | .dword v              => 0x0C :: leBytes 4 v.toNat
  | .qword v              => 0x0E :: leBytes 8 v.toNat
  | .string s             => 0x0D :: (utf8Bytes s ++ [0x00])
  | .buffer w size data   => 0x11 :: encodePkg w (size.encode ++ data)
  | .package w n elems    => 0x12 :: encodePkg w (n :: encodeElems elems)
  | .varPackage w n elems => 0x13 :: encodePkg w (n.encode ++ encodeElems elems)
  | .nameRef n            => n.encode

def encodeElems : List DataObject → List UInt8
  | []      => []
  | d :: ds => d.encode ++ encodeElems ds
end

mutual
/-- Strings hold no NUL, package lengths fit their width, a reference is not the bare null
name. -/
def DataObject.WellFormed : DataObject → Prop
  | .string s             => 0x00 ∉ utf8Bytes s
  | .buffer w size data   => w.Legal (size.encode ++ data).length ∧ size.WellFormed
  | .package w n elems    => w.Legal (n :: encodeElems elems).length ∧ ElemsWellFormed elems
  | .varPackage w n elems =>
    w.Legal (n.encode ++ encodeElems elems).length ∧ n.WellFormed ∧ ElemsWellFormed elems
  | .nameRef n            => n.isBareNull = false
  | _                     => True

def ElemsWellFormed : List DataObject → Prop
  | []      => True
  | d :: ds => d.WellFormed ∧ ElemsWellFormed ds
end

/-- The value a data object stands for. A package stands for its element bytes. -/
def DataObject.value : DataObject → AmlValue
  | .zero                 => .zero
  | .one                  => .one
  | .ones                 => .ones
  | .byte v               => .integer v.toUInt64
  | .word v               => .integer v.toUInt64
  | .dword v              => .integer v.toUInt64
  | .qword v              => .integer v
  | .string s             => .string s
  | .buffer _ _ data      => .buffer data
  | .package _ _ elems    => .buffer (encodeElems elems)
  | .varPackage _ _ elems => .buffer (encodeElems elems)
  | .nameRef n            => .namePath { raw := n.encode }

/-! ### Terms -/

inductive Term where
  | scope (w : PkgWidth) (name : NamePath) (body : List Term)
  | device (w : PkgWidth) (name : NamePath) (body : List Term)
  | name (name : NamePath) (value : DataObject)
  | method (w : PkgWidth) (name : NamePath) (flags : UInt8) (code : List UInt8)
  | opRegion (name : NamePath) (space : UInt8) (offset length : DataObject)
  | field (w : PkgWidth) (region : NamePath) (flags : UInt8) (body : List UInt8)

mutual
def Term.encode : Term → List UInt8
  | .scope w n body         => 0x10 :: encodePkg w (n.encode ++ encodeTerms body)
  | .device w n body        => 0x5B :: 0x82 :: encodePkg w (n.encode ++ encodeTerms body)
  | .name n v               => 0x08 :: (n.encode ++ v.encode)
  | .method w n flags code  => 0x14 :: encodePkg w (n.encode ++ flags :: code)
  | .opRegion n space o l   => 0x5B :: 0x80 :: (n.encode ++ space :: (o.encode ++ l.encode))
  | .field w n flags body   => 0x5B :: 0x81 :: encodePkg w (n.encode ++ flags :: body)

def encodeTerms : List Term → List UInt8
  | []      => []
  | t :: ts => t.encode ++ encodeTerms ts
end

mutual
def Term.WellFormed : Term → Prop
  | .scope w n body        => w.Legal (n.encode ++ encodeTerms body).length ∧ TermsWellFormed body
  | .device w n body       => w.Legal (n.encode ++ encodeTerms body).length ∧ TermsWellFormed body
  | .name _ v              => v.WellFormed
  | .method w n flags code => w.Legal (n.encode ++ flags :: code).length
  | .opRegion _ _ o l      => o.WellFormed ∧ l.WellFormed
  | .field w n flags body  => w.Legal (n.encode ++ flags :: body).length

def TermsWellFormed : List Term → Prop
  | []      => True
  | t :: ts => t.WellFormed ∧ TermsWellFormed ts
end

mutual
/-- The parsed term `r` is the encoded term: its name, value, flags and slices are those of
the encoding, and its contents yield the nested terms. -/
def Term.ParsedAs : Term → AmlTerm → Prop
  | .scope _ n body, r =>
    r = .scope { raw := n.encode } (AmlParser.new (encodeTerms body)) ∧
      Yields body (AmlParser.new (encodeTerms body))
  | .device _ n body, r =>
    r = .device { raw := n.encode } (AmlParser.new (encodeTerms body)) ∧
      Yields body (AmlParser.new (encodeTerms body))
  | .name n v, r              => r = .name { raw := n.encode } v.value
  | .method _ n flags code, r => r = .method { raw := n.encode } flags code
  | .opRegion n _ _ _, r      => r = .opRegion { raw := n.encode }
  | .field _ _ _ _, r         => r = .field

/-- Calling `parse_next` on `p` again and again returns these terms in order and then
`Ok(None)`. -/
def Yields : List Term → AmlParser → Prop
  | [], p      => parseNext.run p = (.ok none, p)
  | t :: ts, p => ∃ r p', parseNext.run p = (.ok (some r), p') ∧ t.ParsedAs r ∧ Yields ts p'
end

end Mars.Aml
