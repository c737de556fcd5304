import Mars.Aml.Parser

/-!
# Names and values of AML

Embedding of the conversions of `kernel/drivers/acpi-aml/src/ast.rs`: how a name path is
displayed, and how a value is read as a string or an integer. A displayed text is a list of
characters until it becomes a `String`.
-/

namespace Mars.Aml

/-! ### Hexadecimal numbers -/

/-- The digits of `{:X}`. -/
def upperHex (n : Nat) : List Char := (Nat.toDigits 16 n).map Char.toUpper

/-- `{:0width$X}`. -/
def upperHexPadded (width n : Nat) : List Char := List.leftpad width '0' (upperHex n)

/-! ### Name paths -/

/-- The first loop of `fmt`: the prefixes that are written, and the bytes after them. -/
def fmtPrefixes : List UInt8 → List Char × List UInt8
  | []      => ([], [])
  | b :: bs =>
    if b = 0x5C then ('\\' :: (fmtPrefixes bs).1, (fmtPrefixes bs).2)
    else if b = 0x5E then ('^' :: (fmtPrefixes bs).1, (fmtPrefixes bs).2)
    else ([], b :: bs)

/-- The loop on `actual_len`: trailing underscores are dropped, but not the first character. -/
def actualLen (seg : List UInt8) : Nat → Nat
  | 0     => 0
  | n + 1 => if seg[n]? = some 0x5F then (if n = 0 then 1 else actualLen seg n) else n + 1

def isAsciiGraphic (b : UInt8) : Bool := 0x21 ≤ b && b ≤ 0x7E

def fmtByte (b : UInt8) : Char :=
  if isAsciiGraphic b || b == 0x20 || b == 0x5F then Char.ofNat b.toNat else '?'

def fmtSeg (seg : List UInt8) : List Char := (seg.take (actualLen seg 4)).map fmtByte

/-- The loop `for i in 0..num_segs`, with `n` iterations left at `i`. -/
def fmtSegs (segBytes : List UInt8) : Nat → Nat → List Char
  | 0, _ => []
  | n + 1, i =>
    let dot := if 0 < i then ['.'] else []
    if segBytes.length < i * 4 + 4 then dot ++ ['?', '?', '?', '?']
    else dot ++ fmtSeg ((segBytes.drop (i * 4)).take 4) ++ fmtSegs segBytes n (i + 1)

/-- What is written after the prefixes. -/
def fmtName : List UInt8 → List Char
  | [] => []
  | lead :: tail =>
    if lead = 0x00 then []
    else if lead = 0x2E then fmtSegs tail 2 0
    else if lead = 0x2F then
      match tail with
      | []            => []
      | count :: segs => fmtSegs segs count.toNat 0
    else fmtSegs (lead :: tail) 1 0

def AmlNamePath.fmt (p : AmlNamePath) : List Char :=
  (fmtPrefixes p.raw).1 ++ fmtName (fmtPrefixes p.raw).2

def AmlNamePath.toString (p : AmlNamePath) : String := String.ofList p.fmt

/-! ### Values -/

/-- The seven characters of a compressed EISA id. -/
def eisaId (v : UInt64) : List Char :=
  let letter (m : UInt64) : Char := Char.ofNat (0x40 + m.toNat)
  [letter ((v >>> 26) &&& 0x1F), letter ((v >>> 21) &&& 0x1F), letter ((v >>> 16) &&& 0x1F)] ++
    upperHexPadded 4 (v &&& 0xFFFF).toNat

def AmlValue.asString : AmlValue → Option String
  | .string s   => some s
  | .namePath p => some p.toString
  | .integer v  => some (String.ofList (eisaId v))
  | _           => none

/-- The decimal digits of `u64::from_str`, most significant first; an overflow is an error. -/
def parseDigits : List Char → Nat → Option UInt64
  | [], acc => some (UInt64.ofNat acc)
  | ch :: chs, acc =>
    if ch.isDigit then
      let acc := acc * 10 + (ch.toNat - 48)
      if acc < 2 ^ 64 then parseDigits chs acc else none
    else none

/-- `str::parse::<u64>`: digits with an optional plus sign, at least one of them. -/
def parseU64 (s : String) : Option UInt64 :=
  match s.toList with
  | []         => none
  | '+' :: chs => if chs = [] then none else parseDigits chs 0
  | chs        => parseDigits chs 0

def AmlValue.asU64 : AmlValue → Option UInt64
  | .zero      => some 0
  | .one       => some 1
  | .ones      => some 0xFFFFFFFFFFFFFFFF
  | .integer v => some v
  | .string s  => parseU64 s
  | _          => none

end Mars.Aml
