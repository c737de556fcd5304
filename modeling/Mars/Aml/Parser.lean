import Mars.Lib.ByteReader

/-!
# The AML parser

Embedding of `kernel/drivers/acpi-aml/src/{ast,parser}.rs`. A parser is a byte slice with a
cursor. The mutable `self` of the source is the cursor threaded by `Reader`, so a call that
returns an error still shows how far it moved.
-/

namespace Mars.Aml

/-- `AmlParser`: the slice `bytes` and the position `cursor`. -/
abbrev AmlParser := ByteCursor

def AmlParser.new (bytes : List UInt8) : AmlParser := { bytes := bytes, cursor := 0 }

/-- `AmlNamePath`: the raw bytes of a name, prefixes included. -/
structure AmlNamePath where
  raw : List UInt8
deriving DecidableEq, Repr

/-- `AmlValue`. The parser reports packages as buffers and never builds `package`. -/
inductive AmlValue where
  | zero
  | one
  | ones
  | integer (v : UInt64)
  | string (s : String)
  | namePath (p : AmlNamePath)
  | buffer (bytes : List UInt8)
  | package (elems : List AmlValue)
deriving Repr

inductive AmlTerm where
  | scope (name : AmlNamePath) (contents : AmlParser)
  | device (name : AmlNamePath) (contents : AmlParser)
  | name (name : AmlNamePath) (value : AmlValue)
  | method (name : AmlNamePath) (flags : UInt8) (code : List UInt8)
  | opRegion (name : AmlNamePath)
  | field
  | unsupportedOpcode (opcode : UInt8)
deriving Repr

open Reader

/-! ### Bytes and integers -/

def isEmpty (p : AmlParser) : Bool := p.bytes.length ≤ p.cursor

def peekU8 (p : AmlParser) : Option UInt8 := p.bytes[p.cursor]?

def readU8 : Reader UInt8 where
  run p :=
    match p.bytes[p.cursor]? with
    | some b => (.ok b, p.advance 1)
    | none   => (.error "buffer underflow while taking bytes", p)

def takeBytes (len : Nat) : Reader (List UInt8) where
  run p :=
    if p.cursor + len ≤ p.bytes.length then
      (.ok ((p.bytes.drop p.cursor).take len), p.advance len)
    else
      (.error "buffer overflow while taking bytes", p)

/-- `from_le_bytes` of any width. -/
def fromLeBytes : List UInt8 → Nat
  | []      => 0
  | b :: bs => b.toNat + 256 * fromLeBytes bs

/-- `read_u16_le`, `read_u32_le` and `read_u64_le`, widened to `u64` as their callers do. -/
def readLe (width : Nat) : Reader UInt64 := do
  let b ← takeBytes width
  return UInt64.ofNat (fromLeBytes b)

def readU16Le : Reader UInt64 := readLe 2
def readU32Le : Reader UInt64 := readLe 4
def readU64Le : Reader UInt64 := readLe 8

/-! ### Package lengths and names -/

/-- The loop `for i in 0..byte_count` of `read_pkg_length`, from `i` on. -/
def readPkgLengthBytes : Nat → Nat → Nat → Reader Nat
  | 0, _, length => return length
  | n + 1, i, length => do
    let nextByte ← readU8
    readPkgLengthBytes n (i + 1) (length ||| nextByte.toNat <<< (4 + i * 8))

def readPkgLength : Reader Nat := do
  let lead ← readU8
  let byteCount := (lead >>> 6).toNat
  if byteCount = 0 then
    return (lead &&& 0x3F).toNat
  else
    readPkgLengthBytes byteCount 0 (lead &&& 0x0F).toNat

/-- A root (`\`) or parent (`^`) prefix. -/
def isNamePrefix (ch : UInt8) : Bool := ch == 0x5C || ch == 0x5E

/-- How far the `while let Some(ch) = self.peek_u8()` loop of `read_name_path` moves. -/
def countNamePrefixes : List UInt8 → Nat
  | []        => 0
  | ch :: chs => if isNamePrefix ch then countNamePrefixes chs + 1 else 0

def skipNamePrefixes : Reader Unit where
  run p := (.ok (), p.advance (countNamePrefixes p.rest))

def readNameBody : Reader Unit := do
  let lead ← readU8
  if lead = 0x00 then
    return ()
  else if lead = 0x2E then
    let _ ← takeBytes 8
  else if lead = 0x2F then
    let count ← readU8
    let _ ← takeBytes (count.toNat * 4)
  else
    let _ ← takeBytes 3

/-- `self.bytes.get(start..end)`, which is `None` when the range is not inside the slice. -/
def getSlice (bytes : List UInt8) (start stop : Nat) : Option (List UInt8) :=
  if start ≤ stop ∧ stop ≤ bytes.length then some ((bytes.drop start).take (stop - start))
  else none

def sliceFrom (start : Nat) (msg : String) : Reader (List UInt8) where
  run p := (okOr (getSlice p.bytes start p.cursor) msg).run p

def readNamePath : Reader AmlNamePath := do
  let start ← position
  skipNamePrefixes
  readNameBody
  let raw ← sliceFrom start "NamePath slice out of bounds"
  return { raw := raw }

/-- The end of every package: what `pkg_len` leaves after the bytes consumed since
`pkg_start` is the body. -/
def takePkgBody (pkgStart pkgLen : Nat) (msg : String) : Reader (List UInt8) := do
  let cursor ← position
  let consumedBytes := cursor - pkgStart
  let bodyLen ← okOr (if consumedBytes ≤ pkgLen then some (pkgLen - consumedBytes) else none) msg
  takeBytes bodyLen

/-! ### Data objects -/

/-- The loop `while self.read_u8()? != 0x00 {}`. A byte is consumed an iteration, so a fuel
above the number of remaining bytes is never exhausted. -/
def readToNul : Nat → Reader Unit
  | 0 => fail "unreachable"
  | fuel + 1 => do
    let b ← readU8
    if b ≠ 0x00 then readToNul fuel else return ()

/-- `core::str::from_utf8`. -/
def fromUtf8 (bytes : List UInt8) : Option String := String.fromUTF8? ⟨bytes.toArray⟩

/-- The string at `start`, the cursor being one past its NUL. -/
def stringFrom (start : Nat) : Reader String where
  run p :=
    (okOr (fromUtf8 ((p.bytes.drop start).take (p.cursor - 1 - start)))
      "invalid utf8 in string prefix").run p

/-- `self.cursor -= 1`. -/
def stepBack : Reader Unit where
  run p := (.ok (), { p with cursor := p.cursor - 1 })

/-- The opcodes that `parse_data_object` takes for the start of a name path. -/
def isNameStart (op : UInt8) : Bool :=
  op == 0x5C || op == 0x5E || op == 0x2E || op == 0x2F || (0x41 ≤ op && op ≤ 0x5A) || op == 0x5F

/-- `parse_data_object`. The recursion on the size of a buffer or of a variable package is
bounded by `fuel`; every level consumes its opcode first. -/
def parseDataObject : Nat → Reader AmlValue
  | 0 => fail "unreachable"
  | fuel + 1 => do
    let op ← readU8
    if op = 0x00 then return .zero
    else if op = 0x01 then return .one
    else if op = 0xFF then return .ones
    else if op = 0x0A then return .integer (← readU8).toUInt64
    else if op = 0x0B then return .integer (← readU16Le)
    else if op = 0x0C then return .integer (← readU32Le)
    else if op = 0x0E then return .integer (← readU64Le)
    else if op = 0x0D then
      let start ← position
      readToNul ((← remaining) + 1)
      return .string (← stringFrom start)
    else if op = 0x11 then
      let pkgStart ← position
      let pkgLen ← readPkgLength
      let _bufSize ← parseDataObject fuel
      return .buffer (← takePkgBody pkgStart pkgLen "BufferOp PkgLength underflowed")
    else if op = 0x12 then
      let pkgStart ← position
      let pkgLen ← readPkgLength
      let _numElems ← readU8
      return .buffer (← takePkgBody pkgStart pkgLen "PackageOp PkgLength underflowed")
    else if op = 0x13 then
      let pkgStart ← position
      let pkgLen ← readPkgLength
      let _numElems ← parseDataObject fuel
      return .buffer (← takePkgBody pkgStart pkgLen "PackageOp PkgLength underflowed")
    else if isNameStart op then
      -- the lead byte belongs to the name
      stepBack
      return .namePath (← readNamePath)
    else if op = 0x5B then
      let _ext ← readU8
      return .integer 0x5B
    else return .integer op.toUInt64

/-- A data object with fuel for every byte that is left. -/
def parseData : Reader AmlValue := do
  let n ← remaining
  parseDataObject (n + 1)

/-! ### Terms -/

/-- The opcodes behind the extended prefix `0x5B`. -/
def parseExt : Reader AmlTerm := do
  let extOpc ← readU8
  if extOpc = 0x80 then
    let name ← readNamePath
    let _regionSpace ← readU8
    let _offset ← parseData
    let _length ← parseData
    return .opRegion name
  else if extOpc = 0x81 then
    let pkgStart ← position
    let pkgLen ← readPkgLength
    let _regionName ← readNamePath
    let _fieldFlags ← readU8
    let _fieldData ← takePkgBody pkgStart pkgLen "FieldOp PkgLength underflowed"
    return .field
  else if extOpc = 0x82 then
    let pkgStart ← position
    let pkgLen ← readPkgLength
    let name ← readNamePath
    let body ← takePkgBody pkgStart pkgLen "DeviceOp PkgLength underflowed"
    return .device name (AmlParser.new body)
  else return .unsupportedOpcode extOpc

/-- `parse_next` past its opcode. -/
def parseTerm (opcode : UInt8) : Reader AmlTerm := do
  if opcode = 0x10 then
    let pkgStart ← position
    let pkgLen ← readPkgLength
    let name ← readNamePath
    let body ← takePkgBody pkgStart pkgLen "ScopeOp PkgLength underflowed"
    return .scope name (AmlParser.new body)
  else if opcode = 0x08 then
    let name ← readNamePath
    let value ← parseData
    return .name name value
  else if opcode = 0x14 then
    let pkgStart ← position
    let pkgLen ← readPkgLength
    let name ← readNamePath
    let flags ← readU8
    let code ← takePkgBody pkgStart pkgLen "MethodOp PkgLength underflowed"
    return .method name flags code
  else if opcode = 0x5B then parseExt
  else return .unsupportedOpcode opcode

def parseOpcode : Reader (Option AmlTerm) := do
  let opcode ← readU8
  let term ← parseTerm opcode
  return some term

def parseNext : Reader (Option AmlTerm) where
  run p := if isEmpty p then (.ok none, p) else parseOpcode.run p

lemma isEmpty_iff (p : AmlParser) : isEmpty p = true ↔ p.rest = [] := by
  rw [ByteCursor.rest_eq_nil_iff, isEmpty, decide_eq_true_iff]

lemma parseNext_nil {p : AmlParser} (h : p.rest = []) : parseNext.run p = (.ok none, p) :=
  if_pos ((isEmpty_iff p).mpr h)

end Mars.Aml
