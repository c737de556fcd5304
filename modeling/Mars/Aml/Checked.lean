import Mars.Aml.Parser
import Mars.Lib.CheckedReader

/-!
# The AML parser with its unchecked operations

The functions of `parser.rs` with every index, slice, `unwrap` and machine word operation carried
out as the source writes it: it has no outcome when it is out of range, and a loop has none when
its fuel is exhausted.
-/

namespace Mars.Aml.Checked

open CheckedReader

/-! ### Bytes and integers -/

def readU8 : CheckedReader UInt8 := do
  let p ← get
  let b ← okOr p.bytes[p.cursor]? "buffer underflow while taking bytes"
  moveTo (← expect (usizeAdd p.cursor 1))
  return b

def takeBytes (len : Nat) : CheckedReader (List UInt8) := do
  let p ← get
  let stop ← expect (usizeAdd p.cursor len)
  if stop ≤ p.bytes.length then
    let stop ← expect (usizeAdd p.cursor len)
    let slice ← expect (indexSlice p.bytes p.cursor stop)
    moveTo (← expect (usizeAdd p.cursor len))
    return slice
  else fail "buffer overflow while taking bytes"

/-- The conversion `b.try_into().unwrap()` needs a slice of exactly `width` bytes. -/
def readLe (width : Nat) : CheckedReader UInt64 := do
  let b ← takeBytes width
  let b ← expect (if b.length = width then some b else none)
  return UInt64.ofNat (fromLeBytes b)

def readU16Le : CheckedReader UInt64 := readLe 2
def readU32Le : CheckedReader UInt64 := readLe 4
def readU64Le : CheckedReader UInt64 := readLe 8

/-! ### Package lengths and names -/

def readPkgLengthBytes : Nat → Nat → Nat → CheckedReader Nat
  | 0, _, length => return length
  | n + 1, i, length => do
    let nextByte ← readU8
    let shift ← expect ((usizeMul i 8).bind (usizeAdd 4))
    let bits ← expect (usizeShl nextByte.toNat shift)
    readPkgLengthBytes n (i + 1) (length ||| bits)

def readPkgLength : CheckedReader Nat := do
  let lead ← readU8
  let byteCount := (lead >>> 6).toNat
  if byteCount = 0 then
    return (lead &&& 0x3F).toNat
  else
    readPkgLengthBytes byteCount 0 (lead &&& 0x0F).toNat

/-- The loop `while let Some(ch) = self.peek_u8()` of `read_name_path`. -/
def skipNamePrefixes : Nat → CheckedReader Unit
  | 0 => abort
  | fuel + 1 => do
    let p ← get
    match peekU8 p with
    | some ch =>
      if isNamePrefix ch then
        moveTo (← expect (usizeAdd p.cursor 1))
        skipNamePrefixes fuel
      else return ()
    | none => return ()

def readNameBody : CheckedReader Unit := do
  let lead ← readU8
  if lead = 0x00 then
    return ()
  else if lead = 0x2E then
    let _ ← takeBytes 8
  else if lead = 0x2F then
    let count ← readU8
    let _ ← takeBytes (← expect (usizeMul count.toNat 4))
  else
    let _ ← takeBytes 3

def sliceFrom (start : Nat) (msg : String) : CheckedReader (List UInt8) := do
  let p ← get
  okOr (getSlice p.bytes start p.cursor) msg

def readNamePath (fuel : Nat) : CheckedReader AmlNamePath := do
  let start ← position
  skipNamePrefixes fuel
  readNameBody
  let raw ← sliceFrom start "NamePath slice out of bounds"
  return { raw := raw }

def takePkgBody (pkgStart pkgLen : Nat) (msg : String) : CheckedReader (List UInt8) := do
  let cursor ← position
  let consumedBytes ← expect (usizeSub cursor pkgStart)
  let bodyLen ← okOr (if consumedBytes ≤ pkgLen then some (pkgLen - consumedBytes) else none) msg
  takeBytes bodyLen

/-! ### Data objects -/

def readToNul : Nat → CheckedReader Unit
  | 0 => abort
  | fuel + 1 => do
    let b ← readU8
    if b ≠ 0x00 then readToNul fuel else return ()

def stringFrom (start : Nat) : CheckedReader String := do
  let p ← get
  let stop ← expect (usizeSub p.cursor 1)
  let strBytes ← expect (indexSlice p.bytes start stop)
  okOr (fromUtf8 strBytes) "invalid utf8 in string prefix"

def stepBack : CheckedReader Unit := do
  let p ← get
  moveTo (← expect (usizeSub p.cursor 1))

def parseDataObject : Nat → CheckedReader AmlValue
  | 0 => abort
  | fuel + 1 => do
    let op ← readU8
    if op = 0x00 then return .zero
    else if op = 0x01 then return .one
    else if op = 0xFF then return .ones
    else if op = 0x0A then return .integer (← readU8).toUInt64
    else if op = 0x0B then return .integer (← readU16Le)
    else if op = 0x0C then return .integer (← readU32Le)
    else if op = 0x0E then return .integer (← readU64Le)
    else if op = 0x0D then
      let start ← position
      readToNul fuel
      return .string (← stringFrom start)
    else if op = 0x11 then
      let pkgStart ← position
      let pkgLen ← readPkgLength
      let _bufSize ← parseDataObject fuel
      return .buffer (← takePkgBody pkgStart pkgLen "BufferOp PkgLength underflowed")
    else if op = 0x12 then
      let pkgStart ← position
      let pkgLen ← readPkgLength
      let _numElems ← readU8
      return .buffer (← takePkgBody pkgStart pkgLen "PackageOp PkgLength underflowed")
    else if op = 0x13 then
      let pkgStart ← position
      let pkgLen ← readPkgLength
      let _numElems ← parseDataObject fuel
      return .buffer (← takePkgBody pkgStart pkgLen "PackageOp PkgLength underflowed")
    else if isNameStart op then
      -- the lead byte belongs to the name, so it takes fuel again
      stepBack
      return .namePath (← readNamePath (fuel + 1))
    else if op = 0x5B then
      let _ext ← readU8
      return .integer 0x5B
    else return .integer op.toUInt64

/-! ### Terms -/

def parseExt (fuel : Nat) : CheckedReader AmlTerm := do
  let extOpc ← readU8
  if extOpc = 0x80 then
    let name ← readNamePath fuel
    let _regionSpace ← readU8
    let _offset ← parseDataObject fuel
    let _length ← parseDataObject fuel
    return .opRegion name
  else if extOpc = 0x81 then
    let pkgStart ← position
    let pkgLen ← readPkgLength
    let _regionName ← readNamePath fuel
    let _fieldFlags ← readU8
    let _fieldData ← takePkgBody pkgStart pkgLen "FieldOp PkgLength underflowed"
    return .field
  else if extOpc = 0x82 then
    let pkgStart ← position
    let pkgLen ← readPkgLength
    let name ← readNamePath fuel
    let body ← takePkgBody pkgStart pkgLen "DeviceOp PkgLength underflowed"
    return .device name (AmlParser.new body)
  else return .unsupportedOpcode extOpc

def parseTerm (fuel : Nat) (opcode : UInt8) : CheckedReader AmlTerm := do
  if opcode = 0x10 then
    let pkgStart ← position
    let pkgLen ← readPkgLength
    -- the source subtracts here as well, and does not use the difference
    let cursor ← position
    let _pkgHeaderBytes ← expect (usizeSub cursor pkgStart)
    let name ← readNamePath fuel
    let body ← takePkgBody pkgStart pkgLen "ScopeOp PkgLength underflowed"
    return .scope name (AmlParser.new body)
  else if opcode = 0x08 then
    let name ← readNamePath fuel
    let value ← parseDataObject fuel
    return .name name value
  else if opcode = 0x14 then
    let pkgStart ← position
    let pkgLen ← readPkgLength
    let name ← readNamePath fuel
    let flags ← readU8
    let code ← takePkgBody pkgStart pkgLen "MethodOp PkgLength underflowed"
    return .method name flags code
  else if opcode = 0x5B then parseExt fuel
  else return .unsupportedOpcode opcode

def parseNext (fuel : Nat) : CheckedReader (Option AmlTerm) := do
  let p ← get
  if isEmpty p then
    return none
  else
    let opcode ← readU8
    let term ← parseTerm fuel opcode
    return some term

end Mars.Aml.Checked
