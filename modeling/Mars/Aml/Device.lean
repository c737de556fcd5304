import Mars.Aml.Ast
import Mars.Hardware.DeviceTree

/-!
# From AML terms to the device tree

Embedding of `kernel/drivers/acpi-aml/src/{crs,device}.rs`. A loop whose bound is not written
in the source runs on fuel, and `none` says that the fuel is exhausted.
-/

namespace Mars.Aml

open Mars.Hardware

/-! ### Resource descriptors -/

/-- `self.0.get(..n)` and the rest of the slice. -/
def splitChunk (bytes : List UInt8) (n : Nat) : Option (List UInt8 × List UInt8) :=
  if n ≤ bytes.length then some (bytes.take n, bytes.drop n) else none

/-- `CrsIter::next`: the next descriptor and the bytes after it. -/
def crsNext (bytes : List UInt8) : Option (List UInt8 × List UInt8) :=
  match bytes with
  | [] => none
  | tag :: rest =>
    -- the end tag
    if tag = 0x79 then none
    else if tag &&& 0x80 = 0 then splitChunk bytes (1 + (tag &&& 0x07).toNat)
    else
      match rest with
      | b₀ :: b₁ :: _ => splitChunk bytes (3 + fromLeBytes [b₀, b₁])
      | _             => none

/-- `uN::from_le_bytes(data[start..start + width])`. -/
def leAt (data : List UInt8) (start width : Nat) : Nat :=
  fromLeBytes ((data.drop start).take width)

/-- The range `base..base + len` of a memory descriptor, if it is not empty. The sum wraps. -/
def mmioRange (base len : Nat) : List Resource :=
  if 0 < len then [.mmio (UInt64.ofNat base) (UInt64.ofNat base + UInt64.ofNat len)] else []

/-- `into_rss`. The tag of an empty slice cannot be read. -/
def intoRss : List UInt8 → Option (List Resource)
  | [] => none
  | tag :: rest =>
    let isLarge := tag &&& 0x80 != 0
    let itemType := if isLarge then tag &&& 0x7F else (tag >>> 3) &&& 0x0F
    let data := if isLarge then rest.drop 2 else rest
    some <|
      if isLarge = false ∧ itemType = 0x04 ∧ 2 ≤ data.length then
        ((List.range 16).filter fun i => (leAt data 0 2).testBit i).map fun i => .irq (.ofNat i)
      else if isLarge = true ∧ itemType = 0x05 ∧ 17 ≤ data.length then
        mmioRange (leAt data 1 4) (leAt data 13 4)
      else if isLarge = true ∧ itemType = 0x06 ∧ 9 ≤ data.length then
        mmioRange (leAt data 1 4) (leAt data 5 4)
      else if isLarge = true ∧ itemType = 0x07 ∧ 23 ≤ data.length ∧ data.head? = some 0 then
        mmioRange (leAt data 7 4) (leAt data 19 4)
      else if isLarge = true ∧ itemType = 0x0A ∧ 43 ≤ data.length ∧ data.head? = some 0 then
        mmioRange (leAt data 11 8) (leAt data 35 8)
      else if isLarge = true ∧ itemType = 0x09 ∧ 2 ≤ data.length then
        (List.range (leAt data 1 1)).filterMap fun i =>
          (getSlice data (2 + i * 4) (2 + i * 4 + 4)).map fun b => .irq (.ofNat (fromLeBytes b))
      else []

/-- `CrsIter(buf).flat_map(|chunk| chunk.into_rss())`. -/
def crsResources : Nat → List UInt8 → Option (List Resource)
  | 0, _ => none
  | fuel + 1, bytes =>
    match crsNext bytes with
    | none => some []
    | some (chunk, rest) => do
      let rss ← intoRss chunk
      let more ← crsResources fuel rest
      return rss ++ more

/-! ### The properties of a device -/

structure DeviceProperties where
  hid : Option String := none
  cids : List String := []
  uid : Option UInt64 := none
  resources : List Resource := []
  subTerms : List AmlTerm := []

namespace DeviceProperties

def endsWith (s suffix : String) : Bool := suffix.toList.isSuffixOf s.toList

def cidsOf : AmlValue → List String
  | .package pkgs => pkgs.filterMap AmlValue.asString
  | value         => value.asString.toList

def crsOf : AmlValue → Option (List Resource)
  | .buffer buf => crsResources (buf.length + 1) buf
  | _           => some []

def addTerm (acc : DeviceProperties) (term : AmlTerm) : Option DeviceProperties :=
  match term with
  | .name name value =>
    let nameStr := name.toString
    if endsWith nameStr "_HID" then some { acc with hid := value.asString }
    else if endsWith nameStr "_CID" then some { acc with cids := acc.cids ++ cidsOf value }
    else if endsWith nameStr "_UID" then some { acc with uid := value.asU64 }
    else if endsWith nameStr "_CRS" then
      (crsOf value).map fun rss => { acc with resources := acc.resources ++ rss }
    else some { acc with subTerms := acc.subTerms ++ [term] }
  | other => some { acc with subTerms := acc.subTerms ++ [other] }

/-- The closure of `fold`: the first error stays. -/
def foldTerm (acc : Except String DeviceProperties) (term : Except String AmlTerm) :
    Option (Except String DeviceProperties) :=
  match acc, term with
  | .error e, _         => some (.error e)
  | .ok _, .error e     => some (.error e)
  | .ok acc, .ok term   => (acc.addTerm term).map .ok

/-- The `fold` over `from_fn(|| parser.parse_next().transpose())`, which goes on after an
error. -/
def foldTerms : Nat → AmlParser → Except String DeviceProperties →
    Option (Except String DeviceProperties)
  | 0, _, _ => none
  | fuel + 1, parser, acc =>
    match parseNext.run parser with
    | (.ok none, _)              => some acc
    | (.ok (some term), parser') => (foldTerm acc (.ok term)).bind (foldTerms fuel parser')
    | (.error e, parser')        => (foldTerm acc (.error e)).bind (foldTerms fuel parser')

def fromAml (fuel : Nat) (parser : AmlParser) : Option (Except String DeviceProperties) :=
  foldTerms fuel parser (.ok {})

def classify (props : DeviceProperties) : DeviceClass × DeviceInitPriority :=
  let id := (props.hid.or props.cids.head?).getD ""
  if id = "ARMH0011" then (.uart, .regular)
  else if id = "PNP0A08" ∨ id = "PNP0A03" then (.pciHostBridge, .regular)
  else (.other, .regular)

end DeviceProperties

/-! ### The tree builder -/

structure TreeBuilder where
  tree : DeviceTree
  scopeMap : String → Option DeviceId

/-- Why `process_terms` stops early: it returns an error, or `add_device` indexes its arena out
of bounds. -/
inductive Halt where
  | err (msg : String)
  | panic
deriving DecidableEq, Repr

/-- A computation on the builder; without an outcome when its fuel is exhausted. -/
structure Build (α : Type) where
  run : TreeBuilder → Option (Except Halt α × TreeBuilder)

namespace Build

variable {α β : Type}

protected def pure (a : α) : Build α := ⟨fun tb => some (.ok a, tb)⟩

protected def bind (m : Build α) (f : α → Build β) : Build β :=
  ⟨fun tb =>
    match m.run tb with
    | none                 => none
    | some (.ok a, tb')    => (f a).run tb'
    | some (.error h, tb') => some (.error h, tb')⟩

instance : Monad Build where
  pure := Build.pure
  bind := Build.bind

def exhausted : Build α := ⟨fun _ => none⟩

def get : Build TreeBuilder := ⟨fun tb => some (.ok tb, tb)⟩

/-- The `?` on a result of the parser. -/
def ofResult (r : Option (Except String α)) : Build α :=
  ⟨fun tb => r.map fun r => (r.mapError .err, tb)⟩

def addDevice (parent : Option DeviceId) (cls : DeviceClass × DeviceInitPriority)
    (compatible : List String) (resources : List Resource) : Build DeviceId :=
  ⟨fun tb =>
    match tb.tree.addDevice parent cls.1 compatible resources cls.2 with
    | some r => some (.ok r.1, { tb with tree := r.2 })
    | none   => some (.error .panic, tb)⟩

def insertScope (path : String) (id : DeviceId) : Build Unit :=
  ⟨fun tb => some (.ok (), { tb with scopeMap := Function.update tb.scopeMap path (some id) })⟩

end Build

namespace TreeBuilder

def joinPath (parent child : String) : String :=
  if child.toList.head? = some '\\' then child
  else
    let name := String.ofList (child.toList.dropWhile (· == '.'))
    if parent = "" ∨ parent = "\\" then "\\" ++ name
    else parent ++ "." ++ name

/-- `from_fn(|| contents.parse_next().transpose()).collect::<Result<Vec<_>, _>>()`, which stops
at the first error. -/
def collectTerms : Nat → AmlParser → Option (Except String (List AmlTerm))
  | 0, _ => none
  | fuel + 1, parser =>
    match parseNext.run parser with
    | (.ok none, _)              => some (.ok [])
    | (.ok (some term), parser') =>
      (collectTerms fuel parser').map fun r => r.map fun terms => term :: terms
    | (.error e, _)              => some (.error e)

/-- The body of the loop of `process_terms`; `recur` is the recursive call. -/
def processTerm (recur : List AmlTerm → String → Option DeviceId → Build Unit)
    (currentPath : String) (parentId : Option DeviceId) : AmlTerm → Build Unit
  | .scope name contents => do
    let path := joinPath currentPath name.toString
    let tb ← Build.get
    let targetParent := (tb.scopeMap path).or parentId
    let subTerms ← Build.ofResult (collectTerms (contents.rest.length + 1) contents)
    recur subTerms path targetParent
  | .device name contents => do
    let path := joinPath currentPath name.toString
    let props ← Build.ofResult (DeviceProperties.fromAml (contents.rest.length + 1) contents)
    let compatible := props.hid.toList ++ props.cids
    let devId ← Build.addDevice parentId props.classify compatible props.resources
    Build.insertScope path devId
    recur props.subTerms path (some devId)
  | _ => return ()

def processTerms : Nat → List AmlTerm → String → Option DeviceId → Build Unit
  | 0, _, _, _ => Build.exhausted
  | _ + 1, [], _, _ => return ()
  | fuel + 1, term :: terms, currentPath, parentId => do
    processTerm (processTerms fuel) currentPath parentId term
    processTerms fuel terms currentPath parentId

end TreeBuilder

end Mars.Aml
