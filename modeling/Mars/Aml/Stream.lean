import Mars.Aml.Ast

/-!
# Walking an AML stream

Embedding of `aml_stream`, `format_aml_value` and `format_aml_stream` of
`kernel/src/earlyinit/acpi.rs`. The walks recurse into the contents of scopes and devices; `none`
says that their fuel is exhausted. Of a walk only the result and the text are kept.
-/

namespace Mars.Aml

/-- The `?` after a nested walk: its error ends the enclosing walk. -/
def afterNested {σ : Type} (nested : Option (Except String Unit × σ))
    (next : σ → Option (Except String Unit × σ)) : Option (Except String Unit × σ) :=
  match nested with
  | none                 => none
  | some (.error e, out) => some (.error e, out)
  | some (.ok (), out)   => next out

/-- `aml_stream`. It writes nothing. -/
def amlStream : Nat → Nat → AmlParser → Option (Except String Unit × Unit)
  | 0, _, _ => none
  | fuel + 1, depth, parser =>
    match parseNext.run parser with
    | (.error e, _) => some (.error e, ())
    | (.ok none, _) => some (.ok (), ())
    | (.ok (some term), parser') =>
      match term with
      | .scope _ contents | .device _ contents =>
        afterNested (amlStream fuel (depth + 1) contents) fun _ => amlStream fuel depth parser'
      | _ => amlStream fuel depth parser'

/-! ### The text of a stream -/

/-- `"  ".repeat(depth)`. -/
def indentOf (depth : Nat) : String := String.join (List.replicate depth "  ")

/-- `{:#X}` and, with the two digits that are left of the width, `{:#04X}`. -/
def hexText (digits : Nat) (n : Nat) : String := "0x" ++ String.ofList (upperHexPadded digits n)

mutual

def formatAmlValue (depth : Nat) : AmlValue → String
  | .zero          => "Zero"
  | .one           => "One"
  | .ones          => "Ones"
  | .integer v     => hexText 0 v.toNat
  | .string s      => "\"" ++ s ++ "\""
  | .namePath path => path.toString
  | .buffer buf    => "Buffer (" ++ Nat.repr buf.length ++ ") \x7b ... \x7d"
  | .package elems =>
    if elems.isEmpty then "Package (0x00) \x7b\x7d"
    else
      "Package (" ++ hexText 2 elems.length ++ ") \x7b\n" ++ formatElems (depth + 1) elems ++
        indentOf depth ++ "\x7d"

/-- The loop over the elements of a package: a comma after every element but the last. -/
def formatElems (depth : Nat) : List AmlValue → String
  | []            => ""
  | elem :: elems =>
    indentOf depth ++ formatAmlValue depth elem ++ (if elems.isEmpty then "" else ",") ++ "\n" ++
      formatElems depth elems

end

/-- The text of a term that has no contents of its own. -/
def formatFlat (depth : Nat) : AmlTerm → String
  | .name name value =>
    indentOf depth ++ "Name (" ++ name.toString ++ ", " ++ formatAmlValue depth value ++ ")\n"
  | .method name flags code =>
    let serialized := if flags &&& 0x08 ≠ 0 then "Serialized" else "NotSerialized"
    indentOf depth ++ "Method (" ++ name.toString ++ ", " ++ Nat.repr (flags &&& 0x07).toNat ++
      ", " ++ serialized ++ ") [Bytecode: " ++ Nat.repr code.length ++ " bytes]\n"
  | .opRegion name => indentOf depth ++ "OperationRegion (" ++ name.toString ++ ")\n"
  | .field => indentOf depth ++ "Field (...)\n"
  | .unsupportedOpcode op => indentOf depth ++ "// Unknown Opcode: " ++ hexText 2 op.toNat ++ "\n"
  | .scope .. | .device .. => ""

/-- `format_aml_stream`: the result and the text so far, which an error leaves as it is. -/
def formatAmlStream : Nat → Nat → AmlParser → String → Option (Except String Unit × String)
  | 0, _, _, _ => none
  | fuel + 1, depth, parser, out =>
    match parseNext.run parser with
    | (.error e, _) => some (.error e, out)
    | (.ok none, _) => some (.ok (), out)
    | (.ok (some term), parser') =>
      let block (kind : String) (name : AmlNamePath) (contents : AmlParser) :=
        let opened := out ++ indentOf depth ++ kind ++ " (" ++ name.toString ++ ") \x7b\n"
        afterNested (formatAmlStream fuel (depth + 1) contents opened) fun out =>
          formatAmlStream fuel depth parser' (out ++ indentOf depth ++ "\x7d\n")
      match term with
      | .scope name contents  => block "Scope" name contents
      | .device name contents => block "Device" name contents
      | flat => formatAmlStream fuel depth parser' (out ++ formatFlat depth flat)

end Mars.Aml
