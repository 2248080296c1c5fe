import UnionTypes.Json.Reader
import UnionTypes.Ty.Flatten

/-!
# Types from JSON

Documents are read more freely than they are written. Every tag that has no content may stand alone
or as an object with a null; a record may be an object, in any order and with fields that nobody
knows, or an array of its fields; and the members of a union may be unions themselves, which are
flattened. A union that comes out empty is refused, at any depth.

Decoding goes through the document in its order and warns of large unions as it completes them, so
warnings raised before a failure stay.
-/

namespace UnionTypes

/-- The value behind a tag that has no content. -/
def Json.unit? {α : Type} (ofLabel? : String → Option α) : Json → Option α
  | .str label | .obj [(label, .null)] => ofLabel? label
  | _ => none

def AttributeKind.ofLabel? : String → Option AttributeKind
  | "Method" => some .method
  | "Field" => some .field
  | "Property" => some .property
  | _ => none

def Access.ofLabel? : String → Option Access
  | "Read" => some .read
  | "Write" => some .write
  | "Delete" => some .delete
  | _ => none

def Access.decode (v : Json) : Option Access := v.unit? ofLabel?

def Attribute.decode (v : Json) : Option Attribute :=
  match v.fields? ["name", "kind", "readonly"] with
  | some [some name, some kind, some readonly] => do
    return {
      name := ← name.str?
      kind := ← kind.unit? AttributeKind.ofLabel?
      readonly := ← readonly.bool? }
  | _ => none

/-! ### Classes -/

/-- The name of a module, or null for none. -/
def Class.decodeModule : Json → Option (Option String)
  | .null => some none
  | .str s => some (some s)
  | _ => none

def Class.decodeAttributes (v : Json) : Option (List Attribute) := do
  (← v.arr?).mapM Attribute.decode

/-- The fields of a class as far as they were found. -/
structure Class.Draft where
  name : Option String := none
  moduleName : Option (Option String) := none
  builtin : Option Bool := none
  dynamicAttributes : Option Bool := none
  valid : Option Bool := none
  attributes : Option (List Attribute) := none
  bases : Option (List Class) := none

/-- The class, once all fields were found. Its module need not be given. -/
def Class.Draft.finish? (d : Draft) : Option Class := do
  return {
    name := ← d.name
    moduleName := d.moduleName.getD none
    builtin := ← d.builtin
    dynamicAttributes := ← d.dynamicAttributes
    valid := ← d.valid
    attributes := ← d.attributes
    bases := ← d.bases }

/-- Fills a field that is still open. -/
def Class.Draft.fill? {α : Type} (field : Option α) (value : Option α) : Option (Option α) :=
  match field with
  | none => value.map some
  | some _ => none

mutual

def Class.decode : Json → Option Class
  | .obj entries => (Class.decodeFields entries).bind Class.Draft.finish?
  | .arr [name, moduleName, builtin, dynamicAttributes, valid, attributes, bases] => do
    return {
      name := ← name.str?
      moduleName := ← Class.decodeModule moduleName
      builtin := ← builtin.bool?
      dynamicAttributes := ← dynamicAttributes.bool?
      valid := ← valid.bool?
      attributes := ← Class.decodeAttributes attributes
      bases := ← Class.decodeBases bases }
  | _ => none

/-- The fields that the entries give. None may be given twice. -/
def Class.decodeFields : List (String × Json) → Option Class.Draft
  | [] => some {}
  | (key, v) :: es => do
    -- the order in which fields are filled is immaterial, since none may come twice
    let d ← Class.decodeFields es
    match key with
    | "name" => return { d with name := ← Class.Draft.fill? d.name v.str? }
    | "module" =>
      return { d with moduleName := ← Class.Draft.fill? d.moduleName (Class.decodeModule v) }
    | "builtin" => return { d with builtin := ← Class.Draft.fill? d.builtin v.bool? }
    | "dynamic_attributes" =>
      return { d with dynamicAttributes := ← Class.Draft.fill? d.dynamicAttributes v.bool? }
    | "valid" => return { d with valid := ← Class.Draft.fill? d.valid v.bool? }
    | "attributes" =>
      return { d with attributes := ← Class.Draft.fill? d.attributes (Class.decodeAttributes v) }
    | "bases" => return { d with bases := ← Class.Draft.fill? d.bases (Class.decodeBases v) }
    | _ => if v.isWhole then some d else none

def Class.decodeBases : Json → Option (List Class)
  | .arr items => Class.decodeAll items
  | _ => none

def Class.decodeAll : List Json → Option (List Class)
  | [] => some []
  | v :: vs => do return (← Class.decode v) :: (← Class.decodeAll vs)

end

/-! ### Types -/

/-- A computation that decodes, may raise warnings, and may find the document wanting. -/
abbrev DecodeM := ExceptT ReadFailure WarnM

def orMalformed {α : Type} : Option α → DecodeM α
  | some a => return a
  | none => throw .malformed

/-- The union of types that were decoded, which is refused if there is nothing to store. -/
def UnionOf.ofDecoded (ts : List Ty) (weak : Bool) : DecodeM Union := do
  let u := flatten ts weak
  if u.members.isEmpty then
    throw (.refused .emptyUnion)
  ofMembers u.members u.weak

mutual

def Ty.decode (delivery : Delivery) : Json → DecodeM Ty
  | .str "None" => return .none
  | .str "WeakNone" => return .weakNone
  | .obj ((tag, content) :: more) => do
    -- of a document that comes as a stream, what follows the content is seen only after it
    if delivery == .whole && !more.isEmpty then
      throw .malformed
    let t ← match tag, content with
      | "None", .null => pure Ty.none
      | "WeakNone", .null => pure Ty.weakNone
      | "Class", c => Ty.cls <$> orMalformed (Class.decode c)
      | "Union", c => Ty.union <$> Ty.decodeUnion delivery c
      | "Dynamic", c => UnionOf.toDynamic <$> Ty.decodeUnion delivery c
      | _, _ => throw .malformed
    if !more.isEmpty then
      throw .malformed
    return t
  | _ => throw .malformed

def Ty.decodeUnion (delivery : Delivery) : Json → DecodeM Union
  | .obj entries => do
    match ← Ty.decodeUnionFields delivery Option.none Option.none entries with
    | (some members, some weak) => UnionOf.ofDecoded members weak
    | _ => throw .malformed
  | .arr (members :: rest) => do
    let members ← Ty.decodeMembers delivery members
    match rest with
    | [.bool weak] => UnionOf.ofDecoded members weak
    | _ => throw .malformed
  | _ => throw .malformed

/-- The fields of a union that the entries give, after those that were found before. None may be
given twice. -/
def Ty.decodeUnionFields (delivery : Delivery) (members : Option (List Ty)) (weak : Option Bool) :
    List (String × Json) → DecodeM (Option (List Ty) × Option Bool)
  | [] => return (members, weak)
  | (key, v) :: es =>
    match key with
    | "members" => do
      if members.isSome then
        throw .malformed
      let ts ← Ty.decodeMembers delivery v
      Ty.decodeUnionFields delivery (some ts) weak es
    | "weak" => do
      if weak.isSome then
        throw .malformed
      let w ← orMalformed v.bool?
      Ty.decodeUnionFields delivery members (some w) es
    | _ => do
      if !v.isWhole then
        throw .malformed
      Ty.decodeUnionFields delivery members weak es

def Ty.decodeMembers (delivery : Delivery) : Json → DecodeM (List Ty)
  | .arr items => Ty.decodeAll delivery items
  | _ => throw .malformed

def Ty.decodeAll (delivery : Delivery) : List Json → DecodeM (List Ty)
  | [] => return []
  | v :: vs => do
    let t ← Ty.decode delivery v
    let ts ← Ty.decodeAll delivery vs
    return t :: ts

end

/-- The type that a text describes. Warnings are raised as far as the text can be decoded. -/
def Ty.parse (text : String) : DecodeM Ty := do
  let r := Json.read text
  let t ← Ty.decode .streamed r.value
  if !r.clean then
    throw .malformed
  return t

end UnionTypes
