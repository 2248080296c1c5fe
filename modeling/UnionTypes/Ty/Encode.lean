import UnionTypes.Json.Basic
import UnionTypes.Ty.Basic

/-!
# Types as JSON

A null type is written by its name, every other type as an object with one entry, whose key says
what the type is. Classes, attributes and unions are objects of all their fields. A dynamic type is
written like the union inside it.
-/

namespace UnionTypes

def AttributeKind.label : AttributeKind → String
  | .method => "Method"
  | .field => "Field"
  | .property => "Property"

def Attribute.encode (a : Attribute) : Json :=
  .obj [("name", .str a.name), ("kind", .str a.kind.label), ("readonly", .bool a.readonly)]

mutual

/-- The class as a document, its bases included. -/
def Class.encode : Class → Json
  | ⟨name, moduleName, builtin, dynamicAttributes, valid, attributes, bases⟩ =>
    .obj
      [("name", .str name),
        ("module", match moduleName with
          | some m => .str m
          | none => .null),
        ("builtin", .bool builtin),
        ("dynamic_attributes", .bool dynamicAttributes),
        ("valid", .bool valid),
        ("attributes", .arr (attributes.map Attribute.encode)),
        ("bases", .arr (Class.encodeAll bases))]

def Class.encodeAll : List Class → List Json
  | [] => []
  | c :: cs => Class.encode c :: Class.encodeAll cs

end

mutual

def Ty.encode : Ty → Json
  | .cls c => .obj [("Class", c.encode)]
  | .none => .str "None"
  | .weakNone => .str "WeakNone"
  | .union ⟨ms, w⟩ =>
    .obj [("Union", .obj [("members", .arr (Ty.encodeAll ms)), ("weak", .bool w)])]
  | .dynamic ⟨ms, w⟩ =>
    .obj [("Dynamic", .obj [("members", .arr (Ty.encodeAll ms)), ("weak", .bool w)])]

def Ty.encodeAll : List Ty → List Json
  | [] => []
  | m :: ms => Ty.encode m :: Ty.encodeAll ms

end

end UnionTypes
