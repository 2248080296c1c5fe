import UnionTypes.Class.Basic

/-!
# The classes of the language itself

The classes every program has, with the attributes that name resolution and completion need. The
top class has no base; every other one inherits from it, `bool` by way of `int`.
-/

namespace UnionTypes.Class.Builtin

def object : Class :=
  ({ name := "object" } : Class).asBuiltin.declare
    [.field "__class__", .field "__dict__", .field "__doc__", .method "__eq__",
      .method "__hash__", .method "__init__", .method "__repr__", .method "__str__"]

/-- A class of the language with these attributes and this base. -/
def make (name : String) (attributes : List Attribute) (base : Class) : Class :=
  ({ name } : Class).asBuiltin.declare attributes |>.extend base

/-- The class that answers for the null value. -/
def noneType : Class := make "NoneType" [.method "__bool__"] object

def int : Class :=
  make "int"
    [.method "__add__", .method "__sub__", .method "__mul__", .method "bit_length",
      .method "to_bytes", .property "real", .property "imag"]
    object

def bool : Class := make "bool" [.method "__and__", .method "__or__"] int

def float : Class :=
  make "float"
    [.method "__add__", .method "__sub__", .method "is_integer", .method "hex",
      .property "real", .property "imag"]
    object

def str : Class :=
  make "str"
    [.method "__add__", .method "format", .method "join", .method "lower", .method "split",
      .method "startswith", .method "strip", .method "upper"]
    object

def bytes : Class :=
  make "bytes" [.method "decode", .method "hex", .method "startswith", .method "strip"] object

def list : Class :=
  make "list"
    [.method "append", .method "count", .method "extend", .method "index", .method "pop",
      .method "sort"]
    object

def dict : Class :=
  make "dict"
    [.method "get", .method "items", .method "keys", .method "pop", .method "update",
      .method "values"]
    object

/-- All classes of the language, in the order in which they are listed to a user. -/
def all : List Class := [object, noneType, int, bool, float, str, bytes, list, dict]

/-- The names of the classes of the language, in the same order. -/
def names : List String := all.map (·.name)

def find? (name : String) : Option Class := all.find? (·.name == name)

end UnionTypes.Class.Builtin
