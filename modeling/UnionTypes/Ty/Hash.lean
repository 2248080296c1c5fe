import UnionTypes.Ty.Basic

/-!
# Hashing types

A type is hashed by a list of tokens that are fed to a hasher. Equal types give the same tokens:
the members of a union are hashed one by one and their hashes added up, modulo a word, so that
their order is lost, and a dynamic type gives the tokens of the weak union it compares like.
-/

namespace UnionTypes

/-- A unit of hasher input. -/
inductive HashToken where
  | tag (n : Nat)
  | flag (b : Bool)
  | text (s : String)
  | word (w : UInt64)
deriving DecidableEq, Repr

def Attribute.hashTokens (a : Attribute) : List HashToken :=
  let kind := match a.kind with
    | .method => 0
    | .field => 1
    | .property => 2
  [.text a.name, .tag kind, .flag a.readonly]

namespace Class

mutual

/-- The tokens of a class: all its fields, each list with its length in front. -/
def hashTokens : Class → List HashToken
  | ⟨name, moduleName, builtin, dynamicAttributes, valid, attributes, bases⟩ =>
    .text name ::
      (match moduleName with
        | some m => [.tag 1, .text m]
        | none => [.tag 0]) ++
      [.flag builtin, .flag dynamicAttributes, .flag valid, .tag attributes.length] ++
      attributes.flatMap Attribute.hashTokens ++
      .tag bases.length :: hashTokensAll bases

def hashTokensAll : List Class → List HashToken
  | [] => []
  | c :: cs => hashTokens c ++ hashTokensAll cs

end

end Class

namespace Ty

mutual

/-- The tokens of a type, where `finish` turns the tokens of a member into its hash. -/
def hashTokens (finish : List HashToken → UInt64) : Ty → List HashToken
  | .cls c => .tag 0 :: c.hashTokens
  | .none => [.tag 1]
  | .weakNone => [.tag 2]
  | .union ⟨ms, w⟩ | .dynamic ⟨ms, w⟩ => [.tag 3, .word (hashSum finish ms), .flag w]

/-- The sum of the hashes of the types, modulo a word. -/
def hashSum (finish : List HashToken → UInt64) : List Ty → UInt64
  | [] => 0
  | m :: ms => finish (hashTokens finish m) + hashSum finish ms

end

end Ty

/-- Feeds the tokens to the hash function of core, in order. -/
def HashToken.digest (ts : List HashToken) : UInt64 :=
  ts.foldl
    (fun h t => mixHash h <| match t with
      | .tag n => hash n
      | .flag b => hash b
      | .text s => hash s
      | .word w => w)
    7

instance : Hashable Ty where
  hash t := HashToken.digest (t.hashTokens HashToken.digest)

end UnionTypes
