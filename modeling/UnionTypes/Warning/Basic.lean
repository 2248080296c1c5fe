/-!
# Warnings

Remarks about types that are legal but suspicious. A warning says why it was raised and, where
that is known, how the type in question is shown.
-/

namespace UnionTypes

inductive Warning.Reason where
  /-- A union grew to this many members, more than the limit. -/
  | unionTooLarge (size : Nat)
  /-- A union stores the null value and is weak as well. -/
  | redundantNull
  /-- Narrowing left nothing of a union with this many members. -/
  | excludedAll (size : Nat)
  /-- The class of this name, or the type shown so, cannot be used. -/
  | invalidMember (name : String)
deriving DecidableEq, Repr

/-- A remark about a type. -/
structure Warning where
  reason : Warning.Reason
  /-- How the type in question is shown, if that is known. -/
  typeName : Option String := none
deriving DecidableEq, Repr

namespace Warning

/-- The reason in words. The limit is the one in force when the text is asked for. -/
def Reason.text (limit : Nat) : Reason → String
  | .unionTooLarge n =>
    "union type has " ++ toString n ++ " members (report threshold " ++ toString limit ++ ")"
  | .redundantNull => "union holds None and is also weak"
  | .excludedAll n => "exclusion removed all " ++ toString n ++ " members"
  | .invalidMember name => "invalid member '" ++ name ++ "'"

/-- The whole line that is shown for a warning. -/
def text (limit : Nat) (w : Warning) : String :=
  "type lattice warning: " ++ w.reason.text limit ++
    match w.typeName with
    | some name => " (" ++ name ++ ")"
    | none => ""

end Warning

end UnionTypes
