import MemberAccess.Java.TypeName

/-!
# Parameters of accessors and names of their locals
-/

namespace MemberAccess.Accessor

open Java

/-- A parameter of a generated method. -/
structure Parameter where
  /-- The type as it is declared. -/
  type : Text
  name : Text
  /-- The name by which the class of the type is loaded. -/
  binaryName : Text
  deriving DecidableEq

/-- A parameter of an existing member, of which the name or the class may be unknown. -/
structure MemberParameter where
  type : Text
  name : Option Text
  binaryName : Option Text

namespace Parameter

/-- A parameter whose type is known by its binary name. -/
def ofBinary (binaryName name : Text) : Parameter :=
  ⟨TypeName.toSource binaryName, name, binaryName⟩

/-- The text, unless it is missing or empty. -/
def known? (t : Option Text) : Option Text := t.filter (!·.isEmpty)

/-- The parameter for the `index`th parameter of a member. Without a name it is numbered, and
without a class it goes by its type. -/
def ofMember (index : Nat) (p : MemberParameter) : Parameter where
  type := p.type
  name := (known? p.name).getD ("arg" ++ Text.ofNat index)
  binaryName := (known? p.binaryName).getD p.type

end Parameter

/-- The names of the local variables of a generated body. -/
structure LocalNames where
  klass : Text
  member : Text
  error : Text
  deriving DecidableEq

namespace LocalNames

/-- The base with a number, where zero is not written. -/
def numbered (base : Text) (k : Nat) : Text := if k = 0 then base else base ++ Text.ofNat k

/-- The first of `base`, `base1`, `base2` and so on that is not taken. Of one more than there are
taken names, one is free. -/
def free (taken : List Text) (base : Text) : Text :=
  (((List.range (taken.length + 1)).map (numbered base)).find? (!taken.contains ·)).getD base

/-- Names that no parameter has. -/
def of (parameters : List Parameter) : LocalNames :=
  let taken := parameters.map (·.name)
  ⟨free taken "klass", free taken "member", free taken "e"⟩

end LocalNames

end MemberAccess.Accessor
