import MemberAccess.Accessor.Target
import MemberAccess.Java.Method
import MemberAccess.Text.Lines

/-!
# Accessor methods

A specification is all that an accessor method is made of; from it the text of the method is
assembled.
-/

namespace MemberAccess.Accessor

open Java

/-- What an accessor method is called, takes, gives back and accesses. -/
structure Spec where
  name : Text
  isStatic : Bool
  returnType : Text
  parameters : List Parameter
  target : Target
  deriving DecidableEq

/-- How method text is laid out, and the exception that stands in for checked ones. -/
structure Style where
  indent : Text := "    "
  uncheckedException : Text := "java.lang.RuntimeException"

namespace Style

/-- Code that throws the unchecked exception in place of another. -/
def catchBlock (style : Style) (error type : Text) : Text :=
  "catch (" ++ type ++ " " ++ error ++ ") \x7b throw new " ++ style.uncheckedException ++
  "(" ++ error ++ "); \x7d"

end Style

namespace Spec

/-- The statement that accesses the member and gives back what the method is to give back. -/
def accessStatement (spec : Spec) : Text :=
  let access := spec.target.access spec.parameters
  if spec.returnType = "void" then access ++ ";"
  else "return (" ++ spec.returnType ++ ") " ++ access ++ ";"

/-- The code that finds and accesses the member, without regard to exceptions. -/
def accessCode (spec : Spec) : Text :=
  let names := LocalNames.of spec.parameters
  Text.join "\n"
    ["java.lang.Class<?> " ++ names.klass ++ " = " ++
       spec.target.classLookup spec.parameters ++ ";",
     spec.target.memberType ++ " " ++ names.member ++ " = null;",
     spec.target.memberLookup spec.parameters,
     spec.accessStatement]

/-- The body of the method, in which checked exceptions are replaced. -/
def body (style : Style) (spec : Spec) : Text :=
  let error := (LocalNames.of spec.parameters).error
  let attempt : List Text := ["try \x7b", Text.indent style.indent spec.accessCode, "\x7d"]
  Text.join "\n" (attempt ++ spec.target.exceptions.map (style.catchBlock error))

/-- What stands before the body. -/
def header (spec : Spec) : Text :=
  (if spec.isStatic then "public static " else "public ") ++ spec.returnType ++ " " ++
  call spec.name (spec.parameters.map fun p => p.type ++ " " ++ p.name)

/-- The text of the accessor method. -/
def assemble (style : Style) (spec : Spec) : Text :=
  spec.header ++ " \x7b\n" ++ Text.indent style.indent (spec.body style) ++ "\n\x7d\n"

end Spec

end MemberAccess.Accessor
