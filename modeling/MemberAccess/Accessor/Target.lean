import MemberAccess.Accessor.Parameter

/-!
# Members to access and the code that reaches them

For each kind of member there is the expression for the class where the search begins, the code that
finds the member in it or the nearest class above it, and the expression that accesses the member.
-/

namespace MemberAccess.Accessor

open Java

inductive FieldAccess where
  | get | set
  deriving DecidableEq, Repr

/-- A member and what is done with it. -/
inductive Target where
  | field (access : FieldAccess) (className fieldName : Text)
  | method (className methodName : Text)
  | constructor (className : Text)
  deriving DecidableEq

/-- Why no accessor can be made. -/
inductive ConfigurationError where
  | alreadyBuilt (name : Text)
  | emptyName
  | noTarget (name : Text)
  | noValueParameter (className fieldName : Text)
  deriving DecidableEq

def ConfigurationError.message : ConfigurationError → Text
  | alreadyBuilt name => "Accessor " ++ name ++ " has already been built"
  | emptyName => "Accessor method name must not be empty"
  | noTarget name => "No member to access configured for accessor " ++ name
  | noValueParameter className fieldName =>
    "Write accessor for field " ++ className ++ "." ++ fieldName ++ " has no value parameter"

/-- A call of `method` with the arguments. -/
def call (method : Text) (arguments : List Text) : Text :=
  method ++ "(" ++ Text.join ", " arguments ++ ")"

/-- Code that repeats a look-up on each class above `klass` until it succeeds. When no class is
left, the error of the last look-up is thrown. -/
def superclassWalk (names : LocalNames) (lookup notFound : Text) : Text :=
  Text.join "\n"
    ["while (" ++ names.member ++ " == null) \x7b",
     "    try \x7b",
     "        " ++ names.member ++ " = " ++ names.klass ++ "." ++ lookup ++ ";",
     "    \x7d",
     "    catch (" ++ notFound ++ " " ++ names.error ++ ") \x7b",
     "        " ++ names.klass ++ " = " ++ names.klass ++ ".getSuperclass();",
     "        if (" ++ names.klass ++ " == null) throw " ++ names.error ++ ";",
     "    \x7d",
     "\x7d",
     names.member ++ ".setAccessible(true);"]

/-- The class of the receiver, or the named class where there is none or it is null. -/
def receiverClass (receiver : Option Text) (className : Text) : Text :=
  match receiver with
  | none => TypeName.classExpression className
  | some name =>
    name ++ " == null ? " ++ TypeName.classExpression className ++ " : " ++ name ++ ".getClass()"

namespace Target

/-- The type of the member's reflection object. -/
def memberType : Target → Text
  | field .. => "java.lang.reflect.Field"
  | method .. => "java.lang.reflect.Method"
  | constructor _ => "java.lang.reflect.Constructor<?>"

/-- The exception thrown where a class does not declare the member. -/
def notFound : Target → Text
  | field .. => "java.lang.NoSuchFieldException"
  | method .. | constructor _ => "java.lang.NoSuchMethodException"

/-- The checked exceptions of finding and accessing the member. -/
def exceptions (target : Target) : List Text :=
  let ofCall : List Text :=
    match target with
    | field .. => []
    | method .. => ["java.lang.reflect.InvocationTargetException"]
    | constructor _ =>
      ["java.lang.reflect.InvocationTargetException", "java.lang.InstantiationException"]
  [target.notFound, "java.lang.IllegalAccessException", "java.lang.ClassNotFoundException"] ++
    ofCall

/-- Whether the parameters are enough for the access: a value to be written has to come from one. -/
def check (parameters : List Parameter) : Target → Except ConfigurationError Unit
  | field .set className fieldName =>
    if parameters.isEmpty then .error (.noValueParameter className fieldName) else .ok ()
  | _ => .ok ()

/-- The name of the parameter through which the member is reached: the first, except that the only
parameter of a write is its value. A constructor is not reached through an object. -/
def receiver? (parameters : List Parameter) : Target → Option Text
  | field .set .. => if parameters.length < 2 then none else parameters.head?.map (·.name)
  | field .get .. | method .. => parameters.head?.map (·.name)
  | constructor _ => none

def className : Target → Text
  | field _ className _ | method className _ | constructor className => className

/-- The expression for the class where the search begins. -/
def classLookup (parameters : List Parameter) (target : Target) : Text :=
  receiverClass (target.receiver? parameters) target.className

/-- The call that looks the member up in one class. -/
def lookup (parameters : List Parameter) : Target → Text
  | field _ _ fieldName => call "getDeclaredField" [TypeName.quote fieldName]
  | method _ methodName =>
    call "getDeclaredMethod"
      (TypeName.quote methodName ::
        (parameters.drop 1).map fun p => TypeName.classExpression p.binaryName)
  | constructor _ =>
    call "getDeclaredConstructor" (parameters.map fun p => TypeName.classExpression p.binaryName)

/-- The code that finds the member. -/
def memberLookup (parameters : List Parameter) (target : Target) : Text :=
  superclassWalk (LocalNames.of parameters) (target.lookup parameters) target.notFound

/-- The name of the last parameter, which is the value to be written. -/
def valueName (parameters : List Parameter) : Text := (parameters.getLast?.map (·.name)).getD []

/-- The expression that accesses the member. -/
def access (parameters : List Parameter) (target : Target) : Text :=
  let member := (LocalNames.of parameters).member
  match target with
  | field kind _ _ =>
    let receiver := (Parameter.known? (target.receiver? parameters)).getD "null"
    match kind with
    | .get => call (member ++ ".get") [receiver]
    | .set => call (member ++ ".set") [receiver, valueName parameters]
  | method .. =>
    if parameters.isEmpty then call (member ++ ".invoke") ["null"]
    else call (member ++ ".invoke") (parameters.map (·.name))
  | constructor _ => call (member ++ ".newInstance") (parameters.map (·.name))

end Target

end MemberAccess.Accessor
