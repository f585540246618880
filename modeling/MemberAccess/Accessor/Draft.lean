import MemberAccess.Accessor.Spec

/-!
# Drafts of accessors

A draft is configured step by step and then becomes a specification, once. A step that is refused
changes nothing.
-/

namespace MemberAccess.Accessor

open Java

/-- An accessor that is being configured, or has been built and can be configured no more. -/
structure Draft where
  name : Text
  isStatic : Bool
  returnType : Text
  parameters : List Parameter
  target : Option Target
  isConsumed : Bool
  deriving DecidableEq

/-- A method made from a specification. -/
structure GeneratedMethod where
  text : Text
  method : MethodDeclaration

/-- Why a draft gives no method: it is incomplete or used up, or its text is no method. -/
inductive BuildError where
  | configuration (e : ConfigurationError)
  | method (e : MethodError)

def BuildError.message : BuildError → Text
  | configuration e => e.message
  | method e => e.fault.message

/-- Makes the method of a specification for a class. -/
def Spec.build (style : Style) (context : Option Text) (spec : Spec) :
    Except MethodError GeneratedMethod :=
  let text := spec.assemble style
  (parseFor context text).map fun m => ⟨text, m⟩

namespace Draft

/-- A draft in which only the name is configured. -/
def new (name : Text) : Draft where
  name := name
  isStatic := false
  returnType := "void"
  parameters := []
  target := none
  isConsumed := false

/-- A change to a draft that can still be configured. -/
inductive Change where
  | setName (name : Text)
  | setStatic (isStatic : Bool)
  | setReturnType (type : Text)
  | addParameter (binaryType name : Text)
  /-- Adds the parameters of an existing member. -/
  | addParameters (parameters : List MemberParameter)
  | setTarget (target : Target)

def change (d : Draft) : Change → Draft
  | .setName name => { d with name := name }
  | .setStatic isStatic => { d with isStatic := isStatic }
  | .setReturnType type => { d with returnType := type }
  | .addParameter binaryType name =>
    { d with parameters := d.parameters ++ [Parameter.ofBinary binaryType name] }
  | .addParameters parameters =>
    { d with parameters := d.parameters ++ parameters.mapIdx Parameter.ofMember }
  | .setTarget target => { d with target := some target }

/-- Refuses a draft that has been built. -/
def checkOpen (d : Draft) : Except ConfigurationError Unit :=
  if d.isConsumed then .error (.alreadyBuilt d.name) else .ok ()

/-- Changes a draft, unless it has been built. -/
def configure (d : Draft) (c : Change) : Except ConfigurationError Draft := do
  d.checkOpen
  return d.change c

/-- The specification that a draft amounts to, if it can be built and has all that is needed. -/
def spec (d : Draft) : Except ConfigurationError Spec := do
  d.checkOpen
  if Text.isBlank d.name then
    throw .emptyName
  match d.target with
  | none => throw (.noTarget d.name)
  | some target =>
    target.check d.parameters
    return ⟨d.name, d.isStatic, d.returnType, d.parameters, target⟩

/-- The draft after its specification has been taken. -/
def consume (d : Draft) : Draft := { d with isConsumed := true }

/-- Takes the specification of a draft and thereby uses the draft up. -/
def freeze (d : Draft) : Draft × Except ConfigurationError Spec :=
  match d.spec with
  | .error e => (d, .error e)
  | .ok spec => (d.consume, .ok spec)

/-- Makes the method of a draft. The draft is used up even if its text is no method. -/
def build (style : Style) (context : Option Text) (d : Draft) :
    Draft × Except BuildError GeneratedMethod :=
  match d.freeze with
  | (d, .error e) => (d, .error (.configuration e))
  | (d, .ok spec) =>
    match spec.build style context with
    | .error e => (d, .error (.method e))
    | .ok m => (d, .ok m)

/-- What can be done with a draft. -/
inductive Step where
  | configure (c : Change)
  | freeze
  | build (style : Style) (context : Option Text)

/-- What a step gives. -/
inductive Result where
  | configured
  | frozen (spec : Spec)
  | built (m : GeneratedMethod)
  | refused (e : BuildError)

/-- Does a step. A step that is refused leaves the draft as it is, except that a build uses it up
even if its text is no method. -/
def step (d : Draft) : Step → Draft × Result
  | .configure c =>
    match d.configure c with
    | .error e => (d, .refused (.configuration e))
    | .ok d => (d, .configured)
  | .freeze =>
    match d.freeze with
    | (d, .error e) => (d, .refused (.configuration e))
    | (d, .ok spec) => (d, .frozen spec)
  | .build style context =>
    match d.build style context with
    | (d, .error e) => (d, .refused e)
    | (d, .ok m) => (d, .built m)

/-- Does one step after the other. -/
def run (d : Draft) : List Step → Draft × List Result
  | [] => (d, [])
  | s :: rest =>
    let (d, result) := d.step s
    let (d, results) := run d rest
    (d, result :: results)

end Draft

end MemberAccess.Accessor
