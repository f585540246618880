import MemberAccess.Text.Basic

/-!
# JSON values
-/

namespace MemberAccess

/-- A JSON value. The members of an object stand in the order in which they are written. -/
inductive Json where
  | null
  | bool (b : Bool)
  | number (n : Nat)
  | string (t : Text)
  | array (items : List Json)
  | object (members : List (String × Json))

namespace Json

/-- `null` for `none`. -/
def ofOption {α : Type} (encode : α → Json) : Option α → Json
  | none => null
  | some a => encode a

def ofList {α : Type} (encode : α → Json) (items : List α) : Json := array (items.map encode)

end Json

end MemberAccess
