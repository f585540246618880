import MemberAccess.Proofs.Java.Ast.Decoder
import MemberAccess.Proofs.Java.Ast.Utf16
import MemberAccess.Proofs.Json.Printer
import MemberAccess.Proofs.Json.Reader

/-!
# Nothing is lost in the JSON text of a method

The text stands for the object of the method and for no other value, and the method can be decoded
from it, both up to the code units of the texts in it.
-/

namespace MemberAccess.Java.MethodDeclaration

def ofText? (t : Text) : Option MethodDeclaration := (Json.read? t).bind ofJson?

variable (m : MethodDeclaration) (indent : Nat)

theorem written_render_toJson : Json.Written (m.toJson.render indent) m.utf16.toJson := by
  have := Json.written_render indent m.toJson
  rwa [m.toJson_utf16] at this

theorem ofText?_render : ofText? (m.toJson.render indent) = some m.utf16 := by
  rw [ofText?, Json.read?_written (m.written_render_toJson indent)]
  exact m.utf16.ofJson?_toJson

/-- The JSON text of a method is well-formed ASCII text, stands for the object of the method and is
decoded to the method. -/
theorem render_lossless :
    Json.isAscii (m.toJson.render indent) = true ∧
      (∀ v, Json.Written (m.toJson.render indent) v ↔ v = m.utf16.toJson) ∧
      m.utf16.toJson = m.toJson.utf16 ∧
      ofText? (m.toJson.render indent) = some m.utf16 ∧
      ∀ (m' : MethodDeclaration) (indent' : Nat),
        m'.toJson.render indent' = m.toJson.render indent → m'.utf16 = m.utf16 := by
  have hwritten := m.written_render_toJson indent
  have hdecoded := m.ofText?_render indent
  refine ⟨Json.isAscii_renderAt indent 0 m.toJson, fun v => ⟨fun h => h.unique hwritten, ?_⟩,
    m.toJson_utf16.symm, hdecoded, fun m' indent' h => ?_⟩
  · rintro rfl
    exact hwritten
  · have hdecoded' := m'.ofText?_render indent'
    rw [h] at hdecoded'
    exact Option.some.inj (hdecoded'.symm.trans hdecoded)

end MemberAccess.Java.MethodDeclaration
