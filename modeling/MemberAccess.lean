import MemberAccess.Main
import MemberAccess.Proofs.Accessor.LifeCycle
import MemberAccess.Proofs.Java.Ebnf.Unambiguous
import MemberAccess.Proofs.Java.Fault
import MemberAccess.Proofs.Java.Padding
import MemberAccess.Proofs.Accessor.Indentation
import MemberAccess.Proofs.Java.Header
import MemberAccess.Proofs.Java.Wording
import MemberAccess.Proofs.Accessor.Header
import MemberAccess.Proofs.Json.Grammar
import MemberAccess.Proofs.Json.Reader
import MemberAccess.Proofs.Text.Digits
import MemberAccess.Proofs.Json.Printer
import MemberAccess.Proofs.Java.Ast.Utf16
import MemberAccess.Proofs.Java.Ast.Decoder
import MemberAccess.Proofs.Java.Ast.Lossless
import MemberAccess.Proofs.Accessor.LocalNames
import MemberAccess.Proofs.Accessor.RoundTrip
import MemberAccess.Proofs.Java.Writable
import MemberAccess.Proofs.Java.Ebnf.Branches
import MemberAccess.Proofs.Java.Ebnf.Kinds
import MemberAccess.Proofs.Java.WellFormed
import MemberAccess.Proofs.Accessor.Search
import MemberAccess.Proofs.Accessor.Arguments
import MemberAccess.Proofs.Accessor.Hygiene
import MemberAccess.Proofs.Java.Quote
import MemberAccess.Proofs.Java.Relayout
import MemberAccess.Proofs.Java.WrittenType
import MemberAccess.Proofs.Java.Erasure
import MemberAccess.Proofs.Accessor.ParameterNames
import MemberAccess.Proofs.Java.ErasedType
import MemberAccess.Proofs.Java.Loadable
import MemberAccess.Proofs.Accessor.FreeNames
import MemberAccess.Proofs.CommandLine.Files
import MemberAccess.Proofs.CommandLine.Accessors
