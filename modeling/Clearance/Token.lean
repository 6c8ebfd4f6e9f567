import Clearance.Escape
import Clearance.Fault
import Clearance.Span

/-! One authorization as it stands in a label. -/
namespace Clearance

/-- What a value may be made of: bare bytes alone, or any characters, between quotes. -/
inductive Charset where
  | basic
  | any
  deriving DecidableEq, Repr

/-- A token with its quotes (`text`) and without (`body`). -/
structure Token where
  text : List UInt8
  body : List UInt8
  span : Span
  quoted : Bool
  escapes : Bool
  deriving DecidableEq, Repr

namespace Token

def charset (t : Token) : Charset := if t.quoted then .any else .basic

/-- The bytes of the authorization: the body without its escape marks. -/
def content (t : Token) : List UInt8 := if t.escapes then Escape.strip t.body else t.body

/-- The authorization that the token stands for. One that is not text cannot be granted. -/
def value (t : Token) : Except Fault String :=
  match Text.Utf8.decode? t.content with
  | some value => .ok value
  | none => .error (.refused (Text.Utf8.decodeLossy t.content))

end Token

end Clearance
