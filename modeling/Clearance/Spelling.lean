import Clearance.Escape
import Clearance.Fault

/-! How an authorization is written in a label: as it is if it is made of bare bytes, and
escaped between quotes otherwise. -/
namespace Clearance.Spelling

def escape (value : String) : String := String.ofList (Escape.escape value.toList)

/-- The value between quotes, needed or not. -/
def enclose (value : String) : String :=
  String.ofList ('"' :: Escape.escape value.toList ++ ['"'])

/-- Whether the value may stand without quotes. -/
def isBareValue (value : String) : Bool := isBare (Text.Utf8.bytes value)

/-- The value, in quotes if it needs them. -/
def write (value : String) : String := if isBareValue value then value else enclose value

def flawed (written : String) : Escape.Flaw → Fault
  | .looseEscape => .misuse (.looseEscape written)
  | .looseQuote => .misuse (.looseQuote written)

/-- Takes off one level of escaping. Marks come in pairs, so an odd count of them is a loose
escape wherever a quote stands. -/
def unescape (written : String) : Except Fault String :=
  if written.toList.countP Escape.isMark % 2 = 1 then .error (flawed written .looseEscape)
  else
    match Escape.unescape written.toList with
    | .ok value => .ok (String.ofList value)
    | .error flaw => .error (flawed written flaw)

/-- The spelling of a value in a label. -/
def quote (value : String) : Except Fault String :=
  if value.isEmpty then .error (.misuse .emptyAuthorization) else .ok (write value)

/-- What stands between the quotes, for a text that has one at each end. -/
def inside? : List Char → Option (List Char)
  | '"' :: cs => if cs.getLast? = some '"' then some cs.dropLast else none
  | _ => none

/-- The value that a spelling stands for; a text without quotes at both ends is its own value. -/
def unquote (written : String) : Except Fault String :=
  if written.isEmpty || written == "\"\"" then .error (.misuse .emptyAuthorization)
  else
    match inside? written.toList with
    | some inner => unescape (String.ofList inner)
    | none => .ok written

end Clearance.Spelling
