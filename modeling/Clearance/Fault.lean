import Clearance.Text.Literal
import Clearance.Text.Utf8

/-! Everything that can go wrong, by cause, and how each cause reads. A fault with a place
shows the whole label and a caret under the character there. -/
namespace Clearance

/-- What a label does wrong at one place. A missing `seen` is the end of the label. -/
inductive Cause where
  | unclosedQuote
  | emptyQuotes
  | looseEscape
  | mixedConnectives
  | noTerm (seen : Option Char)
  | unexpected (wanted : UInt8) (seen : Option Char)
  | leftOver (seen : Char)
  | other (message : String)
  deriving DecidableEq, Repr

/-- What is wrong with a value that was handed in. -/
inductive Misuse where
  | emptyAuthorization
  | looseEscape (written : String)
  | looseQuote (written : String)
  | notText (defect : Text.Utf8.Defect)
  | other (message : String)
  deriving DecidableEq, Repr

/-- A label that breaks the grammar or nests too deep, with the offset of the byte where it
does; an authorization that may not be mentioned; or a value that is none. -/
inductive Fault where
  | malformed (cause : Cause) (label : String) (offset : Nat)
  | tooDeep (limit : UInt32) (label : String) (offset : Nat)
  | refused (authorization : String)
  | misuse (cause : Misuse)
  deriving DecidableEq, Repr

namespace Cause

def seenName : Option Char → String
  | some c => String.ofList ['\'', c, '\'']
  | none => "end of input"

def message : Cause → String
  | unclosedQuote => "Unclosed quote"
  | emptyQuotes => "Empty authorization token in quotes"
  | looseEscape => "Invalid escaping within quotes"
  | mixedConnectives => "Cannot mix '|' and '&'"
  | noTerm seen =>
    "Expected a '(' character or an authorization token instead saw " ++ seenName seen
  | unexpected wanted seen =>
    "Expected " ++ seenName (some (Char.ofNat wanted.toNat)) ++ " instead saw " ++ seenName seen
  | leftOver seen => "Unexpected character " ++ seenName (some seen)
  | other message => message

end Cause

def Misuse.message : Misuse → String
  | emptyAuthorization => "Empty strings are not legal authorizations"
  | looseEscape written => "Illegal escape sequence in authorization: " ++ written
  | looseQuote written => "Illegal character after slash in authorization: " ++ written
  | notText defect => "expression is not UTF-8: " ++ defect.describe
  | other message => message

/-- How many characters begin before an offset in bytes. -/
def column : List Char → Nat → Nat
  | [], _ => 0
  | c :: cs, offset => if offset = 0 then 0 else column cs (offset - c.utf8Size) + 1

/-- The greatest width that a formatter pads to. -/
def widthLimit : Nat := 65535

/-- A text behind as many blanks as make it `width` characters. Past the greatest width the
formatter gives up. -/
def padded? (width : Nat) (text : String) : Option String :=
  if width ≤ widthLimit then
    some (String.ofList (List.replicate (width - text.length) ' ') ++ text)
  else none

/-- The message with its place, the label, and a caret if the place lies within the label. There is
no report where the caret stands too far to the right. -/
def report? (message label : String) (offset : Nat) : Option String :=
  let head := message ++ " near index " ++ toString offset ++ "\n" ++ label
  if offset < (Text.Utf8.bytes label).length then
    (padded? (column label.toList offset + 1) "^").map fun caret => head ++ "\n" ++ caret
  else some head

namespace Fault

def limitMessage (limit : UInt32) : String :=
  "Nesting depth exceeds maximum of " ++ toString limit.toNat

def message : Fault → String
  | malformed cause _ _ => cause.message
  | tooDeep limit _ _ => limitMessage limit
  | refused authorization => "invalid authorization: " ++ Text.literal authorization
  | misuse cause => "invalid argument: " ++ cause.message

/-- The label at fault, for a fault that has a place. -/
def label? : Fault → Option String
  | malformed _ label _ | tooDeep _ label _ => some label
  | _ => none

def offset? : Fault → Option Nat
  | malformed _ _ offset | tooDeep _ _ offset => some offset
  | _ => none

/-- The message, in a report for a fault that has a place. -/
def display? (fault : Fault) : Option String :=
  match fault with
  | malformed _ label offset | tooDeep _ label offset => report? fault.message label offset
  | refused _ | misuse _ => some fault.message

end Fault

end Clearance
