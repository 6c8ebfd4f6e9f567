/-! The bytes that mean something in a label, and those that may stand in an unquoted
authorization. -/
namespace Clearance

def quoteByte : UInt8 := 0x22
def escapeByte : UInt8 := 0x5C
def openByte : UInt8 := 0x28
def closeByte : UInt8 := 0x29

/-- Letters and digits of ASCII and `_`, `-`, `:`, `.`, `/`. -/
def isBareByte (b : UInt8) : Bool :=
  let c := Char.ofNat b.toNat
  c.isAlphanum || c == '_' || c == '-' || c == ':' || c == '.' || c == '/'

def isBare (bs : List UInt8) : Bool := bs.all isBareByte

theorem isBareByte_quote : isBareByte quoteByte = false := by decide

theorem isBareByte_escape : isBareByte escapeByte = false := by decide

theorem isBareByte_open : isBareByte openByte = false := by decide

theorem isBareByte_close : isBareByte closeByte = false := by decide

theorem escape_ne_quote : escapeByte ≠ quoteByte := by decide

theorem open_ne_quote : openByte ≠ quoteByte := by decide

theorem isBareByte_ne {b c : UInt8} (bare : isBareByte b = true) (other : isBareByte c = false) :
    b ≠ c := by
  rintro rfl
  rw [bare] at other
  cases other

/-- No bare text begins with a byte that is not bare. -/
theorem bare_append_ne {bytes rest more : List UInt8} {c : UInt8} (nonempty : bytes ≠ [])
    (all : isBare bytes = true) (other : isBareByte c = false) : bytes ++ rest ≠ c :: more := by
  intro equal
  obtain ⟨b, bs, rfl⟩ := List.exists_cons_of_ne_nil nonempty
  have bare : isBareByte b = true := List.all_eq_true.mp all b List.mem_cons_self
  exact isBareByte_ne bare other (List.cons.inj equal).1

end Clearance
