/-! Characters as bytes. A reading takes one character, or one broken piece of a
character, from the front; a broken piece is as long as some character could still begin
with it. Strict decoding refuses broken pieces and lossy decoding shows each of them as
one replacement character. -/
namespace Clearance.Text.Utf8

/-- The bytes of some characters. -/
def encode (cs : List Char) : List UInt8 := cs.flatMap String.utf8EncodeChar

/-- The bytes of a string. -/
def bytes (s : String) : List UInt8 := encode s.toList

/-- Stands for what is no character. -/
def replacement : Char := '\uFFFD'

/-- What a lead byte promises: its share of the code point, and the range of each byte that
has to follow. The narrow ranges keep out overlong forms, surrogates and code points past
the last. -/
def lead? (b : UInt8) : Option (Nat × List (Nat × Nat)) :=
  let n := b.toNat
  if n ≤ 0x7F then some (n, [])
  else if 0xC2 ≤ n ∧ n ≤ 0xDF then some (n % 32, [(0x80, 0xBF)])
  else if n = 0xE0 then some (0, [(0xA0, 0xBF), (0x80, 0xBF)])
  else if n = 0xED then some (13, [(0x80, 0x9F), (0x80, 0xBF)])
  else if 0xE1 ≤ n ∧ n ≤ 0xEF then some (n % 16, [(0x80, 0xBF), (0x80, 0xBF)])
  else if n = 0xF0 then some (0, [(0x90, 0xBF), (0x80, 0xBF), (0x80, 0xBF)])
  else if 0xF1 ≤ n ∧ n ≤ 0xF3 then some (n % 8, [(0x80, 0xBF), (0x80, 0xBF), (0x80, 0xBF)])
  else if n = 0xF4 then some (4, [(0x80, 0x8F), (0x80, 0xBF), (0x80, 0xBF)])
  else none

/-- What stands at the front of some bytes, and what is left behind it. -/
inductive Front where
  | char (c : Char) (rest : List UInt8)
  | broken (rest : List UInt8)

/-- The character at the front, if there is one. -/
def Front.char? : Front → Option Char
  | .char c _ => some c
  | .broken _ => none

def Front.rest : Front → List UInt8
  | .char _ rest | .broken rest => rest

/-- Adds six bits for each byte that keeps to its range, and stops at one that does not. -/
def follow (value : Nat) : List (Nat × Nat) → List UInt8 → Front
  | [], bs => .char (Char.ofNat value) bs
  | _ :: _, [] => .broken []
  | (low, high) :: ranges, b :: bs =>
    if low ≤ b.toNat ∧ b.toNat ≤ high then follow (value * 64 + b.toNat % 64) ranges bs
    else .broken (b :: bs)

def front (b : UInt8) (bs : List UInt8) : Front :=
  match lead? b with
  | some (value, ranges) => follow value ranges bs
  | none => .broken bs

theorem rest_follow_length_le (value : Nat) (ranges : List (Nat × Nat)) (bs : List UInt8) :
    (follow value ranges bs).rest.length ≤ bs.length := by
  fun_induction follow value ranges bs with
  | case1 => exact Nat.le_refl _
  | case2 => exact Nat.le_refl _
  | case3 _ _ _ _ _ bs _ ih => exact Nat.le_succ_of_le ih
  | case4 => exact Nat.le_refl _

theorem rest_front_length_le (b : UInt8) (bs : List UInt8) :
    (front b bs).rest.length ≤ bs.length := by
  unfold front
  split
  · exact rest_follow_length_le ..
  · exact Nat.le_refl _

/-- The characters of some bytes in order, `none` for each broken piece. -/
def pieces : List UInt8 → List (Option Char)
  | [] => []
  | b :: bs => (front b bs).char? :: pieces (front b bs).rest
termination_by bs => bs.length
decreasing_by exact Nat.lt_succ_of_le (rest_front_length_le b bs)

/-- The string whose bytes these are, if there is one. -/
def decode? (bs : List UInt8) : Option String :=
  ((pieces bs).mapM id).map String.ofList

/-- The first broken piece of some bytes. -/
structure Defect where
  /-- Where it begins. -/
  index : Nat
  /-- How long it is, unless the bytes end before a character that it could begin. -/
  length? : Option Nat
  deriving DecidableEq, Repr

/-- The first broken piece, where `index` bytes stand in front; at the end if there is none. -/
def defectFrom (index : Nat) : List UInt8 → Defect
  | [] => ⟨index, none⟩
  | b :: bs =>
    match found : front b bs with
    | .char _ rest => defectFrom (index + (bs.length + 1 - rest.length)) rest
    | .broken rest =>
      ⟨index, if rest.isEmpty && (lead? b).isSome then none else some (bs.length + 1 - rest.length)⟩
termination_by bs => bs.length
decreasing_by
  have shorter := rest_front_length_le b bs
  rw [found] at shorter
  exact Nat.lt_succ_of_le shorter

def defect (bs : List UInt8) : Defect := defectFrom 0 bs

/-- The defect in a line. -/
def Defect.describe : Defect → String
  | ⟨index, some length⟩ =>
    "invalid utf-8 sequence of " ++ toString length ++ " bytes from index " ++ toString index
  | ⟨index, none⟩ => "incomplete utf-8 byte sequence from index " ++ toString index

/-- The string of these bytes, with a replacement character for each broken piece. -/
def decodeLossy (bs : List UInt8) : String :=
  String.ofList ((pieces bs).map (·.getD replacement))

/-- The character that begins some bytes; the replacement character if none does. -/
def firstChar : List UInt8 → Char
  | [] => replacement
  | b :: bs => (front b bs).char?.getD replacement

end Clearance.Text.Utf8
