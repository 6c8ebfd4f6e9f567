import Clearance.Proofs.Places

/-! Which characters messages name. In a label that is text every place where a reading can stop
lies between two characters, since the byte before it is one of ASCII. So the character that is
decoded there, from four bytes at most, is the one that the label has there. -/
namespace Clearance

namespace Text.Utf8

/-- What follows a lead byte is told by as many bytes as it promises. -/
theorem char?_follow_take (value : Nat) (ranges : List (Nat × Nat)) (bs : List UInt8) :
    ∀ n, ranges.length ≤ n → (follow value ranges (bs.take n)).char? =
      (follow value ranges bs).char? := by
  fun_induction follow value ranges bs with
  | case1 => exact fun n _ => rfl
  | case2 =>
    intro n _
    rw [List.take_nil, follow]
  | case3 value low high ranges b bs within ih =>
    intro n room
    obtain ⟨n, rfl⟩ := Nat.exists_eq_succ_of_ne_zero (Nat.ne_of_gt (Nat.zero_lt_of_lt room))
    rw [List.take_succ_cons, follow, if_pos within]
    exact ih n (Nat.le_of_succ_le_succ room)
  | case4 value low high ranges b bs outside =>
    intro n room
    obtain ⟨n, rfl⟩ := Nat.exists_eq_succ_of_ne_zero (Nat.ne_of_gt (Nat.zero_lt_of_lt room))
    rw [List.take_succ_cons, follow, if_neg outside]
    rfl

/-- The first character is told by four bytes, even if they end within the next one. -/
theorem firstChar_take (bs : List UInt8) : firstChar (bs.take 4) = firstChar bs := by
  cases bs with
  | nil => rfl
  | cons b bs =>
    rw [List.take_succ_cons, firstChar, firstChar, front, front]
    cases leads : lead? b with
    | none => rfl
    | some promise =>
      have few := (lead?_ranges leads).1
      exact congrArg (·.getD replacement) (char?_follow_take promise.1 promise.2 bs 3 few)

theorem firstChar_encode (c : Char) (cs : List Char) : firstChar (encode (c :: cs)) = c := by
  obtain ⟨b, r, bytes, read⟩ := front_utf8EncodeChar c (encode cs)
  rw [encode_cons, bytes, List.cons_append, firstChar, read]
  rfl

end Text.Utf8

open Grammar Text.Utf8

/-- A byte of ASCII is a character. -/
theorem isText_singleton {b : UInt8} (ascii : b.toNat ≤ 0x7F) : IsText [b] := by
  have valid := toNat_ofNat_of_valid (v := b.toNat) (by omega)
  refine ⟨[Char.ofNat b.toNat], ?_⟩
  rw [encode_cons, utf8EncodeChar_ascii (by omega), valid, UInt8.ofNat_toNat]
  rfl

/-- Bytes that end with one of ASCII, so that whatever text goes on behind them they are text. -/
def EndsAscii (bs : List UInt8) : Prop := ∃ front b, bs = front ++ [b] ∧ b.toNat ≤ 0x7F

theorem EndsAscii.append {bs : List UInt8} (ends : EndsAscii bs) (before : List UInt8) :
    EndsAscii (before ++ bs) := by
  obtain ⟨front, b, rfl, ascii⟩ := ends
  exact ⟨before ++ front, b, (List.append_assoc _ _ _).symm, ascii⟩

theorem EndsAscii.isText {label : List UInt8} {p : Nat} (ends : EndsAscii (label.take p))
    (whole : IsText label) : IsText (label.take p) := by
  obtain ⟨front, b, split, ascii⟩ := ends
  rw [← List.take_append_drop p label, split, List.append_assoc] at whole
  rw [split]
  exact (whole.before ascii).append (isText_singleton ascii)

namespace Grammar

theorem Term.endsAscii (t : Term) : EndsAscii t.text := by
  cases t with
  | word w =>
    cases w with
    | bare bytes nonempty all =>
      exact ⟨bytes.dropLast, bytes.getLast nonempty, (List.dropLast_concat_getLast nonempty).symm,
        toNat_le_of_isBareByte (List.all_eq_true.mp all _ (List.getLast_mem nonempty))⟩
    | quoted body _ _ => exact ⟨quoteByte :: body, quoteByte, rfl, by decide⟩
  | enclosed x => exact ⟨openByte :: x.text, closeByte, rfl, by decide⟩

/-- A term is due at the start, behind a parenthesis or behind a connective. -/
theorem Awaits.endsAscii {limit depth : Nat} {op? : Option Connective} {before : List UInt8}
    (awaits : Awaits limit depth op? before) : before = [] ∨ EndsAscii before := by
  cases awaits with
  | start => exact Or.inl rfl
  | inner => exact Or.inr ⟨_, openByte, rfl, by decide⟩
  | next _ _ _ op => exact Or.inr ⟨_, op.byte, rfl, by cases op <;> decide⟩

end Grammar

section

variable {label : List UInt8} {limit depth : Nat} {op? : Option Connective} {c : Cursor label}

/-- Where a term is due, the label so far is text if all of it is. -/
theorem Due.textTo (due : Due limit depth op? c) (whole : IsText label) :
    TextTo label c.offset := by
  refine ⟨due.within, ?_⟩
  rcases due.awaits.endsAscii with start | ends
  · rw [start]
    exact isText_nil
  · exact ends.isText whole

theorem Done.textTo (done : Done limit depth op? c) (whole : IsText label) :
    TextTo label c.offset := by
  obtain ⟨within, before, t, split, _, _, _⟩ := done
  have ends : EndsAscii (label.take c.offset) := split ▸ t.endsAscii.append before
  exact ⟨within, ends.isText whole⟩

end

/-- In the text the character `c` begins at the byte `p`. -/
def HasAt (text : String) (p : Nat) (c : Char) : Prop :=
  ∃ front back, text.toList = front ++ c :: back ∧ (encode front).length = p

/-- Text falls apart between characters into the characters before and those behind. -/
theorem TextTo.exists_split {text : String} {p : Nat} (upTo : TextTo (bytes text) p) :
    ∃ front back, text.toList = front ++ back ∧ (encode front).length = p ∧
      (bytes text).drop p = encode back := by
  obtain ⟨front, earlier⟩ := upTo.text
  have whole : IsText ((bytes text).take p ++ (bytes text).drop p) :=
    ⟨text.toList, List.take_append_drop _ _⟩
  obtain ⟨back, later⟩ := whole.behind upTo.text
  have same : bytes text = bytes (String.ofList (front ++ back)) := by
    rw [bytes_ofList, encode_append, ← earlier, ← later, List.take_append_drop]
  refine ⟨front, back, ?_, ?_, later⟩
  · rw [bytes_injective same, String.toList_ofList]
  · rw [← earlier, List.length_take, Nat.min_eq_left upTo.within]

/-- What is seen between characters is the one that begins there. -/
theorem TextTo.hasAt {text : String} {c : Cursor (bytes text)} {found : Char}
    (upTo : TextTo (bytes text) c.offset) (seen : c.seen = some found) :
    HasAt text c.offset found := by
  obtain ⟨front, back, chars, place, later⟩ := upTo.exists_split
  rw [Cursor.seen, Cursor.atEnd, Cursor.char, c.rest_eq, later] at seen
  cases back with
  | nil => cases seen
  | cons d back =>
    split at seen
    · cases seen
    · rw [firstChar_encode] at seen
      cases seen
      exact ⟨front, back, chars, place⟩

/-- The character in quotes, as messages have it. -/
theorem seenName_append_inj {head head' : String} {seen : Option Char} {c : Char}
    (same : head ++ Cause.seenName seen = head' ++ Cause.seenName (some c)) :
    head = head' ∧ seen = some c := by
  cases seen with
  | none =>
    have ends : endOfInput <:+ (head ++ Cause.seenName none).toList :=
      endOfInput_seenName.mpr rfl
    rw [same, endOfInput_seenName] at ends
    cases ends
  | some d =>
    have chars := congrArg String.toList same
    rw [String.toList_append, String.toList_append] at chars
    obtain ⟨heads, names⟩ := List.append_inj' chars (by simp [Cause.seenName])
    refine ⟨String.toList_inj.mp heads, ?_⟩
    simpa [Cause.seenName] using names

/-- The message says that it has seen the character `c` where something else should stand. -/
def Fault.Names (c : Char) (fault : Fault) : Prop :=
  ∃ head, fault.message = head ++ String.ofList ['\'', c, '\''] ∧
    (head = "Unexpected character " ∨ ∃ wanted, head = "Expected " ++ wanted ++ " instead saw ")

namespace Fault

/-- Such a message begins with the letter of one of two words. -/
theorem not_names_of_head? {fault : Fault} (first : Char) (start : String) {rest : String}
    (begins : fault.message = start ++ rest) (letter : start.toList.head? = some first)
    (other : first ≠ 'U' ∧ first ≠ 'E') (c : Char) : ¬ fault.Names c := by
  have starts : fault.message.toList.head? = some first := by
    rw [begins, String.toList_append, List.head?_append, letter, Option.some_or]
  rintro ⟨head, message, rfl | ⟨wanted, rfl⟩⟩
  · rw [message, String.toList_append] at starts
    exact other.1 (Option.some.inj starts).symm
  · rw [message, String.toList_append, String.toList_append, String.toList_append] at starts
    exact other.2 (Option.some.inj starts).symm

/-- Such a message ends with the quote behind the character. -/
theorem not_names_of_getLast? (cause : Cause) (last : Char)
    (ends : cause.message.toList.getLast? = some last) (other : last ≠ '\'') (label : String)
    (p : Nat) (c : Char) :
    ¬ (malformed cause label p).Names c := by
  rintro ⟨head, message, _⟩
  have own : cause.message = head ++ String.ofList ['\'', c, '\''] := message
  rw [own, String.toList_append, String.toList_ofList, List.getLast?_append] at ends
  exact other (Option.some.inj ends).symm

theorem not_names_refused (value : String) (c : Char) : ¬ (refused value).Names c :=
  not_names_of_head? 'i' "invalid authorization: " rfl (by decide) (by decide) c

theorem not_names_tooDeep (limit : UInt32) (label : String) (p : Nat) (c : Char) :
    ¬ (tooDeep limit label p).Names c :=
  not_names_of_head? 'N' "Nesting depth exceeds maximum of " rfl (by decide) (by decide) c

theorem not_names_mixedConnectives (label : String) (p : Nat) (c : Char) :
    ¬ (malformed .mixedConnectives label p).Names c := by
  have begins : (malformed .mixedConnectives label p).message = "Cannot mix " ++ "'|' and '&'" := by
    show Cause.mixedConnectives.message = _
    decide
  exact not_names_of_head? 'C' "Cannot mix " begins (by decide) (by decide) c

end Fault

/-- What stops a reading of text and shows a character stands where that character begins. -/
theorem Obstacle.hasAt {limit : UInt32} {text : String} {fault : Fault} {found : Char}
    (obstacle : Obstacle limit (bytes text) fault) (names : fault.Names found) :
    ∃ p, fault.offset? = some p ∧ HasAt text p found := by
  have whole : IsText (bytes text) := ⟨text.toList, rfl⟩
  cases obstacle with
  | @noTerm c depth op? due none =>
    obtain ⟨head, message, _⟩ := names
    exact ⟨c.offset, rfl, (due.textTo whole).hasAt (seenName_append_inj message).2⟩
  | @unclosed c depth op? done alone other =>
    obtain ⟨head, message, _⟩ := names
    exact ⟨c.offset, rfl, (done.textTo whole).hasAt (seenName_append_inj message).2⟩
  | @leftOver c op? done alone more =>
    obtain ⟨head, message, _⟩ := names
    have seen : c.seen = some found := by
      rw [Cursor.seen, more]
      exact (seenName_append_inj message).2
    exact ⟨c.offset, rfl, (done.textTo whole).hasAt seen⟩
  -- The other messages show no character, or none that stands where something else should.
  | tooDeep => exact absurd names (Fault.not_names_tooDeep _ _ _ _)
  | mixed => exact absurd names (Fault.not_names_mixedConnectives _ _ _)
  | unclosedQuote =>
    exact absurd names (Fault.not_names_of_getLast? .unclosedQuote 'e' (by decide) (by decide)
      _ _ _)
  | emptyQuotes =>
    exact absurd names (Fault.not_names_of_getLast? .emptyQuotes 's' (by decide) (by decide) _ _ _)
  | looseEscape =>
    exact absurd names (Fault.not_names_of_getLast? .looseEscape 's' (by decide) (by decide) _ _ _)

variable {σ τ : Type}

/-- Wherever a check, a visit, a parse or a decision finds fault with a label that is text and
shows the character that it has seen, that is the character of the label that begins where the fault
is. It is told by the four bytes there, wherever they end. -/
theorem Gate.seen_stands {gate : Gate σ} {text : String} {collect : String → τ → τ} {s : σ}
    {x : τ} {fault : Fault} {found : Char}
    (failed : (gate.rules.validate (bytes text)).fault? s = some fault ∨
      (gate.rules.visit (bytes text) collect).fault? (s, x) = some fault ∨
      (gate.rules.parse (bytes text)).fault? s = some fault ∨
      (gate.decide (bytes text)).fault? s = some fault) (names : fault.Names found) :
    ∃ p, fault.offset? = some p ∧ HasAt text p found ∧
      firstChar (((bytes text).drop p).take 4) = found := by
  let sound (fault : Fault) : Prop :=
    ∀ found, fault.Names found → ∃ p, fault.offset? = some p ∧ HasAt text p found
  have refused (value : String) : sound (.refused value) :=
    fun found names => absurd names (Fault.not_names_refused value found)
  have stops (fault : Fault) (obstacle : Obstacle gate.rules.limit (bytes text) fault) :
      sound fault := fun _ => obstacle.hasAt
  have stands : sound fault := by
    rcases failed with checked | visited | parsed | decided
    · exact (Interpretation.checking_failsBy refused _).read stops s fault checked
    · exact (Interpretation.visiting_failsBy refused _ collect).read stops (s, x) fault visited
    · exact (Interpretation.building_failsBy refused _).read stops s fault parsed
    · have each (lookup : Lookup σ) :=
        (Interpretation.deciding_failsBy refused gate.rules.policy lookup).read stops
      exact Grants.decide_failsBy each gate.grants s fault decided
  obtain ⟨p, place, front, back, chars, length⟩ := stands found names
  refine ⟨p, place, ⟨front, back, chars, length⟩, ?_⟩
  rw [firstChar_take, bytes, chars, encode_append, List.drop_left' length, firstChar_encode]

/-- The label `"é"&é😀`, in which a term should stand where the second `é` does. The four bytes there
end within the next character. -/
theorem Gate.seen_stands_halved :
    let gate : Gate Unit := ({} : Rules Unit).gate .empty
    let text : String := "\"é\"&é😀"
    let fault : Fault := .malformed (.noTerm (some 'é')) (decodeLossy (bytes text)) 5
    (gate.rules.validate (bytes text)).fault? () = some fault ∧ fault.Names 'é' ∧
      HasAt text 5 'é' ∧ firstChar (((bytes text).drop 5).take 4) = 'é' := by
  intro gate text fault
  have failed : (gate.rules.validate (bytes text)).fault? () = some fault := by decide +kernel
  have names : fault.Names 'é' :=
    ⟨"Expected a '(' character or an authorization token instead saw ", rfl,
      Or.inr ⟨"a '(' character or an authorization token", by decide⟩⟩
  have somehow : (gate.rules.validate (bytes text)).fault? () = some fault ∨
      (gate.rules.visit (bytes text) fun _ seen => seen + 1).fault? ((), 0) = some fault ∨
      (gate.rules.parse (bytes text)).fault? () = some fault ∨
      (gate.decide (bytes text)).fault? () = some fault := Or.inl failed
  obtain ⟨p, place, stands, told⟩ := Gate.seen_stands somehow names
  cases place
  exact ⟨failed, names, stands, told⟩

end Clearance
