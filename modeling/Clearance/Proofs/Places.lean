import Clearance.Proofs.Cuts
import Clearance.Proofs.Lossy

/-! Where a fault points in the label that it shows. The place is counted in the bytes of the
label, and what is shown is its lossy decoding. A reading takes no token that is not text, so up
to the place where it stands the label is shown byte for byte. Only a loose escape is found behind
bytes that nothing has been made of yet: those of its own token. -/
namespace Clearance

open Grammar Text.Utf8

variable {σ τ ν γ α β : Type} {label : List UInt8}

/-- A run that from whatever state ends with a good result, or with a fault that is allowed. -/
def Run.Ends (good : α → Prop) (allowed : Fault → Prop) (x : Run σ α) : Prop :=
  ∀ s, match (x.on s).1 with
    | .ok a => good a
    | .error fault => allowed fault

namespace Run

variable {good : α → Prop} {good' : β → Prop} {allowed allowed' : Fault → Prop}

theorem ends_pure {a : α} (holds : good a) : Ends good allowed (pure a : Run σ α) :=
  fun _ => holds

theorem ends_throw {fault : Fault} (holds : allowed fault) :
    Ends good allowed (throw fault : Run σ α) :=
  fun _ => holds

theorem ends_lift (x : StateM σ α) : Ends (fun _ => True) allowed (liftM x : Run σ α) :=
  fun _ => trivial

theorem ends_any (x : Run σ α) : Ends (fun _ => True) (fun _ => True) x := by
  intro s
  cases (x.on s).1 <;> trivial

theorem Ends.bind {x : Run σ α} {f : α → Run σ β} (first : Ends good allowed x)
    (second : ∀ a, good a → Ends good' allowed (f a)) : Ends good' allowed (x >>= f) := by
  intro s
  have before := first s
  rw [on_bind]
  rcases run : x.on s with ⟨fault | a, t⟩
  · rw [run] at before
    exact before
  · rw [run] at before
    exact second a before t

theorem Ends.mono {x : Run σ α} (ends : Ends good allowed x)
    (weaker : ∀ fault, allowed fault → allowed' fault) : Ends good allowed' x := by
  intro s
  have here := ends s
  rcases run : x.on s with ⟨fault | a, t⟩
  · rw [run] at here
    exact weaker fault here
  · rwa [run] at here

theorem Ends.imp {better : α → Prop} {x : Run σ α} (ends : Ends better allowed x)
    (weaker : ∀ a, better a → good a) : Ends good allowed x := by
  intro s
  have here := ends s
  rcases run : x.on s with ⟨fault | a, t⟩
  · rwa [run] at here
  · rw [run] at here
    exact weaker a here

/-- What follows a run matters on its good results only. -/
theorem Ends.bind_congr {x : Run σ α} {f g : α → Run σ β} (ends : Ends good allowed x)
    (same : ∀ a, good a → f a = g a) : x >>= f = x >>= g := by
  funext s
  show on (x >>= f) s = on (x >>= g) s
  have here := ends s
  rw [on_bind, on_bind]
  rcases run : x.on s with ⟨fault | a, t⟩
  · rfl
  · rw [run] at here
    simp only [same a here]

theorem Ends.failsBy {x : Run σ α} (ends : Ends good allowed x) : FailsBy allowed x := by
  intro s fault failed
  obtain ⟨t, run⟩ := fault?_eq_some.mp failed
  have here := ends s
  rwa [run] at here

end Run

/-- A fault that is about no place. -/
def Fault.Unplaced (fault : Fault) : Prop := fault.offset? = none

/-- An interpretation that takes only tokens that stand for text, and that of its own accord
complains of no place. -/
structure Interpretation.Decodes (i : Interpretation σ ν γ) : Prop where
  empty : Run.Ends (fun _ => True) Fault.Unplaced i.empty
  leaf (token : Token) (live : Bool) :
    Run.Ends (fun _ => ∃ v, token.value = .ok v) Fault.Unplaced (i.leaf token live)
  finish (group : γ) (span : Span) : Run.Ends (fun _ => True) Fault.Unplaced (i.finish group span)

/-- A place in a label before which all is text. -/
structure TextTo (label : List UInt8) (p : Nat) : Prop where
  within : p ≤ label.length
  text : IsText (label.take p)

theorem textTo_start (label : List UInt8) : TextTo label 0 := ⟨Nat.zero_le _, isText_nil⟩

theorem TextTo.advance {c : Cursor label} (upTo : TextTo label c.offset) {bs : List UInt8}
    (starts : bs <+: c.rest) (text : IsText bs) : TextTo label (c.advance bs.length).offset where
  within := Cursor.advance_within starts upTo.within
  text := by
    rw [Cursor.take_advance starts]
    exact upTo.text.append text

theorem TextTo.step {c : Cursor label} (upTo : TextTo label c.offset) {b : UInt8}
    (next : c.peek = some b) (text : IsText [b]) : TextTo label (c.advance 1).offset :=
  upTo.advance (Cursor.singleton_prefix next) text

/-- The faults that a reading of text comes to: none is about a place that is not behind text,
unless it is a loose escape, and then the token that it stands in is behind text. -/
inductive Fault.Stands (label : List UInt8) : Fault → Prop where
  | unplaced {fault : Fault} (unplaced : fault.Unplaced) : Stands label fault
  | malformed (cause : Cause) {p : Nat} (upTo : TextTo label p) :
      Stands label (.malformed cause (decodeLossy label) p)
  | tooDeep (limit : UInt32) {p : Nat} (upTo : TextTo label p) :
      Stands label (.tooDeep limit (decodeLossy label) p)
  | looseEscape {front body rest : List UInt8} (text : IsText front)
      (whole : label = front ++ (quoteByte :: body ++ escapeByte :: rest)) :
      Stands label (.malformed .looseEscape (decodeLossy label) (front ++ quoteByte :: body).length)

theorem Run.Ends.stands {good : α → Prop} {x : Run σ α} (ends : Ends good Fault.Unplaced x) :
    Ends good (Fault.Stands label) x :=
  ends.mono fun _ => .unplaced

theorem NoToken.stands {c : Cursor label} {fault : Fault} (upTo : TextTo label c.offset)
    (noToken : NoToken c fault) : fault.Stands label := by
  cases noToken with
  | noTerm | unclosedQuote | emptyQuotes => exact .malformed _ upTo
  | @looseEscape body rest quoted =>
    have whole : label = label.take c.offset ++ (quoteByte :: body ++ escapeByte :: rest) := by
      rw [← quoted, c.rest_eq, List.take_append_drop]
    have stop : (label.take c.offset ++ quoteByte :: body).length =
        (c.advance (quoteByte :: body).length).offset := by
      rw [List.length_append, List.length_take, Nat.min_eq_left upTo.within, Cursor.offset_advance]
    have stands := Fault.Stands.looseEscape upTo.text whole
    rwa [stop] at stands

namespace Interpretation

variable {i : Interpretation σ ν γ}

mutual

/-- From a place behind text the descent gets to another, or comes to a fault that stands. -/
theorem Decodes.expression (decodes : i.Decodes) (limit : UInt32) (live : Bool) (depth : UInt32)
    (c : Cursor label) (upTo : TextTo label c.offset) :
    Run.Ends (fun part => TextTo label part.next.offset) (Fault.Stands label)
      (i.expression limit live depth c) := by
  rw [Interpretation.expression]
  refine (decodes.term limit live depth c upTo).bind fun first upTo => ?_
  cases first.next.connective? with
  | none => exact Run.ends_pure upTo
  | some op =>
    refine (Run.ends_lift _).bind fun group _ => ?_
    exact decodes.siblings limit live depth op group first.span c first.next first.rest_lt upTo
termination_by 2 * c.rest.length + 1
decreasing_by
  · omega
  · have := first.rest_lt; omega

theorem Decodes.siblings (decodes : i.Decodes) (limit : UInt32) (live : Bool) (depth : UInt32)
    (op : Connective) (group : γ) (span : Span) (opening c : Cursor label)
    (after : c.rest.length < opening.rest.length) (upTo : TextTo label c.offset) :
    Run.Ends (fun part => TextTo label part.next.offset) (Fault.Stands label)
      (i.siblings limit live depth op group span opening c after) := by
  rw [Interpretation.siblings]
  split
  next more =>
    have shorter := c.rest_advance_lt more Nat.one_pos
    have behind := upTo.step more (isText_connective op)
    refine (Run.ends_lift _).bind fun memberLive _ => ?_
    refine (decodes.term limit memberLive depth (c.advance 1) behind).bind fun member upTo => ?_
    refine (Run.ends_lift _).bind fun group _ => ?_
    have := member.rest_lt
    exact decodes.siblings limit live depth op group (span.merge member.span) opening member.next _
      upTo
  next =>
    split
    · exact Run.ends_throw (.malformed _ upTo)
    · exact (decodes.finish group span).stands.bind fun _ _ => Run.ends_pure upTo
termination_by 2 * c.rest.length
decreasing_by all_goals omega

theorem Decodes.term (decodes : i.Decodes) (limit : UInt32) (live : Bool) (depth : UInt32)
    (c : Cursor label) (upTo : TextTo label c.offset) :
    Run.Ends (fun part => TextTo label part.next.offset) (Fault.Stands label)
      (i.term limit live depth c) := by
  rw [Interpretation.term]
  split
  next nested =>
    split
    · exact Run.ends_throw (.tooDeep limit upTo)
    · have shorter := c.rest_advance_lt nested Nat.one_pos
      have inside := upTo.step nested ⟨['('], rfl⟩
      have inner := decodes.expression limit live (depth + 1) (c.advance 1) inside
      refine inner.bind fun part upTo => ?_
      split
      next fault failed =>
        rw [Cursor.expect] at failed
        split at failed
        · cases failed
        · cases failed
          exact Run.ends_throw (.malformed _ upTo)
      next next closed =>
        obtain ⟨closes, rfl⟩ := Cursor.expect_eq_ok.mp closed
        exact Run.ends_pure (upTo.step closes ⟨[')'], rfl⟩)
  next outside =>
    split
    next fault stop failed => exact Run.ends_throw ((NoToken.of_token outside failed).stands upTo)
    next token next scanned =>
      obtain ⟨w, starts, _, rfl, rfl⟩ := Cursor.token_sound scanned
      refine (decodes.leaf (w.token c.offset) live).stands.bind fun node ⟨v, value⟩ => ?_
      refine Run.ends_pure (upTo.advance starts ?_)
      -- The token was taken, so it stands for text, and then it is text.
      apply Word.isText_text
      rw [w.isText_body, Word.value?_of_token value]
      rfl
termination_by 2 * c.rest.length
decreasing_by omega

end

/-- Whatever is made of a label by taking text only, its faults stand. -/
theorem Decodes.read (decodes : i.Decodes) (limit : UInt32) (label : List UInt8) :
    Run.Ends (fun _ => True) (Fault.Stands label) (i.read limit label) := by
  rw [Interpretation.read]
  split
  · exact decodes.empty.stands
  · refine (decodes.expression limit true 0 (Cursor.start label) (textTo_start label)).bind
      fun whole upTo => ?_
    split
    · exact Run.ends_pure trivial
    · exact Run.ends_throw (.malformed _ upTo)

end Interpretation

/-- What a policy accepts stands for text. -/
theorem Policy.accept_decodes (policy : Policy σ) (token : Token) :
    Run.Ends (fun _ => ∃ v, token.value = .ok v) Fault.Unplaced (policy.accept token) := by
  have decoded : Run.Ends (fun v => token.value = .ok v) Fault.Unplaced
      (liftM token.value : Run σ String) := by
    intro s
    rw [Run.on_liftExcept]
    cases value : token.value with
    | ok v => rfl
    | error fault =>
      rw [Token.value] at value
      split at value <;> cases value
      rfl
  refine decoded.bind fun v value => (Run.ends_lift _).bind fun allowed _ => ?_
  cases allowed with
  | true => exact Run.ends_pure ⟨v, value⟩
  | false => exact Run.ends_throw rfl

namespace Interpretation

theorem checking_decodes (policy : Policy σ) : (checking policy).Decodes where
  empty := Run.ends_pure trivial
  leaf token _ := (policy.accept_decodes token).bind fun _ value => Run.ends_pure value
  finish _ _ := Run.ends_pure trivial

theorem visiting_decodes (policy : Policy σ) (collect : String → τ → τ) :
    (visiting policy collect).Decodes where
  empty := Run.ends_pure trivial
  leaf token _ := (policy.beside.accept_decodes token).bind fun _ value _ => value
  finish _ _ := Run.ends_pure trivial

theorem deciding_decodes (policy : Policy σ) (lookup : Lookup σ) :
    (deciding policy lookup).Decodes where
  empty := Run.ends_pure trivial
  leaf token live := (policy.accept_decodes token).bind fun v value => by
    cases live with
    | true => exact fun _ => value
    | false => exact Run.ends_pure value
  finish _ _ := Run.ends_pure trivial

end Interpretation

namespace Fault

/-- A fault that points into the label that it shows. What is shown before its place is what the
bytes before it are shown as, and has as many bytes. The caret, unless the place is the end, has
that many characters before it and stands under the one that begins there. Where they are more than
can be padded there is no report. -/
structure Points (label : List UInt8) (fault : Fault) (p : Nat) : Prop where
  offset : fault.offset? = some p
  shown : fault.label? = some (decodeLossy label)
  within : p ≤ (bytes (decodeLossy label)).length
  split : decodeLossy label = decodeLossy (label.take p) ++ decodeLossy (label.drop p)
  length : (bytes (decodeLossy (label.take p))).length = p
  display : fault.display? =
    let head := fault.message ++ " near index " ++ toString p ++ "\n" ++ decodeLossy label
    let before := (decodeLossy (label.take p)).length
    if p < (bytes (decodeLossy label)).length then
      if before < widthLimit then
        some (head ++ "\n" ++ String.ofList (List.replicate before ' ') ++ "^")
      else none
    else some head
  under : p < (bytes (decodeLossy label)).length →
    (decodeLossy (label.drop p)).toList.head? = some (firstChar (label.drop p))

/-- A loose escape behind bytes of its own token that are not text. What is shown of them is
longer than they are, so the place comes out too far in front. -/
structure Strays (label : List UInt8) (fault : Fault) (p : Nat) : Prop where
  loose : fault = .malformed .looseEscape (decodeLossy label) p
  broken : ∃ front body rest, label = front ++ (quoteByte :: body ++ escapeByte :: rest) ∧
    p = (front ++ quoteByte :: body).length ∧ IsText front ∧ ¬ IsText body
  split : decodeLossy label = decodeLossy (label.take p) ++ decodeLossy (label.drop p)
  short : p < (bytes (decodeLossy (label.take p))).length

end Fault

variable {fault : Fault} {p : Nat}

/-- A caret behind `n` blanks, as long as it can be padded. -/
theorem padded?_caret (n : Nat) : padded? (n + 1) "^" =
    if n < widthLimit then some (String.ofList (List.replicate n ' ') ++ "^") else none := by
  have one : "^".length = 1 := by decide
  rw [padded?, one, Nat.add_sub_cancel]
  rfl

/-- A fault is shown with its place, and points there if what is shown before it has as many bytes
as there are before it. -/
theorem Fault.points_of_split (offset : fault.offset? = some p)
    (shown : fault.label? = some (decodeLossy label))
    (split : decodeLossy label = decodeLossy (label.take p) ++ decodeLossy (label.drop p))
    (length : (bytes (decodeLossy (label.take p))).length = p) : fault.Points label p := by
  have size := congrArg (fun s => (bytes s).length) split
  simp only [bytes_append, List.length_append, length] at size
  have display : fault.display? = report? fault.message (decodeLossy label) p := by
    cases fault <;> cases offset <;> cases shown <;> rfl
  have caret : column (decodeLossy label).toList p = (decodeLossy (label.take p)).length := by
    have before := column_encode (decodeLossy (label.take p)).toList
      (decodeLossy (label.drop p)).toList
    rw [← String.toList_append, ← split] at before
    exact (congrArg _ length.symm).trans (before.trans String.length_toList)
  refine ⟨offset, shown, by omega, split, length, ?_, fun inside => ?_⟩
  · rw [display, report?, caret, padded?_caret]
    simp only [apply_ite (Option.map _), Option.map_some, Option.map_none, String.append_assoc]
  · apply head?_decodeLossy
    intro ended
    rw [ended] at size
    have none : (bytes (decodeLossy [])).length = 0 := by simp [decodeLossy, pieces]; rfl
    omega

theorem TextTo.points (upTo : TextTo label p) (offset : fault.offset? = some p)
    (shown : fault.label? = some (decodeLossy label)) : fault.Points label p := by
  apply Fault.points_of_split offset shown
  · rw [← upTo.text.decodeLossy_append, List.take_append_drop]
  · rw [upTo.text.bytes_decodeLossy, List.length_take, Nat.min_eq_left upTo.within]

theorem IsText.quote_append {bs : List UInt8} (text : IsText bs) : IsText (quoteByte :: bs) :=
  IsText.append ⟨['"'], rfl⟩ text

/-- The place of a loose escape is right exactly if the bytes of its token are shown by as many. -/
theorem Fault.points_or_strays_of_loose {front body rest : List UInt8} (text : IsText front)
    (whole : label = front ++ (quoteByte :: body ++ escapeByte :: rest))
    (stop : (front ++ quoteByte :: body).length = p) :
    (Fault.malformed .looseEscape (decodeLossy label) p).Points label p ∨
      (Fault.malformed .looseEscape (decodeLossy label) p).Strays label p := by
  have parts : label = (front ++ quoteByte :: body) ++ escapeByte :: rest := by
    rw [whole, ← List.append_assoc]
  have before : label.take p = front ++ quoteByte :: body := by rw [parts, List.take_left' stop]
  have behind : label.drop p = escapeByte :: rest := by rw [parts, List.drop_left' stop]
  have split : decodeLossy label = decodeLossy (label.take p) ++ decodeLossy (label.drop p) := by
    rw [before, behind, ← Text.Utf8.decodeLossy_append (by decide), ← parts]
  have longer := length_le_decodeLossy (label.take p)
  rw [before, stop, ← before] at longer
  rcases Nat.eq_or_lt_of_le longer with same | short
  · exact Or.inl (points_of_split rfl rfl split same.symm)
  · refine Or.inr ⟨rfl, ⟨front, body, rest, whole, stop.symm, text, fun inside => ?_⟩, split, short⟩
    rw [before, (text.append inside.quote_append).bytes_decodeLossy, stop] at short
    exact Nat.lt_irrefl p short

theorem Fault.Stands.points_or_strays (stands : fault.Stands label)
    (offset : fault.offset? = some p) : fault.Points label p ∨ fault.Strays label p := by
  cases stands with
  | unplaced unplaced => cases unplaced.symm.trans offset
  | malformed cause upTo => cases offset; exact Or.inl (upTo.points rfl rfl)
  | tooDeep limit upTo => cases offset; exact Or.inl (upTo.points rfl rfl)
  | looseEscape text whole => cases offset; exact points_or_strays_of_loose text whole rfl

/-- In a label that is text there is nothing for a place to go astray behind. -/
theorem Fault.Strays.not_isText (strays : fault.Strays label p) : ¬ IsText label := by
  obtain ⟨front, body, rest, rfl, _, text, broken⟩ := strays.broken
  intro whole
  have quote : IsText [quoteByte] := isText_nil.quote_append
  have inside : IsText ([quoteByte] ++ (body ++ escapeByte :: rest)) := whole.behind text
  exact broken ((inside.behind quote).before (by decide))

/-- Wherever a check, a visit or a decision finds fault with a label, the fault points into the
label that it shows, or is a loose escape behind bytes of its own token that are not text. No place
goes astray in a label that is text. -/
theorem Gate.fault_points {gate : Gate σ} {collect : String → τ → τ} {s : σ} {x : τ}
    (failed : (gate.rules.validate label).fault? s = some fault ∨
      (gate.rules.visit label collect).fault? (s, x) = some fault ∨
      (gate.decide label).fault? s = some fault) (placed : fault.offset? = some p) :
    (fault.Points label p ∨ fault.Strays label p) ∧ (IsText label → fault.Points label p) := by
  have stands : fault.Stands label := by
    rcases failed with checked | visited | decided
    · exact ((Interpretation.checking_decodes _).read _ label).failsBy s fault checked
    · exact ((Interpretation.visiting_decodes _ collect).read _ label).failsBy (s, x) fault visited
    · have each (lookup : Lookup σ) := ((Interpretation.deciding_decodes gate.rules.policy
        lookup).read gate.rules.limit label).failsBy
      exact Grants.decide_failsBy each gate.grants s fault decided
  have points := stands.points_or_strays placed
  exact ⟨points, fun text => points.resolve_right fun strays => strays.not_isText text⟩

/-- The label `"é"|&`, in which a term is missing behind a character of two bytes. -/
theorem Gate.fault_points_missing :
    let gate : Gate Unit := ({} : Rules Unit).gate .empty
    let label : List UInt8 := [0x22, 0xC3, 0xA9, 0x22, 0x7C, 0x26]
    let fault : Fault := .malformed (.noTerm (some '&')) (decodeLossy label) 5
    (gate.rules.validate label).fault? () = some fault ∧ fault.offset? = some 5 ∧
      ((fault.Points label 5 ∨ fault.Strays label 5) ∧ (IsText label → fault.Points label 5)) ∧
      IsText label := by
  intro gate label fault
  have failed : (gate.rules.validate label).fault? () = some fault := by decide +kernel
  have text : IsText label := ⟨['"', 'é', '"', '|', '&'], by decide⟩
  have somehow : (gate.rules.validate label).fault? () = some fault ∨
      (gate.rules.visit label fun _ seen => seen + 1).fault? ((), 0) = some fault ∨
      (gate.decide label).fault? () = some fault := Or.inl failed
  exact ⟨failed, rfl, Gate.fault_points somehow rfl, text⟩

/-- A quote, two bytes `FF` that begin no character, `\a` and a quote: the escape at the fourth byte
is loose, and is shown behind seven. -/
theorem Gate.not_fault_points :
    let gate : Gate Unit := ({} : Rules Unit).gate .empty
    let label : List UInt8 := [0x22, 0xFF, 0xFF, 0x5C, 0x61, 0x22]
    let fault : Fault := .malformed .looseEscape (decodeLossy label) 3
    (gate.rules.validate label).fault? () = some fault ∧ fault.offset? = some 3 ∧
      (bytes (decodeLossy (label.take 3))).length = 7 ∧ ¬ fault.Points label 3 := by
  intro gate label fault
  have failed : (gate.rules.validate label).fault? () = some fault := by decide +kernel
  have shown : (bytes (decodeLossy (label.take 3))).length = 7 := by decide +kernel
  refine ⟨failed, rfl, shown, fun points => ?_⟩
  rw [points.length] at shown
  cases shown

/-- There is no report of a fault that points within a label, behind more characters than a caret
can be put behind. -/
theorem Fault.Points.display?_eq_none (points : fault.Points label p) (inside : p < label.length)
    (wide : widthLimit ≤ (decodeLossy (label.take p)).length) : fault.display? = none := by
  have shown : p < (bytes (decodeLossy label)).length :=
    Nat.lt_of_lt_of_le inside (length_le_decodeLossy label)
  rw [points.display]
  simp only [if_pos shown, if_neg (Nat.not_lt.mpr wide)]

/-- A label that passes, with a parenthesis behind it that nothing opens, fails at the parenthesis.
If more characters stand before it than a caret can be put behind, there is no report of that. -/
theorem Rules.no_report_behind {rules : Rules σ} {s t : σ} (nonempty : label ≠ [])
    (valid : (rules.validate label).on s = (.ok (), t))
    (wide : widthLimit ≤ (decodeLossy label).length) :
    ∃ fault : Fault, (rules.validate (label ++ [closeByte])).fault? s = some fault ∧
      fault.offset? = some label.length ∧ fault.display? = none := by
  rcases rules.validate_ok valid with empty | ⟨x, rfl, within, passed⟩
  · exact absurd empty nonempty
  let stop := (Cursor.start (x.text ++ [closeByte])).advance x.text.length
  have run : rules.validate (x.text ++ [closeByte]) =
      audit rules.policy x.words >>= fun _ => throw (stop.fault (.leftOver stop.char)) := by
    rw [validate, read, read_text_leftOver x within (endsExpression_close []), x.replay_checking]
  have place : stop.offset = x.text.length := Nat.zero_add _
  have before : (x.text ++ [closeByte]).take x.text.length = x.text := List.take_left
  have inside : x.text.length < (x.text ++ [closeByte]).length := by
    rw [List.length_append]
    exact Nat.lt_succ_self _
  have upTo : TextTo (x.text ++ [closeByte]) x.text.length := by
    refine ⟨Nat.le_of_lt inside, ?_⟩
    rw [before]
    exact x.isText_of_values (value?_of_audit passed)
  have points : (stop.fault (.leftOver stop.char)).Points (x.text ++ [closeByte]) x.text.length :=
    upTo.points (congrArg some place) rfl
  refine ⟨stop.fault (.leftOver stop.char), ?_, points.offset,
    points.display?_eq_none inside (by rwa [before])⟩
  rw [run, Run.fault?_eq_some]
  exact ⟨t, by rw [Run.on_bind, passed]; rfl⟩

/-- So it is behind 65535 letters, and behind more. -/
theorem Rules.no_report_behind_letters {n : Nat} (many : widthLimit ≤ n) :
    ∃ fault : Fault,
      (({} : Rules Unit).validate (List.replicate n 0x61 ++ [closeByte])).fault? () = some fault ∧
        fault.offset? = some n ∧ fault.display? = none := by
  have positive : n ≠ 0 := fun none => by rw [none] at many; cases many
  have spelled : bytes (String.ofList (List.replicate n 'a')) = List.replicate n 0x61 := by
    rw [bytes_ofList, encode, List.flatMap_replicate]
    exact List.flatten_replicate_singleton
  have nonempty : List.replicate n (0x61 : UInt8) ≠ [] := by simpa using positive
  have bare : isBare (List.replicate n 0x61) = true := by
    rw [isBare, List.all_replicate, if_neg positive]
    decide
  let w : Word := .bare _ nonempty bare
  have value : w.value? = some (String.ofList (List.replicate n 'a')) := by
    have body : w.body = List.replicate n 0x61 := rfl
    rw [Word.value?, body, Word.strip_of_bare bare, ← spelled, decode?_bytes]
  have allowed : ∀ v ∈ [w], v.Allowed (isOrdinary Text.categories) :=
    List.forall_mem_singleton.mpr (Word.allowed_of_value value rfl)
  have passes : Run.Yields (({} : Rules Unit).validate (List.replicate n 0x61)) () :=
    Rules.validate_yields (x := .single (.word w)) (Policy.standard_steady _) (Nat.zero_le _) allowed
  obtain ⟨t, valid⟩ := passes ()
  have wide : widthLimit ≤ (decodeLossy (List.replicate n 0x61)).length := by
    rw [← spelled, decodeLossy_bytes, String.length_ofList, List.length_replicate]
    exact many
  obtain ⟨fault, failed, offset, display⟩ := Rules.no_report_behind nonempty valid wide
  rw [List.length_replicate] at offset
  exact ⟨fault, failed, offset, display⟩

end Clearance
