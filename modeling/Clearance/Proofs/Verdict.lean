import Clearance.Proofs.Delivery
import Clearance.Proofs.Inquiries
import Clearance.Proofs.Steady
import Clearance.Proofs.Textual

/-! One verdict on a label, whatever is made of it. Whoever reads a label by some rules puts the
same tokens to the same policy: the first that is refused ends the reading, and if none is, what
is wrong with the label itself. Whether a decision still hangs on a token makes no difference. -/
namespace Clearance

variable {σ τ ε : Type} {answer : String → Charset → Bool}

namespace Token

/-- The value of a token, with replacements for what is no text in it. -/
def shown (t : Token) : String := Text.Utf8.decodeLossy t.content

/-- Whether the body of a token is text. -/
def isText (t : Token) : Bool := (Text.Utf8.decode? t.body).isSome

/-- A token is refused if its body is no text or its value is not allowed. -/
def refusal? (answer : String → Charset → Bool) (t : Token) : Option Fault :=
  if t.isText && answer t.shown t.charset then none else some (.refused t.shown)

end Token

/-- A policy that gives these answers and writes down these notes, whatever state it is in. -/
structure Policy.Notes (policy : Policy σ) (answer : String → Charset → Bool)
    (log : σ → List ε) (note : String → Charset → List ε) : Prop where
  answer_eq (value : String) (charset : Charset) (s : σ) :
    (policy value charset s).1 = answer value charset
  written (value : String) (charset : Charset) (s : σ) :
    log (policy value charset s).2 = log s ++ note value charset

/-- Each token is put to a policy, unless its body is no text. -/
def Screen.asking (answer : String → Charset → Bool) (note : String → Charset → List ε) :
    Screen ε where
  refusal? := Token.refusal? answer
  note t := if t.isText then note t.shown t.charset else []

theorem Run.screened_token {α : Type} {screen : Screen ε} {log : σ → List ε} {x : Run σ α}
    {t : Token} (each : ∀ s, x.fault? s = screen.refusal? t ∧
      log (x.on s).2 = log s ++ screen.note t) : Run.Screened screen log x [t] none := by
  intro s
  obtain ⟨outcome, written⟩ := each s
  rw [List.findSome?_singleton, Option.or_none, Screen.notes, Screen.notes, ite_self,
    List.append_nil]
  exact ⟨outcome, written⟩

namespace Grammar.Word

theorem shown_token {w : Word} {v : String} (text : w.value? = some v) (offset : Nat) :
    (w.token offset).shown = v := by
  rw [Token.shown, content_token, Text.Utf8.decode?_eq_some.mp text, Text.Utf8.decodeLossy_bytes]

theorem isText_token (w : Word) (offset : Nat) : (w.token offset).isText = w.value?.isSome := by
  rw [Bool.eq_iff_iff, Token.isText, ← isText_iff]
  exact w.isText_body

end Grammar.Word

section

variable {policy : Policy σ} {log : σ → List ε} {note : String → Charset → List ε}

theorem Policy.Notes.check (notes : policy.Notes answer log note) (value : String)
    (charset : Charset) (s : σ) :
    (policy.check value charset).fault? s =
        (if answer value charset then none else some (.refused value)) ∧
      log ((policy.check value charset).on s).2 = log s ++ note value charset := by
  have same := notes.answer_eq value charset s
  rw [Run.fault?, Policy.check, Run.on_bind, Run.on_lift, ← notes.written value charset s]
  cases allowed : answer value charset with
  | true =>
    simp only [same.trans allowed]
    exact ⟨rfl, rfl⟩
  | false =>
    simp only [same.trans allowed]
    exact ⟨rfl, rfl⟩

/-- A word is put to the policy if it is text, and refused otherwise. -/
theorem Policy.Notes.accept (notes : policy.Notes answer log note) (w : Grammar.Word)
    (offset : Nat) :
    Run.Screened (.asking answer note) log (policy.accept (w.token offset)) [w.token offset]
      none := by
  refine Run.screened_token fun s => ?_
  have shown := w.content_token offset
  have textual := w.isText_token offset
  cases text : w.value? with
  | none =>
    rw [text] at textual
    rw [Policy.accept, Grammar.Word.value_token, text]
    simp only [Screen.asking, Token.refusal?, textual, Token.shown, shown]
    exact ⟨rfl, (List.append_nil _).symm⟩
  | some v =>
    rw [text] at textual
    rw [Grammar.Word.accept_of_value text]
    simp only [Screen.asking, Token.refusal?, textual, Grammar.Word.shown_token text]
    exact notes.check v w.charset s

theorem Policy.Notes.beside (notes : policy.Notes answer log note) :
    (policy.beside : Policy (σ × τ)).Notes answer (fun s => log s.1) note where
  answer_eq value charset s := notes.answer_eq value charset s.1
  written value charset s := notes.written value charset s.1

namespace Interpretation

theorem checking_screens (notes : policy.Notes answer log note) :
    (checking policy).Screens (.asking answer note) log where
  empty := Run.screened_pure ()
  leaf w offset _ := (notes.accept w offset).after fun _ => Run.screened_pure ()
  begin _ _ _ _ := rfl
  undecided _ _ := rfl
  add _ _ _ _ := rfl
  finish _ _ := Run.screened_pure ()

theorem visiting_screens (notes : policy.Notes answer log note) (collect : String → τ → τ) :
    (visiting policy collect).Screens (.asking answer note) fun s => log s.1 where
  empty := Run.screened_pure ()
  leaf w offset _ := (notes.beside.accept w offset).after fun _ _ =>
    ⟨rfl, (List.append_nil _).symm⟩
  begin _ _ _ _ := rfl
  undecided _ _ := rfl
  add _ _ _ _ := rfl
  finish _ _ := Run.screened_pure ()

theorem building_screens (notes : policy.Notes answer log note) :
    (building policy).Screens (.asking answer note) log where
  empty := Run.screened_pure Tree.empty
  leaf w offset _ := (notes.accept w offset).after fun _ => Run.screened_pure _
  begin _ _ _ _ := rfl
  undecided _ _ := rfl
  add _ _ _ _ := rfl
  finish _ _ := Run.screened_pure _

/-- A decision asks the policy about tokens that it does not look up. -/
theorem deciding_screens (notes : policy.Notes answer log note) {lookup : Lookup σ}
    (silent : ∀ value body s, log (lookup value body s).2 = log s) :
    (deciding policy lookup).Screens (.asking answer note) log where
  empty := Run.screened_pure true
  leaf w offset live := (notes.accept w offset).after fun value => by
    cases live with
    | true => exact Run.screened_lift (silent value _)
    | false => exact Run.screened_pure false
  begin _ _ _ _ := rfl
  undecided _ _ := rfl
  add _ _ _ _ := rfl
  finish _ _ := Run.screened_pure _

end Interpretation

end

namespace Rules

/-- What a label fails with, by these rules and with these answers of the policy. -/
def verdict? (rules : Rules σ) (answer : String → Charset → Bool) (label : List UInt8) :
    Option Fault :=
  ((delivered rules.limit label).findSome? (Token.refusal? answer)).or
    (malformation? rules.limit label)

/-- What the policy is asked about a label, up to the first token that is refused. -/
def questions (rules : Rules σ) (answer : String → Charset → Bool) (label : List UInt8) : Log :=
  let screen : Screen Inquiry := .asking answer fun value charset =>
    [.question value charset (answer value charset)]
  screen.notes (delivered rules.limit label)

/-- The same rules, with a policy that writes down its questions. -/
def noting (rules : Rules σ) : Rules (σ × Log) :=
  ⟨rules.limit, some rules.policy.noted, rules.categories⟩

end Rules

theorem Policy.Steady.silent {policy : Policy σ} (steady : policy.Steady answer) :
    policy.Notes answer (fun _ => ([] : Log)) fun _ _ => [] where
  answer_eq := steady
  written _ _ _ := rfl

theorem Policy.Steady.noted {policy : Policy σ} (steady : policy.Steady answer) :
    policy.noted.Notes answer Prod.snd fun value charset =>
      [.question value charset (answer value charset)] where
  answer_eq value charset s := steady value charset s.1
  written value charset s := by
    rw [← steady value charset s.1]
    rfl

/-- The same gate, which writes down what it asks the policy. -/
def Gate.noting (gate : Gate σ) : Gate (σ × Log) := ⟨gate.rules.noting, gate.grants.beside⟩

/-- What follows a run that ends well changes nothing about its end if it ends well too. -/
theorem Run.fault?_bind {α β : Type} {x : Run σ α} {f : α → Run σ β} {s : σ}
    (ends : ∀ a t, x.on s = (.ok a, t) → (f a).fault? t = none) :
    (x >>= f).fault? s = x.fault? s := by
  rcases run : x.on s with ⟨_ | a, t⟩
  · rw [Run.fault?, Run.fault?, Run.on_bind, run]
  · rw [Run.fault?_eq_none.mpr ⟨a, t, run⟩, ← ends a t run, Run.fault?, Run.on_bind, run]
    rfl

namespace Grants

variable {f : Lookup σ → Run σ Bool} {verdict? : Option Fault}

theorem decideSets_singleton (f : Lookup σ → Run σ Bool) (set : List (List UInt8)) :
    decideSets f [set] = f (.inSet set) := by
  refine (bind_congr fun opens => ?_).trans (bind_pure (f (.inSet set)))
  cases opens <;> rfl

/-- A further set cannot bring up a fault that the first did not. -/
theorem fault?_decideSets (each : ∀ set s, (f (.inSet set)).fault? s = verdict?) :
    ∀ {sets : List (List (List UInt8))} (s : σ), (decideSets f sets).fault? s =
      if sets.isEmpty then none else verdict?
  | [], _ => rfl
  | set :: more, s => by
    rw [decideSets, List.isEmpty_cons, if_neg Bool.false_ne_true, ← each set s]
    refine Run.fault?_bind fun opens t found => ?_
    -- A further set is tried only if the one before opened, so no token was refused.
    have none : verdict? = none := (each set s).symm.trans (Run.fault?_eq_none.mpr ⟨_, _, found⟩)
    cases opens with
    | true =>
      have later : (decideSets f more).fault? t = _ := fault?_decideSets each t
      rwa [none, ite_self] at later
    | false => rfl

theorem fault?_decide_ofSets (each : ∀ set s, (f (.inSet set)).fault? s = verdict?)
    (sets : List Held) (s : σ) : ((ofSets sets).decide f).fault? s = verdict? := by
  rw [ofSets, decide, fault?_decideSets each]
  cases sets <;> rfl

end Grants

namespace Rules

variable {rules : Rules σ} {label : List UInt8}

/-- However a label is read by some rules, from the state `s`, it ends with the same fault, or
with none. -/
structure EndAlike (rules : Rules σ) (label : List UInt8) (verdict? : Option Fault) (s : σ) :
    Prop where
  validate : (rules.validate label).fault? s = verdict?
  visit {τ : Type} (collect : String → τ → τ) (t : τ) :
    (rules.visit label collect).fault? (s, t) = verdict?
  parse : (rules.parse label).fault? s = verdict?
  ofText (text : String) (bytes : Text.Utf8.bytes text = label) :
    (rules.label text).fault? s = verdict?
  ofBytes : (rules.labelOfBytes label).fault? s = verdict?
  gateForAll (sets : List Held) : ((rules.gateForAll sets).decide label).fault? s = verdict?
  gateOf (ask : Authority σ) : ((rules.gateOf ask).decide label).fault? s = verdict?

/-- However a label is read by some rules, from the state `s` and with `log` written down before,
the policy is asked the same questions. A gate asks them once for each set that it tries. -/
structure AskAlike (rules : Rules σ) (label : List UInt8) (questions : Log) (s : σ) (log : Log) :
    Prop where
  validate : ((rules.noting.validate label).on (s, log)).2.2 = log ++ questions
  visit {τ : Type} (collect : String → τ → τ) (t : τ) :
    ((rules.noting.visit label collect).on ((s, log), t)).2.1.2 = log ++ questions
  parse : ((rules.noting.parse label).on (s, log)).2.2 = log ++ questions
  gateForAll (sets : List Held) (single : sets.length ≤ 1) :
    (((rules.gateForAll sets).noting.decide label).on (s, log)).2.2 = log ++ questions
  gateOf (ask : Authority σ) :
    (((rules.gateOf ask).noting.decide label).on (s, log)).2.2 = log ++ questions

/-- What passes is text: each of its words is. -/
theorem isText_of_validate {s : σ} (passed : (rules.validate label).fault? s = none) :
    IsText label := by
  obtain ⟨_, t, valid⟩ := Run.fault?_eq_none.mp passed
  rcases validate_ok valid with rfl | ⟨x, rfl, _, audited⟩
  · exact isText_nil
  · exact x.isText_of_values (Grammar.value?_of_audit audited)

theorem fault?_labelOfBytes (rules : Rules σ) (label : List UInt8) (s : σ) :
    (rules.labelOfBytes label).fault? s = (rules.validate label).fault? s := by
  refine Run.fault?_bind fun _ t valid => ?_
  have textual := isText_of_validate (Run.fault?_eq_none.mpr ⟨_, _, valid⟩)
  obtain ⟨text, decoded⟩ := Option.isSome_iff_exists.mp (isText_iff.mp textual)
  rw [decoded]
  rfl

theorem fault?_validate (steady : rules.policy.Steady answer) (label : List UInt8) (s : σ) :
    (rules.validate label).fault? s = rules.verdict? answer label :=
  ((Interpretation.checking_screens steady.silent).read rules.limit label s).1

/-- Whatever is looked up, a decision fails as a check does. -/
theorem fault?_deciding (steady : rules.policy.Steady answer) (lookup : Lookup σ)
    (label : List UInt8) (s : σ) :
    (rules.read (.deciding rules.policy lookup) label).fault? s = rules.verdict? answer label :=
  ((Interpretation.deciding_screens steady.silent fun _ _ _ => rfl).read rules.limit label s).1

theorem endAlike (steady : rules.policy.Steady answer) (label : List UInt8) (s : σ) :
    rules.EndAlike label (rules.verdict? answer label) s := by
  have valid := fault?_validate steady label
  have decided := fun lookup => fault?_deciding steady lookup label
  exact {
    validate := valid s
    visit := fun collect t =>
      ((Interpretation.visiting_screens steady.silent collect).read rules.limit label (s, t)).1
    parse := ((Interpretation.building_screens steady.silent).read rules.limit label s).1
    ofText := by
      rintro text rfl
      exact (Run.fault?_bind fun _ _ _ => rfl).trans (valid s)
    ofBytes := (rules.fault?_labelOfBytes label s).trans (valid s)
    gateForAll := fun sets => Grants.fault?_decide_ofSets (fun set => decided _) sets s
    gateOf := fun ask => decided _ s }

theorem askAlike (steady : rules.policy.Steady answer) (label : List UInt8) (s : σ) (log : Log) :
    rules.AskAlike label (rules.questions answer label) s log := by
  have noted := steady.noted
  have decided : ∀ lookup : Lookup (σ × Log),
      (∀ value body s, (lookup value body s).2.2 = s.2) →
      Run.Screened (.asking answer _) Prod.snd
        (rules.noting.read (.deciding rules.noting.policy lookup) label) _ _ := fun _ silent =>
    (Interpretation.deciding_screens noted silent).read rules.limit label
  exact {
    validate := ((Interpretation.checking_screens noted).read rules.limit label (s, log)).2
    visit := fun collect t =>
      ((Interpretation.visiting_screens noted collect).read rules.limit label ((s, log), t)).2
    parse := ((Interpretation.building_screens noted).read rules.limit label (s, log)).2
    gateForAll := fun sets single => by
      have once : ∀ set, ((Grants.decideSets (fun lookup => rules.noting.read
          (.deciding rules.noting.policy lookup) label) [set]).on (s, log)).2.2 =
            log ++ rules.questions answer label := by
        intro set
        rw [Grants.decideSets_singleton]
        exact (decided (.inSet set) (fun _ _ _ => rfl) (s, log)).2
      match sets with
      | [] => exact once _
      | [_] => exact once _
    gateOf := fun ask => (decided (.ofAuthority ask.beside) (fun _ _ _ => rfl) (s, log)).2 }

/-- All readings of a label by the same rules end alike: with the first token, in the order of
the label, that is refused, and otherwise with what is wrong with the label itself. On the way
they ask the policy the same questions. -/
theorem fail_alike (steady : rules.policy.Steady answer) (label : List UInt8) (s : σ) (log : Log) :
    rules.EndAlike label (rules.verdict? answer label) s ∧
      rules.AskAlike label (rules.questions answer label) s log ∧
      (delivered rules.limit label).Pairwise fun t u => t.span.stop ≤ u.span.start :=
  ⟨endAlike steady label s, askAlike steady label s log, delivered_pairwise rules.limit label⟩

/-- A policy that refuses `B` hides what else is wrong with `A&B|`. -/
theorem fail_alike_refused :
    let answer : String → Charset → Bool := fun value _ => value != "B"
    let rules : Rules Unit := { policy? := some fun value charset => pure (answer value charset) }
    let label : List UInt8 := [0x41, 0x26, 0x42, 0x7C]
    rules.policy.Steady answer ∧ rules.EndAlike label (some (.refused "B")) () ∧
      rules.AskAlike label
        [.question "A" .basic true, .question "B" .basic false] () [] := by
  intro answer rules label
  let a : Grammar.Word := .bare [0x41] (by decide) (by decide)
  let b : Grammar.Word := .bare [0x42] (by decide) (by decide)
  have steady : rules.policy.Steady answer := fun _ _ _ => rfl
  have first : Grammar.ReadsTerm 512 0 (Cursor.start label) (.word a) :=
    Grammar.readsTerm_word ⟨_, rfl⟩ rfl
  have member : Grammar.ReadsTerm 512 0 (((Cursor.start label).advance 1).advance 1) (.word b) :=
    Grammar.readsTerm_word ⟨_, rfl⟩ rfl
  have others : Grammar.BreaksMembers 512 0 .and ((Cursor.start label).advance 1)
      (.mixed (.word b) _) := Grammar.breaksMembers_mixed rfl member rfl
  have read : Interpretation.collecting.read rules.limit label =
      Grammar.Outline.replay .collecting (.broken (.group .and (.word a) (.mixed (.word b) _))) :=
    Grammar.read_of_breaks (by decide) (Grammar.breaksExpression_group first rfl others) _
  have tokens : delivered rules.limit label = [a.token 0, b.token 2] :=
    (Grammar.Outline.delivered_eq read).1
  have valueA : a.value? = some "A" := Text.Utf8.decode?_eq_some.mpr (by decide)
  have valueB : b.value? = some "B" := Text.Utf8.decode?_eq_some.mpr (by decide)
  have allowed : (a.token 0).refusal? answer = none := by
    rw [Token.refusal?, a.isText_token, Grammar.Word.shown_token valueA, valueA]
    rfl
  have refused : (b.token 2).refusal? answer = some (.refused "B") := by
    rw [Token.refusal?, b.isText_token, Grammar.Word.shown_token valueB, valueB]
    rfl
  have verdict : rules.verdict? answer label = some (.refused "B") := by
    rw [verdict?, tokens, List.findSome?_cons, allowed, List.findSome?_cons, refused]
    rfl
  have asked : rules.questions answer label =
      [.question "A" .basic true, .question "B" .basic false] := by
    simp only [questions, tokens, Screen.notes, Screen.asking, allowed, refused, a.isText_token,
      b.isText_token, Grammar.Word.shown_token valueA, Grammar.Word.shown_token valueB, valueA,
      valueB]
    rfl
  obtain ⟨ends, asks, _⟩ := fail_alike steady label () []
  rw [verdict] at ends
  rw [asked] at asks
  exact ⟨steady, ends, asks⟩

end Rules

end Clearance
