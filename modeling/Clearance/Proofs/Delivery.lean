import Clearance.Proofs.Acceptance

/-! The tokens that a reading delivers, and what is wrong with a label whatever they stand for.
Both are read off an interpretation that takes every token, and settle what any interpretation
that screens tokens makes of the label. -/
namespace Clearance

variable {σ ν γ ε : Type}

/-- The tokens of a label, up to its end or to where it breaks off. -/
def delivered (limit : UInt32) (label : List UInt8) : List Token :=
  ((Interpretation.collecting.read limit label).on []).2

/-- What is wrong with a label, whatever its tokens stand for. -/
def malformation? (limit : UInt32) (label : List UInt8) : Option Fault :=
  (Interpretation.collecting.read limit label).fault? []

namespace Screen

/-- Every token is taken down, and none is refused. -/
def collecting : Screen Token := ⟨fun _ => none, fun t => [t]⟩

theorem refusal?_collecting (t : Token) : collecting.refusal? t = none := rfl

theorem notes_collecting (ts : List Token) : collecting.notes ts = ts := by
  rw [notes_of_accepted refusal?_collecting]
  exact List.flatMap_singleton' ts

end Screen

theorem Interpretation.collecting_screens :
    Interpretation.collecting.Screens .collecting id where
  empty := Run.screened_pure ()
  leaf _ _ _ := fun _ => ⟨rfl, rfl⟩
  begin _ _ _ _ := rfl
  undecided _ _ := rfl
  add _ _ _ _ := rfl
  finish _ _ := Run.screened_pure ()

/-- An outline of a label has the tokens that are delivered, and breaks off as the label does. -/
theorem Grammar.Outline.delivered_eq {limit : UInt32} {label : List UInt8} {outline : Outline}
    (replays : Interpretation.collecting.read limit label = outline.replay .collecting) :
    delivered limit label = outline.tokens ∧ malformation? limit label = outline.fault? := by
  have screened := outline.replay_screened Interpretation.collecting_screens
  rw [← replays] at screened
  constructor
  · have written := (screened []).2
    rwa [Screen.notes_collecting] at written
  · exact screened.fault?_of_accepted Screen.refusal?_collecting []

open Grammar

/-- An interpretation that screens tokens is handed those that are delivered, and fails with what
is wrong with the label if it refuses none of them. -/
theorem Interpretation.Screens.read {screen : Screen ε} {log : σ → List ε}
    {i : Interpretation σ ν γ} (screens : i.Screens screen log) (limit : UInt32)
    (label : List UInt8) : Run.Screened screen log (i.read limit label) (delivered limit label)
      (malformation? limit label) := by
  obtain ⟨outline, _, replays⟩ := exists_outline limit label
  obtain ⟨tokens, fault⟩ := Outline.delivered_eq (replays .collecting)
  rw [tokens, fault, replays i]
  exact outline.replay_screened screens

/-- Tokens that stand one behind the other between two offsets. -/
def InOrder (start stop : Nat) : List Token → Prop
  | [] => start ≤ stop
  | t :: ts => start ≤ t.span.start ∧ t.span.start ≤ t.span.stop ∧ InOrder t.span.stop stop ts

namespace InOrder

variable {start middle stop : Nat} {ts us : List Token}

theorem of_le (inOrder : InOrder middle stop ts) (le : start ≤ middle) :
    InOrder start stop ts := by
  cases ts with
  | nil => exact Nat.le_trans le inOrder
  | cons t ts => exact ⟨Nat.le_trans le inOrder.1, inOrder.2⟩

theorem append (first : InOrder start middle ts) (second : InOrder middle stop us) :
    InOrder start stop (ts ++ us) := by
  induction ts generalizing start with
  | nil => exact second.of_le first
  | cons t ts ih => exact ⟨first.1, first.2.1, ih first.2.2⟩

theorem to_le (inOrder : InOrder start middle ts) (le : middle ≤ stop) :
    InOrder start stop ts := by
  have longer : InOrder middle stop [] := le
  have whole := inOrder.append longer
  rwa [List.append_nil] at whole

theorem start_le (inOrder : InOrder start stop ts) {t : Token} (member : t ∈ ts) :
    start ≤ t.span.start := by
  induction ts generalizing start with
  | nil => cases member
  | cons u us ih =>
    obtain ⟨before, within, rest⟩ := inOrder
    rcases List.mem_cons.mp member with rfl | later
    · exact before
    · exact Nat.le_trans before (Nat.le_trans within (ih rest later))

theorem le (inOrder : InOrder start stop ts) : start ≤ stop := by
  induction ts generalizing start with
  | nil => exact inOrder
  | cons t ts ih =>
    obtain ⟨before, within, rest⟩ := inOrder
    exact Nat.le_trans before (Nat.le_trans within (ih rest))

theorem stop_le (inOrder : InOrder start stop ts) {t : Token} (member : t ∈ ts) :
    t.span.stop ≤ stop := by
  induction ts generalizing start with
  | nil => cases member
  | cons u us ih =>
    obtain ⟨_, _, rest⟩ := inOrder
    rcases List.mem_cons.mp member with rfl | later
    · exact rest.le
    · exact ih rest later

theorem pairwise (inOrder : InOrder start stop ts) :
    ts.Pairwise fun t u => t.span.stop ≤ u.span.start := by
  induction ts generalizing start with
  | nil => exact .nil
  | cons t ts ih =>
    obtain ⟨_, _, rest⟩ := inOrder
    exact .cons (fun u member => rest.start_le member) (ih rest)

end InOrder

namespace Grammar

mutual

theorem Expression.tokens_inOrder : ∀ (x : Expression) (offset : Nat),
    InOrder offset (offset + x.text.length) (x.tokens offset)
  | .single t, offset => t.tokens_inOrder offset
  | .group op first others, offset => by
    rw [Expression.text, List.length_append, ← Nat.add_assoc]
    exact (first.tokens_inOrder offset).append (others.tokens_inOrder op _)

theorem Term.tokens_inOrder : ∀ (t : Term) (offset : Nat),
    InOrder offset (offset + t.text.length) (t.tokens offset)
  | .word w, offset => ⟨Nat.le_refl _, Nat.le_add_right _ _, Nat.le_refl _⟩
  | .enclosed x, offset => by
    refine ((x.tokens_inOrder (offset + 1)).of_le (Nat.le_succ offset)).to_le ?_
    simp only [Term.text, List.length_append, List.length_cons]
    omega

theorem Members.tokens_inOrder (op : Connective) : ∀ (ms : Members) (offset : Nat),
    InOrder offset (offset + (ms.text op).length) (ms.tokens offset)
  | .last t, offset => by
    refine ((t.tokens_inOrder (offset + 1)).of_le (Nat.le_succ offset)).to_le ?_
    simp only [Members.text, List.length_cons]
    omega
  | .more t others, offset => by
    have first := (t.tokens_inOrder (offset + 1)).of_le (Nat.le_succ offset)
    refine (first.append (others.tokens_inOrder op _)).to_le ?_
    simp only [Members.text, List.length_append, List.length_cons]
    omega

end

end Grammar

/-- The place where a run arrives, or that its fault names. -/
def Run.place? {α : Type} (stop : α → Nat) : Except Fault α → Option Nat
  | .ok a => some (stop a)
  | .error fault => fault.offset?

/-- A run that takes down tokens in order, from `start` on and up to the place of its end. -/
def Run.TakesDown {α : Type} (start : Nat) (stop : α → Nat) (x : Run (List Token) α) : Prop :=
  ∀ log, ∃ taken p, (x.on log).2 = log ++ taken ∧ place? stop (x.on log).1 = some p ∧
    InOrder start p taken

namespace Run

variable {α β : Type} {start middle : Nat} {stop : α → Nat}

theorem takesDown_pure {a : α} (le : start ≤ stop a) : TakesDown start stop (pure a) :=
  fun log => ⟨[], stop a, (List.append_nil log).symm, rfl, le⟩

theorem takesDown_throw {fault : Fault} {p : Nat} (place : fault.offset? = some p)
    (le : start ≤ p) : TakesDown start stop (throw fault) :=
  fun log => ⟨[], p, (List.append_nil log).symm, place, le⟩

theorem TakesDown.bind {x : Run (List Token) α} {f : α → Run (List Token) β} {stop' : β → Nat}
    (first : TakesDown start stop x) (second : ∀ a, TakesDown (stop a) stop' (f a)) :
    TakesDown start stop' (x >>= f) := by
  intro log
  obtain ⟨taken, p, written, ends, inOrder⟩ := first log
  rw [on_bind]
  rcases run : x.on log with ⟨fault | a, log'⟩
  · rw [run] at written ends
    exact ⟨taken, p, written, ends, inOrder⟩
  · rw [run] at written ends
    cases ends
    obtain ⟨more, q, written', ends', inOrder'⟩ := second a log'
    exact ⟨taken ++ more, q, by rw [← List.append_assoc, ← written, written'], ends',
      inOrder.append inOrder'⟩

theorem TakesDown.of_le {x : Run (List Token) α} (takes : TakesDown middle stop x)
    (le : start ≤ middle) : TakesDown start stop x := by
  intro log
  obtain ⟨taken, p, written, ends, inOrder⟩ := takes log
  exact ⟨taken, p, written, ends, inOrder.of_le le⟩

end Run

theorem NoToken.offset_le {label : List UInt8} {c : Cursor label} {fault : Fault}
    (noToken : NoToken c fault) : ∃ p, fault.offset? = some p ∧ c.offset ≤ p := by
  cases noToken with
  | noTerm | unclosedQuote | emptyQuotes => exact ⟨c.offset, rfl, Nat.le_refl _⟩
  | looseEscape => exact ⟨_, rfl, Nat.le_add_right _ _⟩

namespace Interpretation

variable {label : List UInt8}

mutual

/-- What the descent takes down stands in order before the place where it arrives or breaks off. -/
theorem expression_takesDown (limit : UInt32) (live : Bool) (depth : UInt32) (c : Cursor label) :
    Run.TakesDown c.offset (fun part => part.next.offset)
      (collecting.expression limit live depth c) := by
  rw [expression]
  refine (term_takesDown limit live depth c).bind fun first => ?_
  cases first.next.connective? with
  | none => exact Run.takesDown_pure (Nat.le_refl _)
  | some op =>
    exact siblings_takesDown limit live depth op first.span c first.next first.rest_lt
termination_by 2 * c.rest.length + 1
decreasing_by
  · omega
  · have := first.rest_lt; omega

theorem siblings_takesDown (limit : UInt32) (live : Bool) (depth : UInt32) (op : Connective)
    (span : Span) (opening c : Cursor label) (after : c.rest.length < opening.rest.length) :
    Run.TakesDown c.offset (fun part => part.next.offset)
      (collecting.siblings limit live depth op () span opening c after) := by
  rw [siblings]
  split
  next more =>
    have shorter := c.rest_advance_lt more Nat.one_pos
    have known : collecting.memberLive live () = pure (live && true) := memberLive_of_pure rfl live
    rw [known]
    have member := term_takesDown limit (live && true) depth (c.advance 1)
    refine (member.bind fun part => ?_).of_le (Nat.le_succ c.offset)
    have := part.rest_lt
    exact siblings_takesDown limit live depth op (span.merge part.span) opening part.next _
  next =>
    split
    · exact Run.takesDown_throw rfl (Nat.le_refl _)
    · exact Run.takesDown_pure (Nat.le_refl _)
termination_by 2 * c.rest.length
decreasing_by all_goals omega

theorem term_takesDown (limit : UInt32) (live : Bool) (depth : UInt32) (c : Cursor label) :
    Run.TakesDown c.offset (fun part => part.next.offset)
      (collecting.term limit live depth c) := by
  rw [term]
  split
  next nested =>
    split
    · exact Run.takesDown_throw rfl (Nat.le_refl _)
    · have shorter := c.rest_advance_lt nested Nat.one_pos
      have inner := expression_takesDown limit live (depth + 1) (c.advance 1)
      refine (inner.bind fun part => ?_).of_le (Nat.le_succ c.offset)
      split
      next fault failed =>
        rw [Cursor.expect] at failed
        split at failed
        · cases failed
        · cases failed
          exact Run.takesDown_throw rfl (Nat.le_refl _)
      next next closed =>
        obtain ⟨_, rfl⟩ := Cursor.expect_eq_ok.mp closed
        exact Run.takesDown_pure (Nat.le_succ _)
  next outside =>
    split
    next fault stop failed =>
      obtain ⟨p, place, le⟩ := (NoToken.of_token outside failed).offset_le
      exact Run.takesDown_throw place le
    next token next scanned =>
      obtain ⟨w, _, _, rfl, rfl⟩ := Cursor.token_sound scanned
      have inOrder : InOrder c.offset (c.offset + w.text.length) [w.token c.offset] :=
        ⟨Nat.le_refl _, Nat.le_add_right _ _, Nat.le_refl _⟩
      exact fun log => ⟨_, _, rfl, rfl, inOrder⟩
termination_by 2 * c.rest.length
decreasing_by omega

end

end Interpretation

/-- The tokens of a label are delivered in order, before the place where the label breaks off. -/
theorem delivered_inOrder (limit : UInt32) (label : List UInt8) :
    ∃ p, InOrder 0 p (delivered limit label) ∧
      ∀ fault, malformation? limit label = some fault → fault.offset? = some p := by
  rw [delivered, malformation?, Run.fault?, Interpretation.read]
  split
  next => exact ⟨0, Nat.le_refl 0, by rintro _ ⟨⟩⟩
  next =>
    obtain ⟨taken, p, written, ends, inOrder⟩ :=
      Interpretation.expression_takesDown limit true 0 (Cursor.start label) []
    refine ⟨p, ?_⟩
    rw [Run.on_bind]
    rcases run : (Interpretation.collecting.expression limit true 0 (Cursor.start label)).on [] with
      ⟨fault | whole, log⟩
    · rw [run] at written ends
      obtain rfl : log = taken := written
      exact ⟨inOrder, by rintro _ ⟨⟩; exact ends⟩
    · rw [run] at written ends
      obtain rfl : log = taken := written
      cases ends
      -- Behind the whole expression either the label ends or something is left over.
      simp only
      split
      · exact ⟨inOrder, by rintro _ ⟨⟩⟩
      · exact ⟨inOrder, by rintro _ ⟨⟩; rfl⟩

theorem delivered_pairwise (limit : UInt32) (label : List UInt8) :
    (delivered limit label).Pairwise fun t u => t.span.stop ≤ u.span.start := by
  obtain ⟨_, inOrder, _⟩ := delivered_inOrder limit label
  exact inOrder.pairwise

theorem delivered_before_malformation {limit : UInt32} {label : List UInt8} {fault : Fault}
    (malformed : malformation? limit label = some fault) :
    ∃ p, fault.offset? = some p ∧ ∀ t ∈ delivered limit label, t.span.stop ≤ p := by
  obtain ⟨p, inOrder, place⟩ := delivered_inOrder limit label
  exact ⟨p, place fault malformed, fun _ => inOrder.stop_le⟩

end Clearance
