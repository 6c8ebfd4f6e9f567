import Clearance.Proofs.Places

/-! A reading as a machine that takes one step after another. The calls of the descent that wait for
others, which there stand in its recursion, stand here in a list of frames. Nothing but the steps
themselves says that they come to an end: each lowers a potential, and the machine halts with what
the descent gives. -/
namespace Clearance.Machine

/-- A call that waits for the one that it has made. -/
inductive Frame (γ : Type) (label : List UInt8) where
  /-- The reading of the whole label. -/
  | whole
  /-- An expression that waits for its first term. -/
  | first (live : Bool) (depth : UInt32) (opening : Cursor label)
  /-- An expression that waits for a further member, the one behind the connective at `c`. -/
  | member (live : Bool) (depth : UInt32) (op : Connective) (group : γ) (span : Span)
    (opening c : Cursor label)
  /-- A term that waits for what stands in its parentheses. -/
  | inner (live : Bool) (depth : UInt32) (opening : Cursor label)

/-- What comes next: a call, a round of the loop of an expression, or a return. -/
inductive Control (ν γ : Type) (label : List UInt8) where
  | read
  | expression (live : Bool) (depth : UInt32) (c : Cursor label)
  | term (live : Bool) (depth : UInt32) (c : Cursor label)
  | siblings (live : Bool) (depth : UInt32) (op : Connective) (group : γ) (span : Span)
    (opening c : Cursor label)
  | returned (node : ν) (span : Span) (next : Cursor label)
  | halted (node : ν)

structure Configuration (ν γ : Type) (label : List UInt8) where
  control : Control ν γ label
  waiting : List (Frame γ label)

variable {σ ν γ : Type} {label : List UInt8}

/-- What the descent does from one call or return to the next. -/
def step (i : Interpretation σ ν γ) (limit : UInt32) :
    Configuration ν γ label → Run σ (Configuration ν γ label)
  | ⟨.read, waiting⟩ => do
    if (Cursor.start label).atEnd then return ⟨.halted (← i.empty), waiting⟩
    else return ⟨.expression true 0 (.start label), .whole :: waiting⟩
  | ⟨.expression live depth c, waiting⟩ =>
    return ⟨.term live depth c, .first live depth c :: waiting⟩
  | ⟨.term live depth c, waiting⟩ => do
    if c.peek = some openByte then
      if depth ≥ limit then throw (.tooDeep limit (Text.Utf8.decodeLossy label) c.offset)
      else return ⟨.expression live (depth + 1) (c.advance 1), .inner live depth c :: waiting⟩
    else
      match c.token with
      | (.error fault, _) => throw fault
      | (.ok token, next) => return ⟨.returned (← i.leaf token live) token.span next, waiting⟩
  | ⟨.siblings live depth op group span opening c, waiting⟩ => do
    if c.peek = some op.byte then
      let memberLive ← i.memberLive live group
      return ⟨.term memberLive depth (c.advance 1),
        .member live depth op group span opening c :: waiting⟩
    else if c.peek = some op.other.byte then throw (c.fault .mixedConnectives)
    else return ⟨.returned (← i.finish group span) span c, waiting⟩
  | ⟨.returned node span next, .first live depth opening :: waiting⟩ => do
    match next.connective? with
    | none => return ⟨.returned node span next, waiting⟩
    | some op =>
      let group ← i.begin op node span
      return ⟨.siblings live depth op group span opening next, waiting⟩
  | ⟨.returned node span next, .member live depth op group covered opening _ :: waiting⟩ => do
    let group ← i.add group node span
    return ⟨.siblings live depth op group (covered.merge span) opening next, waiting⟩
  | ⟨.returned node _ next, .inner _ _ opening :: waiting⟩ =>
    match next.expect closeByte with
    | .error fault => throw fault
    | .ok next => return ⟨.returned node ⟨opening.offset, next.offset⟩ next, waiting⟩
  | ⟨.returned node _ next, .whole :: waiting⟩ =>
    if next.atEnd then return ⟨.halted node, waiting⟩
    else throw (next.fault (.leftOver next.char))
  | ⟨.returned node _ _, []⟩ => return ⟨.halted node, []⟩
  | ⟨.halted node, waiting⟩ => return ⟨.halted node, waiting⟩

/-- So many steps. A machine that has halted stays as it is. -/
def run (i : Interpretation σ ν γ) (limit : UInt32) :
    Nat → Configuration ν γ label → Run σ (Configuration ν γ label)
  | 0, m => pure m
  | n + 1, m => step i limit m >>= run i limit n

/-- Before the first step. -/
def initial (ν γ : Type) (label : List UInt8) : Configuration ν γ label := ⟨.read, []⟩

def Control.weight : Control ν γ label → Nat
  | .read => 6 * label.length + 7
  | .expression _ _ c => 6 * c.rest.length + 4
  | .term _ _ c => 6 * c.rest.length + 1
  | .siblings _ _ _ _ _ _ c => 6 * c.rest.length + 2
  | .returned _ _ next => 6 * next.rest.length + 1
  | .halted _ => 0

/-- More than the steps that are left. -/
def Configuration.potential (m : Configuration ν γ label) : Nat :=
  m.control.weight + 2 * m.waiting.length

def Configuration.Halted (m : Configuration ν γ label) : Prop := ∃ node, m.control = .halted node

/-- What one step can do. -/
inductive Next (limit : UInt32) : Configuration ν γ label → Configuration ν γ label → Prop
  | empty {waiting : List (Frame γ label)} (node : ν) :
    Next limit ⟨.read, waiting⟩ ⟨.halted node, waiting⟩
  | whole {waiting : List (Frame γ label)} :
    Next limit ⟨.read, waiting⟩ ⟨.expression true 0 (.start label), .whole :: waiting⟩
  | first {live : Bool} {depth : UInt32} {c : Cursor label} {waiting : List (Frame γ label)} :
    Next limit ⟨.expression live depth c, waiting⟩
      ⟨.term live depth c, .first live depth c :: waiting⟩
  | opened {live : Bool} {depth : UInt32} {c : Cursor label} {waiting : List (Frame γ label)}
    (opens : c.peek = some openByte) (room : depth < limit) :
    Next limit ⟨.term live depth c, waiting⟩
      ⟨.expression live (depth + 1) (c.advance 1), .inner live depth c :: waiting⟩
  | token {live : Bool} {depth : UInt32} {c next : Cursor label} {t : Token}
    {waiting : List (Frame γ label)} (node : ν) (scanned : c.token = (.ok t, next)) :
    Next limit ⟨.term live depth c, waiting⟩ ⟨.returned node t.span next, waiting⟩
  | more {live : Bool} {depth : UInt32} {op : Connective} {group : γ} {span : Span}
    {opening c : Cursor label} {waiting : List (Frame γ label)} (memberLive : Bool)
    (here : c.peek = some op.byte) :
    Next limit ⟨.siblings live depth op group span opening c, waiting⟩
      ⟨.term memberLive depth (c.advance 1),
        .member live depth op group span opening c :: waiting⟩
  | finished {live : Bool} {depth : UInt32} {op : Connective} {group : γ} {span : Span}
    {opening c : Cursor label} {waiting : List (Frame γ label)} (node : ν) :
    Next limit ⟨.siblings live depth op group span opening c, waiting⟩
      ⟨.returned node span c, waiting⟩
  | single {live : Bool} {depth : UInt32} {opening next : Cursor label} {node : ν} {span : Span}
    {waiting : List (Frame γ label)} :
    Next limit ⟨.returned node span next, .first live depth opening :: waiting⟩
      ⟨.returned node span next, waiting⟩
  | begun {live : Bool} {depth : UInt32} {opening next : Cursor label} {node : ν} {span : Span}
    {waiting : List (Frame γ label)} (op : Connective) (group : γ) :
    Next limit ⟨.returned node span next, .first live depth opening :: waiting⟩
      ⟨.siblings live depth op group span opening next, waiting⟩
  | added {live : Bool} {depth : UInt32} {op : Connective} {group : γ} {covered : Span}
    {opening c next : Cursor label} {node : ν} {span : Span} {waiting : List (Frame γ label)}
    (larger : γ) :
    Next limit
      ⟨.returned node span next, .member live depth op group covered opening c :: waiting⟩
      ⟨.siblings live depth op larger (covered.merge span) opening next, waiting⟩
  | closed {live : Bool} {depth : UInt32} {opening next behind : Cursor label} {node : ν}
    {span : Span} {waiting : List (Frame γ label)} (closes : next.expect closeByte = .ok behind) :
    Next limit ⟨.returned node span next, .inner live depth opening :: waiting⟩
      ⟨.returned node ⟨opening.offset, behind.offset⟩ behind, waiting⟩
  | ended {next : Cursor label} {node : ν} {span : Span} {waiting : List (Frame γ label)} :
    Next limit ⟨.returned node span next, .whole :: waiting⟩ ⟨.halted node, waiting⟩
  | outermost {next : Cursor label} {node : ν} {span : Span} :
    Next limit ⟨.returned node span next, []⟩ ⟨.halted node, []⟩
  | halted {node : ν} {waiting : List (Frame γ label)} :
    Next limit ⟨.halted node, waiting⟩ ⟨.halted node, waiting⟩

theorem Next.lowers {limit : UInt32} {m m' : Configuration ν γ label} (next : Next limit m m')
    (going : ¬ m.Halted) : m'.potential < m.potential := by
  cases next with
  | opened opens =>
    have one := Cursor.rest_advance_succ opens
    simp only [Configuration.potential, Control.weight, List.length_cons]
    omega
  | token _ scanned =>
    have fewer := Cursor.rest_token_lt scanned
    simp only [Configuration.potential, Control.weight]
    omega
  | more _ here =>
    have one := Cursor.rest_advance_succ here
    simp only [Configuration.potential, Control.weight, List.length_cons]
    omega
  | closed closes =>
    have fewer := Cursor.rest_expect_le closes
    simp only [Configuration.potential, Control.weight, List.length_cons]
    omega
  | halted => exact absurd ⟨_, rfl⟩ going
  | _ =>
    simp only [Configuration.potential, Control.weight, List.length_cons, Cursor.start]
    omega

section

variable {i : Interpretation σ ν γ} {limit : UInt32}

theorem step_next (i : Interpretation σ ν γ) (limit : UInt32) (m : Configuration ν γ label) :
    Run.Ends (Next limit m) (fun _ => True) (step i limit m) := by
  obtain ⟨control, waiting⟩ := m
  cases control with
  | read =>
    rw [step]
    split
    · exact (Run.ends_any _).bind fun node _ => Run.ends_pure (.empty node)
    · exact Run.ends_pure .whole
  | expression live depth c => exact Run.ends_pure .first
  | term live depth c =>
    rw [step]
    split
    next opens =>
      split
      · exact Run.ends_throw trivial
      next room => exact Run.ends_pure (.opened opens (by simpa using room))
    · split
      · exact Run.ends_throw trivial
      next t next scanned =>
        exact (Run.ends_any _).bind fun node _ => Run.ends_pure (.token node scanned)
  | siblings live depth op group span opening c =>
    rw [step]
    split
    next here =>
      exact (Run.ends_lift _).bind fun memberLive _ => Run.ends_pure (.more memberLive here)
    · split
      · exact Run.ends_throw trivial
      · exact (Run.ends_any _).bind fun node _ => Run.ends_pure (.finished node)
  | returned node span next =>
    cases waiting with
    | nil => exact Run.ends_pure .outermost
    | cons frame waiting =>
      cases frame with
      | whole =>
        rw [step]
        split
        · exact Run.ends_pure .ended
        · exact Run.ends_throw trivial
      | first live depth opening =>
        rw [step]
        split
        · exact Run.ends_pure .single
        next op _ => exact (Run.ends_lift _).bind fun group _ => Run.ends_pure (.begun op group)
      | member live depth op group covered opening c =>
        exact (Run.ends_lift _).bind fun larger _ => Run.ends_pure (.added larger)
      | inner live depth opening =>
        rw [step]
        split
        · exact Run.ends_throw trivial
        next behind closes => exact Run.ends_pure (.closed closes)
  | halted node => exact Run.ends_pure .halted

theorem Configuration.Halted.run_eq {m : Configuration ν γ label} (halted : m.Halted) (n : Nat) :
    run i limit n m = pure m := by
  obtain ⟨node, halted⟩ := halted
  obtain ⟨_, waiting⟩ := m
  cases halted
  induction n with
  | zero => rfl
  | succ n ih => simp [run, step, ih]

theorem potential_pos {m : Configuration ν γ label} (going : ¬ m.Halted) : 0 < m.potential := by
  obtain ⟨control, waiting⟩ := m
  cases control with
  | halted node => exact absurd ⟨node, rfl⟩ going
  | _ =>
    simp only [Configuration.potential, Control.weight]
    omega

/-- Where the steps are enough, one more of them does nothing. -/
theorem run_succ_eq {n : Nat} {m : Configuration ν γ label} (enough : m.potential ≤ n) :
    run i limit (n + 1) m = run i limit n m := by
  induction n generalizing m with
  | zero =>
    by_cases halted : m.Halted
    · rw [halted.run_eq, halted.run_eq]
    · exact absurd (potential_pos halted) (Nat.not_lt.mpr enough)
  | succ n ih =>
    by_cases halted : m.Halted
    · rw [halted.run_eq, halted.run_eq]
    · refine (step_next i limit m).bind_congr fun m' next => ih ?_
      exact Nat.le_of_lt_succ (Nat.lt_of_lt_of_le (next.lowers halted) enough)

theorem run_eq_step {n : Nat} {m : Configuration ν γ label} (enough : m.potential ≤ n) :
    run i limit n m = step i limit m >>= run i limit n :=
  (run_succ_eq enough).symm

variable {n : Nat}

theorem run_returned {node : ν} {span : Span} {next : Cursor label} {frame : Frame γ label}
    {waiting : List (Frame γ label)} (enough : 6 * next.rest.length + 3 + 2 * waiting.length ≤ n) :
    run i limit n ⟨.returned node span next, frame :: waiting⟩ =
      step i limit ⟨.returned node span next, frame :: waiting⟩ >>= run i limit n := by
  apply run_eq_step
  simp only [Configuration.potential, Control.weight, List.length_cons]
  omega

mutual

/-- The machine makes of a call what the descent makes of it, and returns it to whoever waits. -/
theorem run_expression (live : Bool) (depth : UInt32) (c : Cursor label)
    (waiting : List (Frame γ label))
    (enough : 6 * c.rest.length + 4 + 2 * waiting.length ≤ n) :
    run i limit n ⟨.expression live depth c, waiting⟩ =
      i.expression limit live depth c >>= fun whole =>
        run i limit n ⟨.returned whole.node whole.span whole.next, waiting⟩ := by
  rw [run_eq_step enough, step, pure_bind, Interpretation.expression, bind_assoc,
    run_term live depth c _ (by rw [List.length_cons]; omega)]
  apply bind_congr
  intro first
  have shorter := first.rest_lt
  rw [run_returned (by omega), step]
  cases first.next.connective? with
  | none => rfl
  | some op =>
    simp only [bind_assoc, pure_bind]
    apply bind_congr
    intro group
    exact run_siblings live depth op group first.span c first.next first.rest_lt waiting (by omega)
termination_by 2 * c.rest.length + 1
decreasing_by all_goals omega

theorem run_siblings (live : Bool) (depth : UInt32) (op : Connective) (group : γ) (span : Span)
    (opening c : Cursor label) (after : c.rest.length < opening.rest.length)
    (waiting : List (Frame γ label))
    (enough : 6 * c.rest.length + 2 + 2 * waiting.length ≤ n) :
    run i limit n ⟨.siblings live depth op group span opening c, waiting⟩ =
      i.siblings limit live depth op group span opening c after >>= fun whole =>
        run i limit n ⟨.returned whole.node whole.span whole.next, waiting⟩ := by
  rw [run_eq_step enough, step, Interpretation.siblings]
  by_cases more : c.peek = some op.byte
  · have one := Cursor.rest_advance_succ more
    rw [if_pos more, dif_pos more]
    simp only [bind_assoc, pure_bind]
    apply bind_congr
    intro memberLive
    rw [run_term memberLive depth (c.advance 1) _ (by rw [List.length_cons]; omega)]
    apply bind_congr
    intro member
    have shorter := member.rest_lt
    rw [run_returned (by omega), step]
    simp only [bind_assoc, pure_bind]
    apply bind_congr
    intro group
    exact run_siblings live depth op group (span.merge member.span) opening member.next _ waiting
      (by omega)
  · rw [if_neg more, dif_neg more]
    split
    · rfl
    · simp only [bind_assoc, pure_bind]
termination_by 2 * c.rest.length
decreasing_by all_goals omega

theorem run_term (live : Bool) (depth : UInt32) (c : Cursor label)
    (waiting : List (Frame γ label))
    (enough : 6 * c.rest.length + 1 + 2 * waiting.length ≤ n) :
    run i limit n ⟨.term live depth c, waiting⟩ =
      i.term limit live depth c >>= fun whole =>
        run i limit n ⟨.returned whole.node whole.span whole.next, waiting⟩ := by
  rw [run_eq_step enough, step, Interpretation.term]
  by_cases nested : c.peek = some openByte
  · have one := Cursor.rest_advance_succ nested
    rw [if_pos nested, dif_pos nested]
    split
    · rfl
    · rw [pure_bind, bind_assoc,
        run_expression live (depth + 1) (c.advance 1) _ (by rw [List.length_cons]; omega)]
      apply bind_congr
      intro inner
      have shorter := inner.rest_lt
      rw [run_returned (by omega), step]
      -- Both look at the byte that should close the parentheses.
      split <;> rename_i result found <;> split <;> rename_i result' found' <;>
        cases found.symm.trans found' <;> rfl
  · rw [if_neg nested, dif_neg nested]
    split <;> rename_i scanned <;> split <;> rename_i scanned' <;>
      cases scanned.symm.trans scanned'
    · rfl
    · simp only [bind_assoc, pure_bind]
termination_by 2 * c.rest.length
decreasing_by all_goals omega

end

/-- The machine comes to an end, as the reading does. -/
theorem run_initial (i : Interpretation σ ν γ) (limit : UInt32) (label : List UInt8)
    (more : Nat) : run i limit (6 * label.length + 7 + more) (initial ν γ label) =
      i.read limit label >>= fun node => pure ⟨.halted node, []⟩ := by
  have enough : (initial ν γ label).potential ≤ 6 * label.length + 7 + more := Nat.le_add_right _ _
  rw [run_eq_step enough, initial, step, Interpretation.read]
  have halted (node : ν) : run i limit (6 * label.length + 7 + more) ⟨.halted node, []⟩ =
      pure (⟨.halted node, []⟩ : Configuration ν γ label) :=
    Configuration.Halted.run_eq ⟨node, rfl⟩ _
  by_cases empty : (Cursor.start label).atEnd = true
  · simp only [if_pos empty, bind_assoc, pure_bind, halted]
  · have start : (Cursor.start label).rest.length = label.length := rfl
    simp only [if_neg empty, bind_assoc, pure_bind]
    rw [run_expression true 0 (.start label) _ (by rw [List.length_singleton]; omega)]
    apply bind_congr
    intro whole
    have shorter := whole.rest_lt
    rw [run_returned (by rw [List.length_nil]; omega), step]
    split
    · simp only [pure_bind, halted]
    · rfl

end

end Clearance.Machine
