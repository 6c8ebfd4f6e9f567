import Clearance.Proofs.Kept
import Clearance.Proofs.Limits
import Clearance.Proofs.Sites
import Clearance.Proofs.Verdict

/-! Decisions by an authority, in turn. A label is decided from the left; the authority is asked
about each leaf on which the decision still hangs, once and in the order of the label, in whatever
state its earlier answers have left it. The policy is asked about the other leaves as well. -/
namespace Clearance

open Grammar

variable {σ α β : Type} {policy : Policy σ} {ask : Authority σ}

/-- An authority that is looked up in, and whose answers are written down. -/
def Authority.noted (ask : Authority σ) : Lookup (σ × Log) := .noted (.ofAuthority ask.beside)

theorem Authority.noted_eq {value : String} {s t : σ} {held : Bool} (put : ask value s = (held, t))
    (body : List UInt8) (log : Log) :
    ask.noted value body (s, log) = (held, (t, log ++ [.lookup value body held])) := by
  rw [Authority.noted, Lookup.noted, Lookup.ofAuthority, Authority.beside, put]

theorem Policy.noted_eq {value : String} {charset : Charset} {s t : σ} {allowed : Bool}
    (put : policy value charset s = (allowed, t)) (log : Log) :
    policy.noted value charset (s, log) =
      (allowed, (t, log ++ [.question value charset allowed])) := by
  rw [Policy.noted, put]

/-- A fault that comes of a question that is answered with no, behind which nothing is asked. -/
def Fault.EndsLog (log : Log) (fault : Fault) : Prop :=
  ∃ value charset before, fault = .refused value ∧ log = before ++ [.question value charset false]

theorem Fault.EndsLog.append {log : Log} {fault : Fault} (ends : fault.EndsLog log) (before : Log) :
    fault.EndsLog (before ++ log) := by
  obtain ⟨value, charset, front, refused, rfl⟩ := ends
  exact ⟨value, charset, before ++ front, refused, (List.append_assoc _ _ _).symm⟩

/-- A run that writes down what it asks as it asks it, and fails only where a question is answered
with no. -/
def Run.Records (policy : Policy σ) (ask : Authority σ) (x : Run (σ × Log) α) : Prop :=
  ∀ s log, ∃ outcome t more, x.on (s, log) = (outcome, (t, log ++ more)) ∧
    Log.Leads policy ask s more t ∧ ∀ fault, outcome = .error fault → fault.EndsLog more

namespace Run

theorem records_pure (a : α) : Records policy ask (pure a : Run (σ × Log) α) := by
  intro s log
  exact ⟨.ok a, s, [], by rw [List.append_nil]; rfl, .nil s, nofun⟩

theorem Records.bind {x : Run (σ × Log) α} {f : α → Run (σ × Log) β}
    (first : Records policy ask x) (second : ∀ a, Records policy ask (f a)) :
    Records policy ask (x >>= f) := by
  intro s log
  obtain ⟨outcome, t, more, ran, leads, ends⟩ := first s log
  rw [on_bind, ran]
  cases outcome with
  | error fault => exact ⟨.error fault, t, more, rfl, leads, by rintro _ ⟨⟩; exact ends _ rfl⟩
  | ok a =>
    obtain ⟨outcome, u, later, ran, leadsLater, endsLater⟩ := second a t (log ++ more)
    refine ⟨outcome, u, more ++ later, ?_, leads.append leadsLater, fun fault failed => ?_⟩
    · rw [← List.append_assoc]
      exact ran
    · exact (endsLater fault failed).append more

theorem records_check (value : String) (charset : Charset) :
    Records policy ask (policy.noted.check value charset) := by
  intro s log
  rcases put : policy value charset s with ⟨allowed, t⟩
  rw [Policy.check, on_bind, on_lift, Policy.noted_eq put]
  cases allowed with
  | true =>
    refine ⟨.ok value, t, _, rfl, .question put (.nil t), ?_⟩
    rintro _ ⟨⟩
  | false =>
    refine ⟨.error (.refused value), t, _, rfl, .question put (.nil t), ?_⟩
    rintro _ ⟨⟩
    exact ⟨value, charset, [], rfl, rfl⟩

theorem records_lookup (value : String) (body : List UInt8) :
    Records policy ask (liftM (ask.noted value body)) := by
  intro s log
  rcases put : ask value s with ⟨held, t⟩
  refine ⟨.ok held, t, [.lookup value body held], ?_, .lookup put (.nil t), nofun⟩
  rw [on_lift, Authority.noted_eq put]

end Run

/-- What passes a policy that writes down its questions, and what is written down then. -/
theorem Policy.noted_check_ok {value value' : String} {charset : Charset} {s t : σ}
    {log later : Log}
    (allowed : (policy.noted.check value charset).on (s, log) = (.ok value', (t, later))) :
    value = value' ∧ log ++ [.question value charset true] = later := by
  rcases put : policy value charset s with ⟨answer, r⟩
  rw [Policy.check, Run.on_bind, Run.on_lift, Policy.noted_eq put] at allowed
  cases answer with
  | true => cases allowed; exact ⟨rfl, rfl⟩
  | false => cases allowed

namespace Tree

variable {label : List UInt8}

mutual

/-- A walk over a tree writes down what it asks. -/
theorem decide_records : ∀ (t : Tree) (live : Bool),
    Run.Records policy ask (t.decide policy.noted ask.noted label live)
  | .empty, _ => Run.records_pure true
  | .leaf _ _ value, live => (Run.records_check value _).bind fun value => by
    cases live with
    | true => exact Run.records_lookup value _
    | false => exact Run.records_pure false
  | .group op _ members, live => decideMembers_records op members live op.unit

theorem decideMembers_records (op : Connective) : ∀ (ts : List Tree) (live sofar : Bool),
    Run.Records policy ask (decideMembers policy.noted ask.noted label live op sofar ts)
  | [], _, sofar => Run.records_pure sofar
  | t :: ts, live, sofar => (decide_records t _).bind fun value =>
    decideMembers_records op ts live (op.join sofar value)

end

mutual

/-- What a walk over a tree has asked once it ends well: its leaves, with whatever answers. Where
no group around the tree is decided, the value comes of these answers. -/
theorem decide_ok : ∀ (t : Tree) {live b : Bool} {s u : σ} {log later : Log},
    t.leafSpans.Nodup →
    (t.decide policy.noted ask.noted label live).on (s, log) = (.ok b, (u, later)) →
    ∀ base : Span → Bool, ∃ answer : Span → Bool,
      (∀ span, span ∉ t.leafSpans → answer span = base span) ∧
      later = log ++ t.transcript label answer live ∧ (live = true → b = t.valueBy answer)
  | .empty, live, b, s, u, log, later, _, ran, base => by
    cases ran
    exact ⟨base, fun _ _ => rfl, (List.append_nil log).symm, fun _ => rfl⟩
  | .leaf span quoted value, live, b, s, u, log, later, _, ran, base => by
    obtain ⟨_, ⟨r, between⟩, allowed, answered⟩ := Run.on_bind_eq_ok.mp ran
    obtain ⟨rfl, rfl⟩ := Policy.noted_check_ok allowed
    cases live with
    | true =>
      rcases put : ask value r with ⟨held, v⟩
      rw [if_pos rfl, Run.on_lift, Authority.noted_eq put] at answered
      cases answered
      refine ⟨fun other => if other = span then held else base other, fun other outside => ?_, ?_,
        fun _ => ?_⟩
      · exact if_neg fun same => outside (List.mem_singleton.mpr same)
      · rw [transcript, if_pos rfl, if_pos rfl, List.append_assoc]
        rfl
      · rw [valueBy, if_pos rfl]
    | false =>
      cases answered
      exact ⟨base, fun _ _ => rfl, rfl, nofun⟩
  | .group op _ members, live, b, s, u, log, later, distinct, ran, base => by
    obtain ⟨answer, apart, written, value⟩ := decideMembers_ok op members distinct ran base
    rw [op.undecided_unit, Bool.and_true] at written
    exact ⟨answer, apart, written, fun live => (value live).trans (op.unit_join _)⟩

theorem decideMembers_ok (op : Connective) : ∀ (ts : List Tree) {live sofar b : Bool} {s u : σ}
    {log later : Log}, (memberLeafSpans ts).Nodup →
    (decideMembers policy.noted ask.noted label live op sofar ts).on (s, log) =
      (.ok b, (u, later)) →
    ∀ base : Span → Bool, ∃ answer : Span → Bool,
      (∀ span, span ∉ memberLeafSpans ts → answer span = base span) ∧
      later = log ++ memberTranscript label answer op (live && op.undecided sofar) ts ∧
      (live = true → b = op.join sofar (op.value (valuesBy answer ts)))
  | [], live, sofar, b, s, u, log, later, _, ran, base => by
    cases ran
    refine ⟨base, fun _ _ => rfl, (List.append_nil log).symm, fun _ => ?_⟩
    rw [valuesBy, op.value_nil, op.join_unit]
  | t :: ts, live, sofar, b, s, u, log, later, distinct, ran, base => by
    obtain ⟨here, there, disjoint⟩ := List.nodup_append.mp distinct
    obtain ⟨first, ⟨r, between⟩, walked, rest⟩ := Run.on_bind_eq_ok.mp ran
    obtain ⟨answer, apart, rfl, value⟩ := decide_ok t here walked base
    obtain ⟨answer', apart', rfl, value'⟩ := decideMembers_ok op ts there rest answer
    -- The answers behind `t` leave those within it as they are.
    have same : ∀ span ∈ t.leafSpans, answer span = answer' span := fun span member =>
      (apart' span fun later => disjoint span member span later rfl).symm
    rw [valueBy_congr same] at value
    rw [transcript_congr same]
    refine ⟨answer', fun span outside => ?_, ?_, fun undecided => ?_⟩
    · rw [memberLeafSpans, List.mem_append, not_or] at outside
      rw [apart' span outside.2, apart span outside.1]
    · have later : (live && op.undecided (op.join sofar first)) =
          (live && op.undecided sofar && op.undecided (t.valueBy answer')) := by
        rw [op.undecided_join, ← Bool.and_assoc]
        cases hangs : live && op.undecided sofar with
        | true => rw [value hangs]
        | false => rfl
      rw [memberTranscript, later, List.append_assoc]
    · rw [value' undecided, valuesBy, op.value_cons, op.join_assoc]
      cases hangs : op.undecided sofar with
      | true => rw [value (by rw [undecided, hangs]; rfl)]
      | false => rw [Connective.join_of_decided hangs, Connective.join_of_decided hangs]

end

end Tree

namespace Grammar

mutual

/-- The leaves of a tree stand where the tokens do that it was read from. -/
theorem Expression.leafSpans_tree : ∀ (x : Expression) (offset : Nat),
    (x.tree offset).leafSpans = (x.tokens offset).map Token.span
  | .single t, offset => t.leafSpans_tree offset
  | .group _ first others, offset => by
    rw [Expression.tree, Tree.leafSpans, Tree.memberLeafSpans, first.leafSpans_tree,
      others.leafSpans_trees, Expression.tokens, List.map_append]

theorem Term.leafSpans_tree : ∀ (t : Term) (offset : Nat),
    (t.tree offset).leafSpans = (t.tokens offset).map Token.span
  | .word _, _ => rfl
  | .enclosed x, offset => x.leafSpans_tree (offset + 1)

theorem Members.leafSpans_trees : ∀ (ms : Members) (offset : Nat),
    Tree.memberLeafSpans (ms.trees offset) = (ms.tokens offset).map Token.span
  | .last t, offset => by
    rw [Members.trees, Tree.memberLeafSpans, Tree.memberLeafSpans, List.append_nil,
      t.leafSpans_tree, Members.tokens]
  | .more t others, offset => by
    rw [Members.trees, Tree.memberLeafSpans, t.leafSpans_tree, others.leafSpans_trees,
      Members.tokens, List.map_append]

end

mutual

theorem Expression.exists_word : ∀ (x : Expression) {offset : Nat} {token : Token},
    token ∈ x.tokens offset → ∃ (w : Word) (start : Nat), w.token start = token
  | .single t, _, _, member => t.exists_word member
  | .group _ first others, _, _, member =>
    (List.mem_append.mp member).elim first.exists_word others.exists_word

theorem Term.exists_word : ∀ (t : Term) {offset : Nat} {token : Token},
    token ∈ t.tokens offset → ∃ (w : Word) (start : Nat), w.token start = token
  | .word w, offset, _, member => ⟨w, offset, (List.mem_singleton.mp member).symm⟩
  | .enclosed x, _, _, member => x.exists_word member

theorem Members.exists_word : ∀ (ms : Members) {offset : Nat} {token : Token},
    token ∈ ms.tokens offset → ∃ (w : Word) (start : Nat), w.token start = token
  | .last t, _, _, member => t.exists_word member
  | .more t others, _, _, member =>
    (List.mem_append.mp member).elim t.exists_word others.exists_word

end

/-- No two leaves stand at one place, since no token is empty. -/
theorem Expression.leafSpans_nodup (x : Expression) (offset : Nat) :
    (x.tree offset).leafSpans.Nodup := by
  rw [x.leafSpans_tree, List.Nodup, List.pairwise_map]
  refine (x.tokens_inOrder offset).pairwise.imp_of_mem fun member _ apart same => ?_
  obtain ⟨w, start, rfl⟩ := x.exists_word member
  rw [← same] at apart
  have positive := List.length_pos_iff.mpr w.text_ne_nil
  exact absurd apart (Nat.not_le.mpr (Nat.lt_add_of_pos_right positive))

end Grammar

namespace Rules

variable {rules : Rules σ} {label : List UInt8} {tree : Tree}

/-- The leaves of a label stand one behind the other. -/
theorem leafSpans_of_parse {r r' : σ} (parsed : (rules.parse label).on r = (.ok tree, r')) :
    tree.leafSpans.Nodup ∧ tree.leafSpans.Pairwise fun a b => a.stop ≤ b.start := by
  rcases rules.parse_ok parsed with ⟨_, rfl⟩ | ⟨x, _, _, rfl, _⟩
  · exact ⟨.nil, .nil⟩
  · refine ⟨x.leafSpans_nodup 0, ?_⟩
    rw [x.leafSpans_tree, List.pairwise_map]
    exact (x.tokens_inOrder 0).pairwise

/-- How an authority decides a label with this tree from the state `s`: it leaves the state `t`
behind, and is asked what is written down in `log`. -/
structure DecidesInTurn (rules : Rules σ) (ask : Authority σ) (label : List UInt8) (tree : Tree)
    (s : σ) (outcome : Except Fault Bool) (t : σ) (log : Log) : Prop where
  decides : ((rules.gateOf ask).decide label).on s = (outcome, t)
  noting : ((rules.gateOf ask).decideNoting label).on (s, []) = (outcome, (t, log))
  leads : Log.Leads rules.policy ask s log t
  /-- Nothing but a policy that changes its mind can refuse a label that has a tree. -/
  steady {answer : String → Charset → Bool} (steady : rules.policy.Steady answer) :
    ∃ opens, outcome = .ok opens
  /-- Each leaf is asked about in turn, and looked up if no group around it is decided. -/
  inTurn {opens : Bool} (ok : outcome = .ok opens) : ∃ answer : Span → Bool,
    opens = tree.valueBy answer ∧ log = (tree.sites []).flatMap (Site.inquiries label answer)
  lazily {opens : Bool} (ok : outcome = .ok opens) {τ : Type} {view : σ → τ} {own : Authority τ}
    (apart : ask.Apart rules.policy view own) : tree.lazily own (view s) = (opens, view t)
  refused {fault : Fault} (failed : outcome = .error fault) : fault.EndsLog log

/-- However the answers of an authority come about, it is asked about the leaves on which the
decision still hangs, each once and in the order of the label, and about no other leaf. -/
theorem gateOf_asks_undecided {r r' : σ} (parsed : (rules.parse label).on r = (.ok tree, r'))
    (ask : Authority σ) (s : σ) :
    (tree.sites []).Pairwise (fun a b => a.span.stop ≤ b.span.start) ∧
      ∃ outcome t log, rules.DecidesInTurn ask label tree s outcome t log := by
  obtain ⟨distinct, inOrder⟩ := leafSpans_of_parse parsed
  rw [← tree.sites_spans [], List.pairwise_map] at inOrder
  refine ⟨inOrder, ?_⟩
  have records : Run.Records rules.policy ask
      (tree.decide rules.policy.noted ask.noted label true) := tree.decide_records true
  obtain ⟨outcome, t, log, walked, leads, refused⟩ := records s []
  have noting : ((rules.gateOf ask).decideNoting label).on (s, []) = (outcome, (t, log)) := by
    rw [← (rules.gateOf ask).decideTreeNoting_eq_decideNoting (isOf_of_parse parsed)
      (nesting_le_of_read parsed)]
    exact walked
  have decides : ((rules.gateOf ask).decide label).on s = (outcome, t) := by
    obtain ⟨_, covered⟩ := (rules.gateOf ask).decideNoting_covers label s []
    rw [noting] at covered
    exact Prod.ext (congrArg Prod.fst covered).symm (congrArg (·.2.1) covered).symm
  have inTurn : ∀ {opens}, outcome = .ok opens → ∃ answer : Span → Bool,
      opens = tree.valueBy answer ∧ log = tree.transcript label answer true := by
    rintro opens rfl
    obtain ⟨answer, _, written, value⟩ := tree.decide_ok distinct walked fun _ => false
    exact ⟨answer, value rfl, written⟩
  refine ⟨outcome, t, log, decides, noting, leads, fun steady => ?_, fun ok => ?_,
    fun ok _ _ _ apart => ?_, fun failed => refused _ failed⟩
  · have passes := (endAlike steady label r).parse.symm.trans
      (Run.fault?_eq_none.mpr ⟨_, _, parsed⟩)
    obtain ⟨opens, u, ended⟩ := Run.fault?_eq_none.mp
      (((endAlike steady label s).gateOf ask).trans passes)
    exact ⟨opens, congrArg Prod.fst (decides.symm.trans ended)⟩
  · obtain ⟨answer, value, written⟩ := inTurn ok
    exact ⟨answer, value, written.trans (tree.transcript_eq_sites label answer [])⟩
  · obtain ⟨answer, rfl, rfl⟩ := inTurn ok
    exact tree.lazily_of_leads apart leads

/-- The label `(A&B)|(C&D)|E` before an authority whose answers alternate, from no: `B` is not
looked up, and `C` and `D` are since the group before them is false. -/
theorem gateOf_asks_alternating :
    let rules : Rules (Nat × Nat) := { policy? := some fun _ _ (n, m) => (true, (n + 1, m)) }
    let ask : Authority (Nat × Nat) := fun _ (n, m) => (m % 2 == 1, (n, m + 1))
    let a : Word := .spell "A" (by decide)
    let b : Word := .spell "B" (by decide)
    let c : Word := .spell "C" (by decide)
    let d : Word := .spell "D" (by decide)
    let e : Word := .spell "E" (by decide)
    let x : Expression := .group .or (.enclosed (.group .and (.word a) (.last (.word b))))
      (.more (.enclosed (.group .and (.word c) (.last (.word d)))) (.last (.word e)))
    Text.Utf8.bytes "(A&B)|(C&D)|E" = x.text ∧
      (∃ r, (rules.parse x.text).on (0, 0) = (.ok (x.tree 0), r)) ∧
      ∃ questions log, rules.DecidesInTurn ask x.text (x.tree 0) (0, 0) (.ok true)
        (questions, 4) log := by
  intro rules ask a b c d e x
  have steady : rules.policy.Steady (fun _ _ => true) := fun _ _ _ => rfl
  have allowed : ∀ w ∈ x.words, w.Allowed (fun _ _ => true) := by
    show ∀ w ∈ [a, b, c, d, e], _
    simp only [List.forall_mem_cons, List.not_mem_nil, false_implies, implies_true, and_true]
    exact ⟨Word.allowed_spell _ rfl, Word.allowed_spell _ rfl, Word.allowed_spell _ rfl,
      Word.allowed_spell _ rfl, Word.allowed_spell _ rfl⟩
  obtain ⟨r, parsed⟩ := Rules.parse_yields steady (x := x) (by decide) allowed (0, 0)
  obtain ⟨_, outcome, ⟨questions, m⟩, log, decides⟩ := gateOf_asks_undecided parsed ask (0, 0)
  have apart : ask.Apart rules.policy Prod.snd (fun _ m => (m % 2 == 1, m + 1)) :=
    ⟨fun _ _ _ => rfl, fun _ _ => rfl⟩
  obtain ⟨opens, rfl⟩ := decides.steady steady
  have lazily := decides.lazily rfl apart
  have value : (x.tree 0).lazily (fun _ m => (m % 2 == 1, m + 1)) 0 = (true, 4) := rfl
  cases lazily.symm.trans value
  exact ⟨by decide, ⟨r, parsed⟩, questions, log, decides⟩

end Rules

end Clearance
