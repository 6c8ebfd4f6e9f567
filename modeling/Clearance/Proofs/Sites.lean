import Clearance.Proofs.Inquiries
import Clearance.Proofs.Meaning

/-! What a decision asks at each leaf of a tree. The policy is asked about every leaf, and an
authority as long as no group around the leaf is decided by the members before it. The answers to
that are known by the spans of the leaves, since an authority may answer twice about one value
and not alike. -/
namespace Clearance

variable {σ τ : Type}

namespace Connective

theorem undecided_join (op : Connective) (a b : Bool) :
    op.undecided (op.join a b) = (op.undecided a && op.undecided b) := by
  cases op <;> cases a <;> cases b <;> rfl

theorem join_of_decided {op : Connective} {a : Bool} (decided : op.undecided a = false) (b : Bool) :
    op.join a b = a := by
  cases op <;> cases a <;> first | rfl | cases decided

theorem eq_unit_of_undecided {op : Connective} {a : Bool} (undecided : op.undecided a = true) :
    a = op.unit := by
  cases op <;> cases a <;> first | rfl | cases undecided

end Connective

/-- A leaf where it stands in a tree. For each group around it, from the innermost on, `around` has
the connective and the members before the one that the leaf lies in. -/
structure Site where
  span : Span
  quoted : Bool
  value : String
  around : List (Connective × List Tree)

namespace Tree

mutual

/-- The leaves of a tree that stands within these groups, in the order of the label. -/
def sites (around : List (Connective × List Tree)) : Tree → List Site
  | .empty => []
  | .leaf span quoted value => [{ span, quoted, value, around }]
  | .group op _ members => memberSites around op [] members

def memberSites (around : List (Connective × List Tree)) (op : Connective) (before : List Tree) :
    List Tree → List Site
  | [] => []
  | t :: ts => t.sites ((op, before) :: around) ++ memberSites around op (before ++ [t]) ts

end

mutual

def leafSpans : Tree → List Span
  | .empty => []
  | .leaf span _ _ => [span]
  | .group _ _ members => memberLeafSpans members

def memberLeafSpans : List Tree → List Span
  | [] => []
  | t :: ts => t.leafSpans ++ memberLeafSpans ts

end

mutual

theorem sites_spans : ∀ (t : Tree) (around : List (Connective × List Tree)),
    (t.sites around).map Site.span = t.leafSpans
  | .empty, _ => rfl
  | .leaf _ _ _, _ => rfl
  | .group op _ members, around => memberSites_spans op members around []

theorem memberSites_spans (op : Connective) : ∀ (ts : List Tree)
    (around : List (Connective × List Tree)) (before : List Tree),
      (memberSites around op before ts).map Site.span = memberLeafSpans ts
  | [], _, _ => rfl
  | t :: ts, around, before => by
    rw [memberSites, List.map_append, sites_spans t, memberSites_spans op ts, memberLeafSpans]

end

mutual

/-- The value of a tree whose leaves have these answers, by their spans. -/
def valueBy (answer : Span → Bool) : Tree → Bool
  | .empty => true
  | .leaf span _ _ => answer span
  | .group op _ members => op.value (valuesBy answer members)

def valuesBy (answer : Span → Bool) : List Tree → List Bool
  | [] => []
  | t :: ts => t.valueBy answer :: valuesBy answer ts

end

mutual

/-- The value of a tree, from the left, by an authority that is asked about a leaf only once the
value hangs on it. -/
def lazily (ask : Authority σ) : Tree → StateM σ Bool
  | .empty => pure true
  | .leaf _ _ value => ask value
  | .group op _ members => lazilyMembers ask op members

def lazilyMembers (ask : Authority σ) (op : Connective) : List Tree → StateM σ Bool
  | [] => pure op.unit
  | t :: ts => do
    let value ← t.lazily ask
    if op.undecided value then lazilyMembers ask op ts else pure value

end

end Tree

/-- No group is decided by the members before: none of them is false in a conjunction, and none
true in a disjunction. -/
def allUndecided (answer : Span → Bool) (around : List (Connective × List Tree)) : Bool :=
  around.all fun (op, before) => before.all fun t => op.undecided (t.valueBy answer)

namespace Site

def charset (site : Site) : Charset := if site.quoted then .any else .basic

/-- What is asked at a leaf: the policy, which allows it, and an authority if no group around it is
decided. -/
def inquiries (label : List UInt8) (answer : Span → Bool) (site : Site) : Log :=
  .question site.value site.charset true ::
    if allUndecided answer site.around then
      [.lookup site.value (Tree.leafBody label site.span site.quoted) (answer site.span)]
    else []

end Site

namespace Tree

mutual

/-- What is asked along a tree, where `live` says that no group around it is decided. -/
def transcript (label : List UInt8) (answer : Span → Bool) (live : Bool) : Tree → Log
  | .empty => []
  | .leaf span quoted value =>
    .question value (if quoted then .any else .basic) true ::
      if live then [.lookup value (leafBody label span quoted) (answer span)] else []
  | .group op _ members => memberTranscript label answer op live members

def memberTranscript (label : List UInt8) (answer : Span → Bool) (op : Connective) (live : Bool) :
    List Tree → Log
  | [] => []
  | t :: ts => t.transcript label answer live ++
      memberTranscript label answer op (live && op.undecided (t.valueBy answer)) ts

end

section

variable (label : List UInt8) (answer : Span → Bool)

mutual

/-- Along a tree each leaf is asked about where it stands. -/
theorem transcript_eq_sites : ∀ (t : Tree) (around : List (Connective × List Tree)),
    t.transcript label answer (allUndecided answer around) =
      (t.sites around).flatMap (Site.inquiries label answer)
  | .empty, _ => rfl
  | .leaf _ _ _, _ => (List.append_nil _).symm
  | .group op _ members, around => by
    have first := memberTranscript_eq_sites op members around []
    rwa [List.all_nil, Bool.and_true] at first

theorem memberTranscript_eq_sites (op : Connective) : ∀ (ts : List Tree)
    (around : List (Connective × List Tree)) (before : List Tree),
      memberTranscript label answer op
          (allUndecided answer around && before.all fun t => op.undecided (t.valueBy answer)) ts =
        (memberSites around op before ts).flatMap (Site.inquiries label answer)
  | [], _, _ => rfl
  | t :: ts, around, before => by
    have here := transcript_eq_sites t ((op, before) :: around)
    have later := memberTranscript_eq_sites op ts around (before ++ [t])
    rw [allUndecided, List.all_cons, Bool.and_comm, ← allUndecided] at here
    rw [List.all_append, List.all_cons, List.all_nil, Bool.and_true, ← Bool.and_assoc] at later
    rw [memberTranscript, memberSites, List.flatMap_append, here, later]

end

variable {label answer} {other : Span → Bool}

mutual

theorem valueBy_congr : ∀ {t : Tree}, (∀ span ∈ t.leafSpans, answer span = other span) →
    t.valueBy answer = t.valueBy other
  | .empty, _ => rfl
  | .leaf _ _ _, agree => agree _ List.mem_cons_self
  | .group op _ _, agree => congrArg op.value (valuesBy_congr agree)

theorem valuesBy_congr : ∀ {ts : List Tree},
    (∀ span ∈ memberLeafSpans ts, answer span = other span) → valuesBy answer ts = valuesBy other ts
  | [], _ => rfl
  | t :: ts, agree => by
    obtain ⟨here, later⟩ := List.forall_mem_append.mp agree
    rw [valuesBy, valuesBy, valueBy_congr here, valuesBy_congr later]

end

mutual

theorem transcript_congr : ∀ {t : Tree} {live : Bool},
    (∀ span ∈ t.leafSpans, answer span = other span) →
      t.transcript label answer live = t.transcript label other live
  | .empty, _, _ => rfl
  | .leaf _ _ _, _, agree => by rw [transcript, transcript, agree _ List.mem_cons_self]
  | .group _ _ _, _, agree => memberTranscript_congr agree

theorem memberTranscript_congr : ∀ {ts : List Tree} {op : Connective} {live : Bool},
    (∀ span ∈ memberLeafSpans ts, answer span = other span) →
      memberTranscript label answer op live ts = memberTranscript label other op live ts
  | [], _, _, _ => rfl
  | t :: ts, op, live, agree => by
    obtain ⟨here, later⟩ := List.forall_mem_append.mp agree
    rw [memberTranscript, memberTranscript, transcript_congr here, valueBy_congr here,
      memberTranscript_congr later]

end

end

end Tree

/-- Inquiries that, put one after the other from the state `s`, have the answers written down and
lead to `t`. -/
inductive Log.Leads (policy : Policy σ) (ask : Authority σ) : σ → Log → σ → Prop where
  | nil (s : σ) : Leads policy ask s [] s
  | question {s t u : σ} {value : String} {charset : Charset} {allowed : Bool} {log : Log}
      (put : policy value charset s = (allowed, t)) (later : Leads policy ask t log u) :
      Leads policy ask s (.question value charset allowed :: log) u
  | lookup {s t u : σ} {value : String} {body : List UInt8} {held : Bool} {log : Log}
      (put : ask value s = (held, t)) (later : Leads policy ask t log u) :
      Leads policy ask s (.lookup value body held :: log) u

namespace Log.Leads

variable {policy : Policy σ} {ask : Authority σ} {s t u : σ} {log more : Log}

theorem append (first : Leads policy ask s log t) (second : Leads policy ask t more u) :
    Leads policy ask s (log ++ more) u := by
  induction first with
  | nil => exact second
  | question put _ ih => exact .question put (ih second)
  | lookup put _ ih => exact .lookup put (ih second)

theorem of_append : ∀ {log : Log} {s : σ}, Leads policy ask s (log ++ more) u →
    ∃ t, Leads policy ask s log t ∧ Leads policy ask t more u
  | [], s, leads => ⟨s, .nil s, leads⟩
  | .question .. :: _, _, .question put later => by
    obtain ⟨t, first, second⟩ := of_append later
    exact ⟨t, .question put first, second⟩
  | .lookup .. :: _, _, .lookup put later => by
    obtain ⟨t, first, second⟩ := of_append later
    exact ⟨t, .lookup put first, second⟩

end Log.Leads

/-- An authority with a state of its own: `view` is what there is of it in a state, the policy
leaves that alone, and the authority does with it what `own` does. -/
structure Authority.Apart (ask : Authority σ) (policy : Policy σ) (view : σ → τ)
    (own : Authority τ) : Prop where
  policy_view (value : String) (charset : Charset) (s : σ) :
    view (policy value charset s).2 = view s
  asks (value : String) (s : σ) : own value (view s) = ((ask value s).1, view (ask value s).2)

namespace Tree

variable {policy : Policy σ} {ask : Authority σ} {view : σ → τ} {own : Authority τ}
  {label : List UInt8} {answer : Span → Bool}

mutual

/-- Where a group around it is decided, nothing is asked of the authority. -/
theorem view_of_leads (apart : ask.Apart policy view own) : ∀ (t : Tree) {s u : σ},
    Log.Leads policy ask s (t.transcript label answer false) u → view u = view s
  | .empty, _, _, .nil _ => rfl
  | .leaf _ _ value, s, _, .question put (.nil _) => by
    rw [← apart.policy_view value _ s, put]
  | .group op _ members, _, _, leads => view_of_memberLeads apart op members leads

theorem view_of_memberLeads (apart : ask.Apart policy view own) (op : Connective) :
    ∀ (ts : List Tree) {s u : σ},
      Log.Leads policy ask s (memberTranscript label answer op false ts) u → view u = view s
  | [], _, _, .nil _ => rfl
  | t :: ts, _, _, leads => by
    obtain ⟨_, here, later⟩ := leads.of_append
    rw [view_of_memberLeads apart op ts later, view_of_leads apart t here]

end

mutual

/-- Where no group around it is decided, the authority is asked what it is asked lazily. -/
theorem lazily_of_leads (apart : ask.Apart policy view own) : ∀ (t : Tree) {s u : σ},
    Log.Leads policy ask s (t.transcript label answer true) u →
      t.lazily own (view s) = (t.valueBy answer, view u)
  | .empty, _, _, .nil _ => rfl
  | .leaf span _ value, s, _, .question (t := r) put (.lookup asked (.nil _)) => by
    have before : view r = view s := by rw [← apart.policy_view value _ s, put]
    rw [lazily, valueBy, ← before, apart.asks, asked]
  | .group op _ members, _, _, leads => lazilyMembers_of_leads apart op members leads

theorem lazilyMembers_of_leads (apart : ask.Apart policy view own) (op : Connective) :
    ∀ (ts : List Tree) {s u : σ},
      Log.Leads policy ask s (memberTranscript label answer op true ts) u →
        lazilyMembers own op ts (view s) = (op.value (valuesBy answer ts), view u)
  | [], s, _, .nil _ => congrArg (·, view s) op.value_nil.symm
  | t :: ts, s, u, leads => by
    obtain ⟨r, here, later⟩ := leads.of_append
    have step : lazilyMembers own op (t :: ts) (view s) =
        (if op.undecided (t.valueBy answer) then lazilyMembers own op ts else
          pure (t.valueBy answer)) (view r) := by
      show (t.lazily own >>= _) (view s) = _
      simp only [bind, StateT.bind, lazily_of_leads apart t here]
    rw [step, valuesBy, op.value_cons]
    cases undecided : op.undecided (t.valueBy answer) with
    | true =>
      rw [undecided] at later
      rw [if_pos rfl, lazilyMembers_of_leads apart op ts later,
        Connective.eq_unit_of_undecided undecided, op.unit_join]
    | false =>
      rw [undecided] at later
      rw [Connective.join_of_decided undecided, view_of_memberLeads apart op ts later]
      rfl

end

end Tree

end Clearance
