import Clearance.Proofs.Dependence
import Clearance.Proofs.Requoting

/-! Readings that do not see quotes. A policy that allows every bare value is blind to whether it
stands in quotes, as the standard one is, and then a check, a visit and a decision are too: they
hand on values and bodies, and no spans. What is built from a label keeps its shape. -/
namespace Clearance

variable {σ τ ν γ : Type}

/-- A policy that answers for a bare value alike in quotes and without. -/
def Policy.Blind (policy : Policy σ) : Prop :=
  ∀ v, Spelling.isBareValue v = true → ∀ charset charset', policy v charset = policy v charset'

/-- A table by which every character that may stand bare is assigned and no control. -/
def CoversBare (categories : Text.Categories) : Prop :=
  ∀ b : UInt8, isBareByte b = true → categories (Char.ofNat b.toNat) = .other

theorem toNat_of_bareChar {b : UInt8} (bare : isBareByte b = true) :
    (Char.ofNat b.toNat).toNat = b.toNat := by
  have low := toNat_le_of_isBareByte bare
  exact Text.Utf8.toNat_ofNat_of_valid (Or.inl (by omega))

theorem coversBare_categories : CoversBare Text.categories := by
  intro b bare
  have printed := toNat_of_isBareByte bare
  have code := toNat_of_bareChar bare
  have noControl : Text.controls.contains (Char.ofNat b.toNat) = false := by
    simp [Text.controls, Text.Ranges.contains, code]
    omega
  have assigned : Text.assigned.contains (Char.ofNat b.toNat) = true :=
    List.any_eq_true.mpr ⟨(0x0, 0x377), List.mem_cons_self, by simp [code]; omega⟩
  rw [Text.categories, noControl, assigned]
  rfl

/-- The characters of a bare value are bare bytes. -/
theorem exists_isBareByte {v : String} (bare : Spelling.isBareValue v = true) {c : Char}
    (member : c ∈ v.toList) : ∃ b : UInt8, isBareByte b = true ∧ Char.ofNat b.toNat = c := by
  have bytes : ∀ b ∈ String.utf8EncodeChar c, isBareByte b = true := fun b inside =>
    List.all_eq_true.mp bare b (List.mem_flatMap.mpr ⟨c, member, inside⟩)
  have ascii : c.toNat ≤ 0x7F := by
    by_contra large
    obtain ⟨b, bs, encoded, _⟩ := Text.Utf8.front_utf8EncodeChar c []
    have inside : b ∈ String.utf8EncodeChar c := encoded ▸ List.mem_cons_self
    have low := toNat_le_of_isBareByte (bytes b inside)
    have high := Text.Utf8.le_toNat_of_mem_utf8EncodeChar (Nat.not_le.mp large) inside
    omega
  rw [Text.Utf8.utf8EncodeChar_ascii ascii, List.forall_mem_singleton] at bytes
  refine ⟨_, bytes, ?_⟩
  rw [Text.Utf8.toNat_ofNat_lt (by omega), Char.ofNat_toNat]

section

variable {categories : Text.Categories}

theorem isOrdinary_of_isBareValue (covers : CoversBare categories) {v : String}
    (bare : Spelling.isBareValue v = true) (charset : Charset) :
    isOrdinary categories v charset = true := by
  cases charset with
  | basic => rfl
  | any =>
    refine List.all_eq_true.mpr fun c member => ?_
    obtain ⟨b, bareByte, rfl⟩ := exists_isBareByte bare member
    have low := toNat_le_of_isBareByte bareByte
    have shown : Char.ofNat b.toNat ≠ Text.Utf8.replacement := by
      intro same
      have code := toNat_of_bareChar bareByte
      rw [same] at code
      exact absurd (code.symm ▸ low) (by decide)
    rw [covers b bareByte, bne_iff_ne.mpr shown]
    rfl

namespace Policy

theorem standard_blind (covers : CoversBare categories) :
    (standard categories : Policy σ).Blind := by
  intro v bare charset charset'
  simp only [standard, isOrdinary_of_isBareValue covers bare]

end Policy

end

namespace Policy

theorem Blind.beside {policy : Policy σ} (blind : policy.Blind) :
    (policy.beside : Policy (σ × τ)).Blind := by
  intro v bare charset charset'
  funext s
  rw [Policy.beside, Policy.beside, blind v bare charset charset']

/-- Whether it is accepted, and what for, hangs on the body of a word and not on its quotes. -/
theorem Blind.accept_eq {policy : Policy σ} (blind : policy.Blind) {v w : Grammar.Word}
    (requoted : v.Requoted w) (offset offset' : Nat) :
    policy.accept (v.token offset) = policy.accept (w.token offset') := by
  cases known : w.value? with
  | none =>
    rw [accept, accept, v.value_token, w.value_token, requoted.value?_eq, known,
      requoted.body_eq]
    rfl
  | some u =>
    have same : policy u v.charset = policy u w.charset := by
      rcases requoted.bare_or_alike with bare | alike
      · have content : Text.Utf8.bytes u = v.body := by
          rw [← Grammar.Word.strip_of_bare bare, requoted.body_eq]
          exact (Text.Utf8.decode?_eq_some.mp known).symm
        exact blind u ((congrArg isBare content).trans bare) _ _
      · rw [Grammar.Word.charset, Grammar.Word.charset, alike]
    rw [v.accept_of_value (requoted.value?_eq.trans known), w.accept_of_value known, check, check,
      same]

end Policy

/-- An interpretation that makes the same of words that differ in their quotes, wherever they
stand, and uses no spans. -/
structure Interpretation.Blind (i : Interpretation σ ν γ) : Prop where
  leaf {v w : Grammar.Word} (requoted : v.Requoted w) (offset offset' : Nat) (live : Bool) :
    i.leaf (v.token offset) live = i.leaf (w.token offset') live
  begin (op : Connective) (first : ν) (span span' : Span) :
    i.begin op first span = i.begin op first span'
  add (group : γ) (member : ν) (span span' : Span) :
    i.add group member span = i.add group member span'
  finish (group : γ) (span span' : Span) : i.finish group span = i.finish group span'

namespace Interpretation

variable {policy : Policy σ}

theorem checking_blind (blind : policy.Blind) : (checking policy).Blind where
  leaf requoted offset offset' _ := by
    simp only [checking, blind.accept_eq requoted offset offset']
  begin _ _ _ _ := rfl
  add _ _ _ _ := rfl
  finish _ _ _ := rfl

theorem visiting_blind (blind : policy.Blind) (collect : String → τ → τ) :
    (visiting policy collect).Blind where
  leaf requoted offset offset' _ := by
    simp only [visiting, blind.beside.accept_eq requoted offset offset']
  begin _ _ _ _ := rfl
  add _ _ _ _ := rfl
  finish _ _ _ := rfl

/-- A lookup is handed the body of a token, which has no quotes. -/
theorem deciding_blind (blind : policy.Blind) (lookup : Lookup σ) :
    (deciding policy lookup).Blind where
  leaf {v w} requoted offset offset' live := by
    have body : (v.token offset).body = (w.token offset').body := requoted.body_eq
    simp only [deciding, blind.accept_eq requoted offset offset', body]
  begin _ _ _ _ := rfl
  add _ _ _ _ := rfl
  finish _ _ _ := rfl

end Interpretation

namespace Grammar

variable {i : Interpretation σ ν γ}

theorem Members.replay_last_congr (blind : i.Blind) {t u : Term}
    (same : ∀ live offset offset', t.replay i live offset = u.replay i live offset')
    (live : Bool) (offset offset' : Nat) (group : γ) :
    (Members.last t).replay i live offset group = (Members.last u).replay i live offset' group := by
  apply bind_congr
  intro memberLive
  rw [same memberLive (offset + 1) (offset' + 1)]
  apply bind_congr
  intro node
  rw [blind.add group node]

mutual

/-- What is blind to quotes makes the same of derivations that differ in them. -/
theorem Expression.Requoted.replay_eq (blind : i.Blind) : ∀ {x y : Expression}, x.Requoted y →
    ∀ live offset offset', x.replay i live offset = y.replay i live offset'
  | _, _, .single term, live, offset, offset' => term.replay_eq blind live offset offset'
  | _, _, .group op begins continues, live, offset, offset' => by
    rw [Expression.replay, Expression.replay, begins.replay_eq blind live offset offset']
    apply bind_congr
    intro node
    rw [blind.begin op node]
    apply bind_congr
    intro group
    rw [continues.replay_eq blind]
    apply bind_congr
    intro group
    apply blind.finish

theorem Term.Requoted.replay_eq (blind : i.Blind) : ∀ {t u : Term}, t.Requoted u →
    ∀ live offset offset', t.replay i live offset = u.replay i live offset'
  | _, _, .word word, live, offset, offset' => blind.leaf word offset offset' live
  | _, _, .enclosed inner, live, offset, offset' =>
    inner.replay_eq blind live (offset + 1) (offset' + 1)

theorem Members.Requoted.replay_eq (blind : i.Blind) : ∀ {ms ns : Members}, ms.Requoted ns →
    ∀ live offset offset' group,
      ms.replay i live offset group = ns.replay i live offset' group
  | _, _, .last term, live, offset, offset', group =>
    Members.replay_last_congr blind (term.replay_eq blind) live offset offset' group
  | _, _, .more term continues, live, offset, offset', group => by
    rw [Members.replay_more, Members.replay_more,
      Members.replay_last_congr blind (term.replay_eq blind) live offset offset' group]
    apply bind_congr
    intro group
    exact continues.replay_eq blind live _ _ group

end

end Grammar

open Grammar

/-- By these rules the second label passes as the first does, and nothing that is made of them tells
them apart: their trees are of one shape, visitors are shown the same, every gate decides the same,
from their text or with a tree kept, and they have one normal form. -/
structure Rules.Indistinct (rules : Rules σ) (label label' : List UInt8) : Prop where
  validate : Run.Yields (rules.validate label') ()
  parse : ∃ tree tree' : Tree, Run.Yields (rules.parse label) tree ∧
    Run.Yields (rules.parse label') tree' ∧ tree.Alike tree'
  visit {τ : Type} (collect : String → τ → τ) :
    rules.visit label' collect = rules.visit label collect
  decide (grants : Grants σ) :
    Gate.decide ⟨rules, grants⟩ label' = Gate.decide ⟨rules, grants⟩ label
  decideLabel (grants : Grants σ) {x y : Label σ} (made : x.Made) (made' : y.Made)
    (bytes : x.bytes = label) (bytes' : y.bytes = label') :
    Gate.decideLabel ⟨rules, grants⟩ y = Gate.decideLabel ⟨rules, grants⟩ x
  normalize : rules.normalize label' = rules.normalize label

namespace Rules

variable {rules : Rules σ} {x y : Expression}

theorem parse_of_validate (within : x.depth ≤ rules.limit.toNat)
    (passes : Run.Yields (rules.validate x.text) ()) :
    Run.Yields (rules.parse x.text) (x.tree 0) := by
  rw [rules.validate_text within] at passes
  rw [rules.parse_text within, map_eq_pure_bind]
  exact passes.bind (Run.yields_pure _)

theorem normalize_text (within : x.depth ≤ rules.limit.toNat) :
    rules.normalize x.text =
      (fun _ => (x.tree 0).normalized) <$> audit rules.policy x.words := by
  rw [normalize, rules.parse_text within, bind_map_left]
  rfl

theorem indistinct_of_requoted (blind : rules.policy.Blind) (requoted : x.Requoted y)
    (within : x.depth ≤ rules.limit.toNat) (passes : Run.Yields (rules.validate x.text) ()) :
    rules.Indistinct x.text y.text := by
  have within' : y.depth ≤ rules.limit.toNat := requoted.depth_eq ▸ within
  have reads {σ ν γ : Type} {i : Interpretation σ ν γ} (blind : i.Blind) :
      i.read rules.limit y.text = i.read rules.limit x.text := by
    rw [read_text x within, read_text y within']
    exact (requoted.replay_eq blind true 0 0).symm
  have validates : rules.validate y.text = rules.validate x.text :=
    reads (Interpretation.checking_blind blind)
  have decides (grants : Grants σ) :
      Gate.decide ⟨rules, grants⟩ y.text = Gate.decide ⟨rules, grants⟩ x.text :=
    congrArg grants.decide (funext fun lookup => reads (Interpretation.deciding_blind blind lookup))
  have passes' := validates ▸ passes
  have alike := requoted.tree_alike 0 0
  exact {
    validate := passes'
    parse := ⟨_, _, parse_of_validate within passes, parse_of_validate within' passes', alike⟩
    visit := fun collect => reads (Interpretation.visiting_blind blind collect)
    decide := decides
    decideLabel := by
      intro grants a b made made' bytes bytes'
      have nested : nesting a.bytes ≤ rules.limit.toNat := by rwa [bytes, nesting_text]
      have nested' : nesting b.bytes ≤ rules.limit.toNat := by rwa [bytes', nesting_text]
      rw [Gate.decideLabel_eq_decide _ made nested, Gate.decideLabel_eq_decide _ made' nested',
        bytes, bytes', decides]
    normalize := by
      rw [normalize_text within, normalize_text within', ← rules.validate_text within,
        ← rules.validate_text within', validates, alike.normalized_eq] }

theorem indistinct_nil (rules : Rules σ) : rules.Indistinct [] [] where
  validate := Run.yields_pure ()
  parse := ⟨.empty, .empty, Run.yields_pure _, Run.yields_pure _, .empty⟩
  visit _ := rfl
  decide _ := rfl
  decideLabel grants x y made made' bytes bytes' := by
    have within {z : Label σ} (empty : z.bytes = []) : nesting z.bytes ≤ rules.limit.toNat := by
      rw [empty]
      exact Nat.zero_le _
    rw [Gate.decideLabel_eq_decide _ made (within bytes),
      Gate.decideLabel_eq_decide _ made' (within bytes'), bytes, bytes']
  normalize := rfl

/-- Before the standard policy, by whatever table that covers the bare characters, quotes that are
not needed do not matter. In a label that passes, any of the tokens whose values are bare may be
written with quotes or without, each as `spell` says of it, and nothing tells. -/
theorem needless_quotes_indistinct {categories : Text.Categories} (covers : CoversBare categories)
    (standard : rules.policy = .standard categories) {label : List UInt8} {s t : σ}
    (valid : (rules.validate label).on s = (.ok (), t)) {spell : Token → List UInt8}
    (needless : ∀ token ∈ delivered rules.limit label, token.Requoted (spell token)) :
    rules.Indistinct label (requote label spell 0 (delivered rules.limit label)) := by
  have steady : rules.policy.Steady (isOrdinary categories) :=
    standard ▸ Policy.standard_steady categories
  have blind : rules.policy.Blind := standard ▸ Policy.standard_blind covers
  have passes := validate_settles steady valid
  rcases validate_ok valid with rfl | ⟨x, rfl, within, _⟩
  · exact rules.indistinct_nil
  · obtain ⟨y, requoted, text⟩ := Expression.exists_requoted_text within needless
    rw [text]
    exact indistinct_of_requoted blind requoted within passes

/-- By the standard rules, `"A"|(B&"c d")` is the same as `A|("B"&"c d")`. -/
theorem needless_quotes_indistinct_swapped :
    let rules : Rules Unit := {}
    let label := Text.Utf8.bytes "\"A\"|(B&\"c d\")"
    let spell : Token → List UInt8 := fun t =>
      if t.body = Text.Utf8.bytes "A" then t.body
      else if t.body = Text.Utf8.bytes "B" then quoteByte :: t.body ++ [quoteByte]
      else t.text
    CoversBare rules.categories ∧ rules.policy = .standard rules.categories ∧
      (∃ t, (rules.validate label).on () = (.ok (), t)) ∧
      (∀ token ∈ delivered rules.limit label, token.Requoted (spell token)) ∧
      rules.Indistinct label (Text.Utf8.bytes "A|(\"B\"&\"c d\")") := by
  intro rules label spell
  let a : Word := .quoted [0x41] (by decide) (.plain (by decide) .nil)
  let b : Word := .spell "B" (by decide)
  let c : Word := .spell "c d" (by decide)
  let e : Expression := .group .or (.word a)
    (.last (.enclosed (.group .and (.word b) (.last (.word c)))))
  have text : e.text = label := by decide
  have valueA : a.value? = some "A" := Text.Utf8.decode?_eq_some.mpr (by decide)
  have valueB : b.value? = some "B" := Word.value?_spell "B" (by decide)
  have allowed : ∀ w ∈ [a, b, c], w.Allowed (isOrdinary rules.categories) := by
    rw [List.forall_mem_cons, List.forall_mem_cons, List.forall_mem_singleton]
    exact ⟨Word.allowed_of_value valueA (by decide), Word.allowed_spell _ rfl,
      Word.allowed_spell _ (by decide)⟩
  obtain ⟨t, valid⟩ :=
    rules.validate_yields (x := e) (Policy.standard_steady _) (by decide) allowed ()
  rw [text] at valid
  have delivers : delivered rules.limit label = [a.token 0, b.token 5, c.token 7] := by
    rw [← text]
    exact Expression.delivered_text (by decide)
  have needless : ∀ token ∈ delivered rules.limit label, token.Requoted (spell token) := by
    rw [delivers]
    rw [List.forall_mem_cons, List.forall_mem_cons, List.forall_mem_singleton]
    refine ⟨.bare (v := "A") ?_ rfl, .quoted (v := "B") ?_ rfl, .kept⟩
    · rw [a.value_token, valueA]
    · rw [b.value_token, valueB]
  have rewritten : requote label spell 0 (delivered rules.limit label) =
      Text.Utf8.bytes "A|(\"B\"&\"c d\")" := by
    rw [delivers]
    decide
  rw [← rewritten]
  exact ⟨coversBare_categories, rfl, ⟨t, valid⟩, needless,
    needless_quotes_indistinct coversBare_categories rfl valid needless⟩

end Rules

end Clearance
