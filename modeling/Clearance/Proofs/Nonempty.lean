import Clearance.Proofs.Calls
import Clearance.Proofs.Dependence
import Clearance.Proofs.Upholding
import Mathlib.Data.List.Sort

/-! No authorization is empty. A token has a body, and no body that can be scanned stands for the
empty value, so no reading ever asks about that value, shows it, or puts it into a tree. The sets
that there are hold no empty value either, whether they are made from lists or from labels. -/
namespace Clearance

open Grammar

variable {σ τ ν γ : Type}

/-- An inquiry about something: the value is not empty, and what is looked up for it is not. -/
def Inquiry.NotEmpty : Inquiry → Prop
  | .question value _ _ => value ≠ ""
  | .lookup value body _ => value ≠ "" ∧ body ≠ []

/-- Nothing that is written down is about the empty value. -/
def Log.NoneEmpty (log : Log) : Prop := ∀ inquiry ∈ log, inquiry.NotEmpty

theorem Log.noneEmpty_nil : Log.NoneEmpty [] := List.forall_mem_nil _

/-- A call that hands over no token without a body, nor one that stands for the empty value. -/
def Event.NotEmpty : Event → Prop
  | .leaf token _ => token.body ≠ [] ∧ token.value ≠ .ok ""
  | _ => True

namespace Grammar.Word

theorem value_token_ne_empty (w : Word) (offset : Nat) : (w.token offset).value ≠ .ok "" := by
  intro empty
  exact value_ne_empty (value?_of_token empty) rfl

end Grammar.Word

theorem forall_mem_concat {α : Type} {p : α → Prop} {xs : List α} {x : α} (before : ∀ y ∈ xs, p y)
    (last : p x) : ∀ y ∈ xs ++ [x], p y :=
  List.forall_mem_append.mpr ⟨before, List.forall_mem_singleton.mpr last⟩

/-- Whatever an interpretation does, it is handed words. -/
theorem Interpretation.traced_upholds (i : Interpretation σ ν γ) :
    i.traced.Upholds fun s => ∀ noted ∈ s.2, noted.event.NotEmpty where
  empty _ holds := forall_mem_concat holds trivial
  leaf w offset _ _ holds := forall_mem_concat holds ⟨w.body_ne_nil, w.value_token_ne_empty offset⟩
  begin _ _ _ _ holds := forall_mem_concat holds trivial
  undecided _ _ holds := forall_mem_concat holds trivial
  add _ _ _ _ holds := forall_mem_concat holds trivial
  finish _ _ _ holds := forall_mem_concat holds trivial

theorem Policy.noted_upholds (policy : Policy σ) :
    policy.noted.Upholds fun s => Log.NoneEmpty s.2 :=
  fun _ _ nonempty _ holds => forall_mem_concat holds nonempty

theorem Lookup.Silent.noted_upholds {lookup : Lookup (σ × Log)} (silent : lookup.Silent) :
    lookup.noted.Upholds fun s => Log.NoneEmpty s.2 := by
  intro value body nonempty full s holds
  rw [← silent value body s] at holds
  exact forall_mem_concat holds ⟨nonempty, full⟩

namespace Tree.IsOf

variable {label : List UInt8} {tree : Tree}

theorem empty_not_mem_values (isOf : tree.IsOf label) : "" ∉ tree.values := by
  rcases isOf with ⟨_, rfl⟩ | ⟨x, _, rfl, text⟩
  · exact List.not_mem_nil
  · rw [x.values_tree]
    intro member
    obtain ⟨w, here, empty⟩ := List.mem_map.mp member
    exact Word.value_ne_empty (text w here) empty

theorem readable (isOf : tree.IsOf label) {limit : UInt32} (within : nesting label ≤ limit.toNat) :
    Readable limit label := by
  rcases isOf with ⟨empty, _⟩ | ⟨x, text, _, _⟩
  · exact Or.inl empty
  · exact Or.inr ⟨⟨x, text⟩, within⟩

/-- A visit to a label that has a tree presents its tokens, and nothing else can stop it. -/
theorem visit_eq (isOf : tree.IsOf label) {rules : Rules σ}
    (within : nesting label ≤ rules.limit.toNat) (collect : String → τ → τ) :
    rules.visit label collect =
      forM (delivered rules.limit label) (rules.policy.present collect) := by
  rw [Rules.visit_eq, (isOf.readable within).malformation?_eq]
  exact bind_pure _

/-- A token of a label that has a tree stands for the value of a leaf. -/
theorem exists_value (isOf : tree.IsOf label) {limit : UInt32}
    (within : nesting label ≤ limit.toNat) {t : Token} (member : t ∈ delivered limit label) :
    ∃ v ∈ tree.values, t.value = .ok v := by
  have known := List.mem_map_of_mem (f := Token.value) member
  rw [isOf.delivered_values within] at known
  obtain ⟨v, leaf, same⟩ := List.mem_map.mp known
  exact ⟨v, leaf, same.symm⟩

end Tree.IsOf

/-- Each leaf of the tree has a value that can be spelled, and that is found again in its
spelling. -/
def Tree.NoneEmpty (tree : Tree) : Prop :=
  ∀ v ∈ tree.values, v ≠ "" ∧ ∃ q, Spelling.quote v = .ok q ∧ Spelling.unquote q = .ok v

theorem Tree.IsOf.noneEmpty {label : List UInt8} {tree : Tree} (isOf : tree.IsOf label) :
    tree.NoneEmpty := by
  intro v member
  have nonempty : v ≠ "" := fun empty => isOf.empty_not_mem_values (empty ▸ member)
  exact ⟨nonempty, _, Spelling.quote_eq_ok_iff.mpr ⟨nonempty, rfl⟩, Spelling.unquote_write nonempty⟩

namespace Held

variable {held : Held} {vs : List String}

/-- A set is known by its members. -/
theorem eq_of_mem_iff {a b : Held} (same : ∀ v, v ∈ a.values ↔ v ∈ b.values) : a = b := by
  have irrefl : Std.Irrefl fun v w : String => compare v w = .lt :=
    ⟨fun v less => Ordering.noConfusion (less.symm.trans Std.ReflCmp.compare_self)⟩
  have antisymm : Std.Antisymm fun v w : String => compare v w = .lt :=
    ⟨fun v w less more => absurd (Std.TransCmp.lt_trans less more) (irrefl.irrefl v)⟩
  obtain ⟨values, ascending⟩ := a
  cases List.Pairwise.eq_of_mem_iff ascending b.ascending same
  rfl

/-- Where one of the values is empty there is no set of them; otherwise there is the one set that
has them for its members, in whichever order and however often they are given. -/
theorem of?_eq_ok_iff : of? vs = .ok held ↔ "" ∉ vs ∧ ∀ v, v ∈ held.values ↔ v ∈ vs := by
  have someEmpty : vs.any (·.isEmpty) = true ↔ "" ∈ vs := by
    simp only [List.any_eq_true, String.isEmpty_iff, exists_eq_right]
  rw [of?]
  by_cases empty : "" ∈ vs
  · rw [if_pos (someEmpty.mpr empty)]
    exact ⟨nofun, fun made => absurd empty made.1⟩
  · rw [if_neg fun found => empty (someEmpty.mp found)]
    constructor
    · rintro ⟨⟩
      exact ⟨empty, fun v => mem_ofList⟩
    · intro made
      exact congrArg Except.ok (eq_of_mem_iff fun v => mem_ofList.trans (made.2 v).symm)

/-- The sets that there are: the empty one, those made of values, and those that labels mention. -/
inductive Made : Held → Prop where
  | empty : Made empty
  | of {held : Held} {vs : List String} (ok : of? vs = .ok held) : Made held
  | mentioned {σ : Type} {x : Label σ} {s t : σ} {held : Held} (made : x.Made)
      (ok : x.mentions.on s = (.ok held, t)) : Made held

end Held

namespace Label.Made

variable {x : Label σ} {s t : σ}

theorem empty_not_mem_mentions (made : x.Made) {held : Held}
    (ok : x.mentions.on s = (.ok held, t)) : "" ∉ held.values := by
  obtain ⟨tree, isOf⟩ := made.exists_isOf
  rw [made.mentions_ok isOf ok, Held.mem_ofList]
  exact isOf.empty_not_mem_values

/-- If what a label mentions is not found, then its tree is not kept, and the policy refuses one of
its authorizations in some state. -/
theorem mentions_error (made : x.Made) {fault : Fault}
    (failed : x.mentions.on s = (.error fault, t)) :
    x.kept? = none ∧ ∃ v charset r, v ≠ "" ∧ (x.rules.policy v charset r).1 = false ∧
      fault = .refused v := by
  cases present : x.kept? with
  | some kept =>
    rw [mentions, present] at failed
    cases failed
  | none =>
    refine ⟨rfl, ?_⟩
    obtain ⟨tree, isOf⟩ := made.exists_isOf
    rcases run : (x.rules.visit x.bytes Held.insert).on (s, Held.empty) with ⟨fault' | _, r, held⟩
    · cases (mentions_of_fresh present run).symm.trans failed
      rw [isOf.visit_eq made.nesting_le] at run
      obtain ⟨token, member, why⟩ := Policy.present_error run
      obtain ⟨v, leaf, known⟩ := isOf.exists_value made.nesting_le member
      rcases why with unknown | ⟨w, state, same, refused, blamed⟩
      · cases known.symm.trans unknown
      · cases known.symm.trans same
        exact ⟨v, token.charset, state, (isOf.noneEmpty v leaf).1, refused, blamed⟩
    · cases (mentions_of_fresh present run).symm.trans failed

end Label.Made

/-- The sets that there are are those without an empty value. -/
theorem Held.made_iff {held : Held} : held.Made ↔ "" ∉ held.values := by
  constructor
  · intro made
    cases made with
    | empty => exact List.not_mem_nil
    | of ok =>
      obtain ⟨nonempty, members⟩ := of?_eq_ok_iff.mp ok
      rwa [members]
    | mentioned made ok => exact made.empty_not_mem_mentions ok
  · intro nonempty
    exact .of (of?_eq_ok_iff.mpr ⟨nonempty, fun _ => Iff.rfl⟩)

/-- The same label, with rules that write down what they ask. -/
def Label.noting (x : Label σ) : Label (σ × Log) := ⟨x.text, x.rules.noting, x.kept?⟩

namespace Gate

variable (gate : Gate σ)

theorem decideNoting_upholds (label : List UInt8) :
    Run.Upholds (fun s => Log.NoneEmpty s.2) (gate.decideNoting label) :=
  gate.grants.decide_upholds fun _ silent =>
    (Interpretation.deciding_upholds gate.rules.policy.noted_upholds silent.noted_upholds).read
      gate.rules.limit label

/-- From its tree a label is decided as it is read by its own rules, deep as it may be for the
gate. -/
theorem decideTreeNoting_upholds {label : List UInt8} {tree : Tree} (isOf : tree.IsOf label)
    {limit : UInt32} (within : nesting label ≤ limit.toNat) :
    Run.Upholds (fun s => Log.NoneEmpty s.2) (gate.decideTreeNoting label tree) := by
  refine gate.grants.decide_upholds fun lookup silent => ?_
  rw [walk_eq_reading gate.rules.policy.noted lookup.noted isOf within]
  exact (Interpretation.deciding_upholds gate.rules.policy.noted_upholds silent.noted_upholds).read
    limit label

theorem decideLabelNoting_upholds {x : Label σ} (made : x.Made) :
    Run.Upholds (fun s => Log.NoneEmpty s.2) (gate.decideLabelNoting x) := by
  rw [decideLabelNoting]
  split
  next kept present => exact gate.decideTreeNoting_upholds (made.keeps kept present) made.nesting_le
  next => exact gate.decideNoting_upholds x.bytes

end Gate

/-- What a reading hands over, whatever is made of it, is never nothing. -/
def Interpretation.NoneEmpty (i : Interpretation σ ν γ) (limit : UInt32) (label : List UInt8)
    (s : σ) : Prop :=
  ∀ noted ∈ ((i.traced.read limit label).on (s, [])).2.2, noted.event.NotEmpty

theorem Interpretation.noneEmpty (i : Interpretation σ ν γ) (limit : UInt32) (label : List UInt8)
    (s : σ) : i.NoneEmpty limit label s :=
  i.traced_upholds.read limit label (s, []) (List.forall_mem_nil _)

/-- However a label is read by some rules, from the state `s`, and however that ends, there is no
empty authorization in it. -/
structure Rules.NoneEmpty (rules : Rules σ) (label : List UInt8) (s : σ) : Prop where
  validate : Log.NoneEmpty ((rules.noting.validate label).on (s, [])).2.2
  parse : Log.NoneEmpty ((rules.noting.parse label).on (s, [])).2.2
  leaves {tree : Tree} {t : σ} (parsed : (rules.parse label).on s = (.ok tree, t)) : tree.NoneEmpty
  visit {τ : Type} (collect : String → τ → τ) (x : τ) :
    Log.NoneEmpty ((rules.noting.visit label collect).on ((s, []), x)).2.1.2
  shows {τ : Type} (collect : String → τ → τ) (x : τ) : ∃ shown : List String, "" ∉ shown ∧
    ((rules.visit label collect).on (s, x)).2.2 = collectAll collect shown x
  decide (grants : Grants σ) :
    Log.NoneEmpty ((Gate.decideNoting ⟨rules, grants⟩ label).on (s, [])).2.2

theorem Rules.noneEmpty (rules : Rules σ) (label : List UInt8) (s : σ) :
    rules.NoneEmpty label s where
  validate := (Interpretation.checking_upholds rules.policy.noted_upholds).read rules.limit label
    (s, []) Log.noneEmpty_nil
  parse := (Interpretation.building_upholds rules.policy.noted_upholds).read rules.limit label
    (s, []) Log.noneEmpty_nil
  leaves parsed := (isOf_of_parse parsed).noneEmpty
  visit collect x := (rules.noting.visit_upholds rules.policy.noted_upholds (fun _ => True)
    (fun _ _ _ => id) label ((s, []), x) ⟨Log.noneEmpty_nil, trivial⟩).1
  shows collect x := by
    have asks : rules.policy.Upholds fun _ => True := fun _ _ _ _ => id
    refine (rules.visit_upholds asks (fun y => ∃ shown : List String, "" ∉ shown ∧
      y = collectAll collect shown x) ?_ label (s, x) ⟨trivial, [], List.not_mem_nil, rfl⟩).2
    rintro v nonempty _ ⟨shown, before, rfl⟩
    refine ⟨shown ++ [v], ?_, by rw [collectAll, collectAll, List.foldl_concat]⟩
    rw [List.mem_append, List.mem_singleton, not_or]
    exact ⟨before, nonempty.symm⟩
  decide grants := Gate.decideNoting_upholds ⟨rules, grants⟩ label (s, []) Log.noneEmpty_nil

/-- Whatever is done with a label, from the state `s`, there is no empty authorization in it. What
it mentions is the set of its values, however they are listed. -/
structure Label.NoneEmpty (x : Label σ) (s : σ) : Prop where
  serve (stamp : Nat) (request : Request) :
    Log.NoneEmpty ((x.noting.serve stamp request).on (s, [])).2.2
  decide (gate : Gate σ) : Log.NoneEmpty ((gate.decideLabelNoting x).on (s, [])).2.2
  leaves {y : Label σ} {stamp : Nat} {tree : Tree} {t : σ}
    (keeps : (x.keep stamp).on s = (.ok (y, tree), t)) : tree.NoneEmpty
  mentions {held : Held} {t : σ} (ok : x.mentions.on s = (.ok held, t)) : "" ∉ held.values ∧
    ∀ vs : List String, (∀ v, v ∈ held.values ↔ v ∈ vs) → Held.of? vs = .ok held
  /-- Only a policy that now refuses what it has allowed leaves this without an answer. -/
  refused {fault : Fault} {t : σ} (failed : x.mentions.on s = (.error fault, t)) :
    x.kept? = none ∧ ∃ v charset r, v ≠ "" ∧ (x.rules.policy v charset r).1 = false ∧
      fault = .refused v
  steady {answer : String → Charset → Bool} (steady : x.rules.policy.Steady answer) :
    ∃ held : Held, Run.Yields x.mentions held

theorem Label.Made.noneEmpty {x : Label σ} (made : x.Made) (s : σ) : x.NoneEmpty s where
  serve stamp request :=
    x.noting.serve_upholds x.rules.policy.noted_upholds stamp request (s, []) Log.noneEmpty_nil
  decide gate := gate.decideLabelNoting_upholds made (s, []) Log.noneEmpty_nil
  leaves keeps := by
    rcases keep_cases keeps with ⟨kept, present, _, rfl⟩ | ⟨parsed, _⟩
    · exact (made.keeps kept present).noneEmpty
    · exact (Rules.isOf_of_parse parsed).noneEmpty
  mentions ok := by
    have nonempty := made.empty_not_mem_mentions ok
    exact ⟨nonempty, fun vs same =>
      Held.of?_eq_ok_iff.mpr ⟨fun empty => nonempty ((same "").mpr empty), same⟩⟩
  refused failed := made.mentions_error failed
  steady steady := by
    obtain ⟨tree, computes, stands⟩ := made.stands steady
    exact ⟨_, stands.mentions computes⟩

/-- There is no empty authorization. No reading hands one over, so the policy is never asked about
one, none is shown, looked up or put into a tree, and the sets that there are have none. What a label
mentions can be made again from its values. -/
theorem no_empty_authorization :
    (∀ {σ ν γ : Type} (i : Interpretation σ ν γ) (limit : UInt32) (label : List UInt8) (s : σ),
      i.NoneEmpty limit label s) ∧
    (∀ {σ : Type} (rules : Rules σ) (label : List UInt8) (s : σ), rules.NoneEmpty label s) ∧
    (∀ {σ : Type} {x : Label σ}, x.Made → ∀ s : σ, x.NoneEmpty s) ∧
    ∀ held : Held, held.Made ↔ "" ∉ held.values := by
  exact ⟨fun i => i.noneEmpty, Rules.noneEmpty, Label.Made.noneEmpty, fun _ => Held.made_iff⟩

/-- The label `"\\"&A`, before its tree has been asked for and after. Between the quotes there is but
a pair that stands for one mark. -/
theorem no_empty_authorization_escapes :
    let rules : Rules Nat := { policy? := some fun value _ n => (value != "C", n + 1) }
    let mentioned := Held.ofList ["A", "\\"]
    ∃ fresh kept : Label Nat, fresh.Made ∧ fresh.text = "\"\\\\\"&A" ∧ fresh.kept? = none ∧
      kept.Made ∧ kept.text = "\"\\\\\"&A" ∧ kept.kept?.isSome = true ∧
      (Interpretation.building rules.policy).NoneEmpty rules.limit fresh.bytes 0 ∧
      rules.NoneEmpty fresh.bytes 0 ∧ fresh.NoneEmpty 0 ∧ kept.NoneEmpty 0 ∧
      (∃ t, fresh.mentions.on 0 = (.ok mentioned, t)) ∧
      (∃ t, kept.mentions.on 0 = (.ok mentioned, t)) ∧
      Held.of? ["\\", "A", "\\"] = .ok mentioned ∧ "" ∉ mentioned.values := by
  intro rules mentioned
  obtain ⟨reads, ruled, labels, sets⟩ := no_empty_authorization
  let a : Word := .spell "A" (by decide)
  let mark : Word := .quoted [0x5C, 0x5C] (by decide) (.kept (by decide) .nil)
  let e : Expression := .group .and (.word mark) (.last (.word a))
  have value : mark.value? = some "\\" := Text.Utf8.decode?_eq_some.mpr (by decide)
  have steady : rules.policy.Steady (fun value _ => value != "C") := fun _ _ _ => rfl
  have allowed : ∀ w ∈ e.words, w.Allowed (fun value _ => value != "C") := by
    show ∀ w ∈ [mark, a], _
    rw [List.forall_mem_cons, List.forall_mem_singleton]
    exact ⟨Word.allowed_of_value value rfl, Word.allowed_spell _ rfl⟩
  have values : Held.ofList (e.tree 0).values = mentioned := by
    rw [e.values_tree]
    show Held.ofList [mark.value, a.value] = mentioned
    rw [Word.value_spell, Word.value, value]
    decide
  have spells : Text.Utf8.bytes "\"\\\\\"&A" = e.text := by decide
  obtain ⟨fresh, kept⟩ := Label.made_of_allowed steady spells (by decide) allowed 0 0
  have found : ∀ {x : Label Nat}, x.Made → x.text = "\"\\\\\"&A" → x.rules = rules →
      ∃ t, x.mentions.on 0 = (.ok mentioned, t) := by
    intro x made text same
    have isOf : (e.tree 0).IsOf x.bytes := by
      refine Or.inr ⟨e, ?_, rfl, fun w member => (allowed w member).text⟩
      rw [Label.bytes, text, spells]
    rw [← same] at steady
    obtain ⟨held, yields⟩ := (labels made 0).steady steady
    obtain ⟨t, ok⟩ := yields 0
    rw [made.mentions_ok isOf ok, values] at ok
    exact ⟨t, ok⟩
  obtain ⟨t, ok⟩ := found fresh rfl rfl
  have again := ((labels fresh 0).mentions ok).2 ["\\", "A", "\\"] fun v =>
    Held.mem_ofList.trans (by simp; tauto)
  exact ⟨_, _, fresh, rfl, rfl, kept, rfl, rfl, reads _ _ _ _, ruled _ _ _, labels fresh 0,
    labels kept 0, ⟨t, ok⟩, found kept rfl rfl, again,
    (sets mentioned).mp (.of again)⟩

end Clearance
