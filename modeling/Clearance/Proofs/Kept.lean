import Clearance.Proofs.Inquiries
import Clearance.Proofs.Steady

/-! A label with its tree kept is decided from the tree, by a walk of its own. The walk asks what
the reading of the text asks, in the same order, and so comes to the same outcome. -/
namespace Clearance

variable {σ : Type}

/-- The part behind a part of a stretch of a text. -/
theorem prefix_drop_append {α : Type} {as bs label : List α} {offset : Nat}
    (stands : as ++ bs <+: label.drop offset) :
    as <+: label.drop offset ∧ bs <+: label.drop (offset + as.length) := by
  obtain ⟨rest, split⟩ := stands
  rw [List.append_assoc] at split
  refine ⟨⟨bs ++ rest, split⟩, ⟨rest, ?_⟩⟩
  rw [← List.drop_drop, ← split, List.drop_left]

theorem slice_of_prefix_drop {α : Type} {as label : List α} {offset : Nat}
    (stands : as <+: label.drop offset) :
    (Span.mk offset (offset + as.length)).slice label = as := by
  obtain ⟨rest, split⟩ := stands
  rw [Span.slice, Span.length, Nat.add_sub_cancel_left, ← split, List.take_left]

namespace Grammar

/-- The body of a leaf is that of the word it was read from. -/
theorem Word.leafBody_eq (w : Word) {label : List UInt8} {offset : Nat}
    (stands : w.text <+: label.drop offset) :
    Tree.leafBody label ⟨offset, offset + w.text.length⟩ w.isQuoted = w.body := by
  rw [Tree.leafBody, slice_of_prefix_drop stands]
  cases w with
  | bare => rfl
  | quoted body _ _ => simp [isQuoted, text, Word.body]

section

variable (policy : Policy σ) (lookup : Lookup σ) {label : List UInt8}

mutual

/-- The walk over the tree of an expression is the reading of the expression. -/
theorem Expression.decide_tree : ∀ (x : Expression) (live : Bool) (offset : Nat),
    x.text <+: label.drop offset → (∀ w ∈ x.words, w.value? = some w.value) →
      (x.tree offset).decide policy lookup label live =
        x.replay (.deciding policy lookup) live offset
  | .single t, live, offset, stands, text => t.decide_tree live offset stands text
  | .group op first others, live, offset, stands, text => by
    obtain ⟨firstStands, othersStand⟩ := prefix_drop_append stands
    obtain ⟨firstText, othersText⟩ := List.forall_mem_append.mp text
    rw [Expression.tree, Tree.decide, Tree.decideMembers, op.undecided_unit, Bool.and_true,
      first.decide_tree live offset firstStands firstText]
    apply bind_congr
    intro b
    show _ = others.replay (.deciding policy lookup) live (offset + first.text.length) (op, b) >>=
      fun group => pure group.2
    rw [op.unit_join, others.decide_trees op live _ b othersStand othersText, bind_map_left]
    exact (bind_pure _).symm

theorem Term.decide_tree : ∀ (t : Term) (live : Bool) (offset : Nat),
    t.text <+: label.drop offset → (∀ w ∈ t.words, w.value? = some w.value) →
      (t.tree offset).decide policy lookup label live =
        t.replay (.deciding policy lookup) live offset
  | .word w, live, offset, stands, text => by
    have charset : (if w.isQuoted then .any else .basic) = w.charset := rfl
    rw [Term.tree, Tree.decide, w.leafBody_eq stands, charset,
      ← Word.accept_of_value (text w List.mem_cons_self) policy offset]
    rfl
  | .enclosed x, live, offset, stands, text => by
    have split : [openByte] ++ (x.text ++ [closeByte]) <+: label.drop offset := stands
    have inner := (prefix_drop_append (prefix_drop_append split).2).1
    exact x.decide_tree live (offset + 1) inner text

theorem Members.decide_trees (op : Connective) : ∀ (ms : Members) (live : Bool) (offset : Nat)
    (sofar : Bool), ms.text op <+: label.drop offset →
      (∀ w ∈ ms.words, w.value? = some w.value) →
      ms.replay (.deciding policy lookup) live offset (op, sofar) =
        (fun b => (op, b)) <$>
          Tree.decideMembers policy lookup label live op sofar (ms.trees offset)
  | .last t, live, offset, sofar, stands, text => by
    have split : [op.byte] ++ t.text <+: label.drop offset := stands
    have member := t.decide_tree (live && op.undecided sofar) (offset + 1)
      (prefix_drop_append split).2 text
    rw [Members.replay_last rfl, Members.trees, Tree.decideMembers, member, map_bind]
    rfl
  | .more t others, live, offset, sofar, stands, text => by
    have split : [op.byte] ++ (t.text ++ others.text op) <+: label.drop offset := stands
    obtain ⟨stands, othersStand⟩ := prefix_drop_append (prefix_drop_append split).2
    obtain ⟨text, othersText⟩ := List.forall_mem_append.mp text
    have member := t.decide_tree (live && op.undecided sofar) (offset + 1) stands text
    rw [Members.replay_more, Members.replay_last rfl, bind_assoc, Members.trees,
      Tree.decideMembers, member, map_bind]
    exact bind_congr fun b =>
      others.decide_trees op live _ (op.join sofar b) othersStand othersText

end

end

end Grammar

open Grammar

/-- The labels that there are: each has been checked by some rules, from whatever state, and its
tree may have been kept since. -/
inductive Label.Made : Label σ → Prop where
  | ofText {rules : Rules σ} {text : String} {x : Label σ} {s t : σ}
      (checked : (rules.label text).on s = (.ok x, t)) : Made x
  | ofBytes {rules : Rules σ} {bytes : List UInt8} {x : Label σ} {s t : σ}
      (checked : (rules.labelOfBytes bytes).on s = (.ok x, t)) : Made x
  | kept {x y : Label σ} {stamp : Nat} {tree : Tree} {s t : σ} (made : Made x)
      (keeps : (x.keep stamp).on s = (.ok (y, tree), t)) : Made y
  | normalized {x y : Label σ} {stamp : Nat} {text : String} {s t : σ} (made : Made x)
      (writes : (x.normalize stamp).on s = (.ok (y, text), t)) : Made y

namespace Label

/-- The tree that a label keeps is its own. -/
def Keeps (x : Label σ) : Prop := ∀ kept, x.kept? = some kept → kept.tree.IsOf x.bytes

/-- What keeping a tree can come to: the one that was kept, or one that is built from the text. -/
theorem keep_cases {x y : Label σ} {stamp : Nat} {tree : Tree} {s t : σ}
    (ok : (x.keep stamp).on s = (.ok (y, tree), t)) :
    (∃ kept, x.kept? = some kept ∧ y = x ∧ tree = kept.tree) ∨
      (x.rules.parse x.bytes).on s = (.ok tree, t) ∧
        y = { x with kept? := some ⟨tree, stamp⟩ } := by
  rw [keep] at ok
  cases present : x.kept? with
  | some kept =>
    rw [present] at ok
    cases ok
    exact Or.inl ⟨kept, rfl, rfl, rfl⟩
  | none =>
    rw [present] at ok
    obtain ⟨_, _, parsed, made⟩ := Run.on_bind_eq_ok.mp ok
    cases made
    exact Or.inr ⟨parsed, rfl⟩

theorem normalize_ok {x y : Label σ} {stamp : Nat} {text : String} {s t : σ}
    (ok : (x.normalize stamp).on s = (.ok (y, text), t)) :
    ∃ tree, (x.keep stamp).on s = (.ok (y, tree), t) := by
  obtain ⟨⟨z, tree⟩, _, keeps, made⟩ := Run.on_bind_eq_ok.mp ok
  cases made
  exact ⟨tree, keeps⟩

theorem keep_ok {x y : Label σ} {stamp : Nat} {tree : Tree} {s t : σ} (keeps : x.Keeps)
    (ok : (x.keep stamp).on s = (.ok (y, tree), t)) : y.Keeps := by
  rcases keep_cases ok with ⟨_, _, rfl, _⟩ | ⟨parsed, rfl⟩
  · exact keeps
  · intro kept same
    cases same
    exact Rules.isOf_of_parse parsed

theorem Made.keeps {x : Label σ} (made : x.Made) : x.Keeps := by
  have fresh : ∀ {text : String} {rules : Rules σ}, Keeps { text, rules } := by
    intro text rules kept present
    cases present
  induction made with
  | ofText checked =>
    obtain ⟨_, _, _, made⟩ := Run.on_bind_eq_ok.mp checked
    cases made
    exact fresh
  | ofBytes checked =>
    obtain ⟨_, _, _, made⟩ := Run.on_bind_eq_ok.mp checked
    split at made <;> cases made
    exact fresh
  | kept _ keeps ih => exact keep_ok ih keeps
  | normalized _ writes ih =>
    obtain ⟨_, keeps⟩ := normalize_ok writes
    exact keep_ok ih keeps

end Label

namespace Gate

variable (gate : Gate σ) {label : List UInt8} {tree : Tree}

/-- One walk over a tree of a label, with any lookup, is one reading of the label. -/
theorem walk_eq_reading (policy : Policy σ) (lookup : Lookup σ) {limit : UInt32}
    (isOf : tree.IsOf label) (within : nesting label ≤ limit.toNat) :
    tree.decide policy lookup label true =
      (Interpretation.deciding policy lookup).read limit label := by
  rcases isOf with ⟨rfl, rfl⟩ | ⟨x, rfl, rfl, text⟩
  · rfl
  · rw [nesting_text] at within
    rw [read_text x within]
    exact x.decide_tree policy lookup true 0 (List.prefix_refl _) text

theorem decideTree_eq_decide (isOf : tree.IsOf label)
    (within : nesting label ≤ gate.rules.limit.toNat) :
    gate.decideTree label tree = gate.decide label := by
  rw [decideTree, decide]
  exact congrArg gate.grants.decide (funext fun lookup =>
    walk_eq_reading gate.rules.policy lookup isOf within)

/-- A label that nests within the limit of a gate is decided as its text is, whether its tree is kept
or not. -/
theorem decideLabel_eq_decide {x : Label σ} (made : x.Made)
    (within : nesting x.bytes ≤ gate.rules.limit.toNat) :
    gate.decideLabel x = gate.decide x.bytes := by
  cases present : x.kept? with
  | none => rw [decideLabel, present]
  | some kept =>
    rw [decideLabel, present]
    exact gate.decideTree_eq_decide (made.keeps kept present) within

theorem decideTreeNoting_eq_decideNoting (isOf : tree.IsOf label)
    (within : nesting label ≤ gate.rules.limit.toNat) :
    gate.decideTreeNoting label tree = gate.decideNoting label := by
  rw [decideTreeNoting, decideNoting]
  exact congrArg gate.grants.beside.decide (funext fun lookup =>
    walk_eq_reading gate.rules.policy.noted lookup.noted isOf within)

/-- Where the gate lets the label nest as deep as it does, its kept tree makes no difference:
not to the outcome, not to the state behind it, and not to what is asked on the way. -/
theorem decideLabel_kept {x : Label σ} (made : x.Made) (keeps : x.kept?.isSome = true)
    (within : nesting x.bytes ≤ gate.rules.limit.toNat) (s : σ) :
    ∃ outcome t log, (gate.decideLabel x).on s = (outcome, t) ∧
      (gate.decide x.bytes).on s = (outcome, t) ∧
      (gate.decideLabelNoting x).on (s, []) = (outcome, (t, log)) ∧
      (gate.decideNoting x.bytes).on (s, []) = (outcome, (t, log)) := by
  obtain ⟨kept, present⟩ := Option.isSome_iff_exists.mp keeps
  have isOf := made.keeps kept present
  have plain : gate.decideLabel x = gate.decide x.bytes := by
    rw [decideLabel, present]
    exact gate.decideTree_eq_decide isOf within
  have noting : gate.decideLabelNoting x = gate.decideNoting x.bytes := by
    rw [decideLabelNoting, present]
    exact gate.decideTreeNoting_eq_decideNoting isOf within
  obtain ⟨log, noted⟩ := gate.decideNoting_covers x.bytes s []
  refine ⟨((gate.decide x.bytes).on s).1, ((gate.decide x.bytes).on s).2, log, ?_⟩
  rw [plain, noting, noted]
  exact ⟨rfl, rfl, rfl, rfl⟩

/-- The label `(A)|B`, kept by rules that allow every value, before a gate that refuses `B` and an
authority whose answers alternate. -/
theorem decideLabel_kept_alternating :
    let rules : Rules Nat := { policy? := some fun _ _ n => (true, n + 1) }
    let gate : Gate Nat :=
      ⟨{ limit := 1, policy? := some fun value _ n => (value ≠ "B", n) },
        .authority fun _ n => (n % 2 == 1, n + 1)⟩
    ∃ (made : Label Nat) (kept : KeptTree), made.Made ∧ made.text = "(A)|B" ∧
      made.rules = rules ∧ made.kept? = some kept ∧ nesting made.bytes ≤ gate.rules.limit.toNat ∧
      ∃ outcome t log, (gate.decideLabel made).on 0 = (outcome, t) ∧
        (gate.decide made.bytes).on 0 = (outcome, t) ∧
        (gate.decideLabelNoting made).on (0, []) = (outcome, (t, log)) ∧
        (gate.decideNoting made.bytes).on (0, []) = (outcome, (t, log)) := by
  intro rules gate
  let a : Word := .spell "A" (by decide)
  let b : Word := .spell "B" (by decide)
  let x : Expression := .group .or (.enclosed (.single (.word a))) (.last (.word b))
  have text : Text.Utf8.bytes "(A)|B" = x.text := by decide
  have steady : rules.policy.Steady (fun _ _ => true) := fun _ _ _ => rfl
  have allowed : ∀ w ∈ [a, b], w.Allowed (fun _ _ => true) := by
    rw [List.forall_mem_cons, List.forall_mem_singleton]
    exact ⟨Word.allowed_spell _ rfl, Word.allowed_spell _ rfl⟩
  have shallow : x.depth ≤ rules.limit.toNat := by decide
  let fresh : Label Nat := { text := "(A)|B", rules }
  let made : Label Nat := { fresh with kept? := some ⟨x.tree 0, 7⟩ }
  obtain ⟨r, valid⟩ := Rules.validate_yields steady shallow allowed 0
  have checked : (rules.label "(A)|B").on 0 = (.ok fresh, r) := by
    rw [Rules.label, text, Run.on_bind, valid]
    rfl
  obtain ⟨u, parsed⟩ := Rules.parse_yields steady shallow allowed r
  have keeps : (fresh.keep 7).on r = (.ok (made, x.tree 0), u) := by
    have bytes : fresh.bytes = x.text := text
    rw [Label.keep, bytes]
    show (rules.parse x.text >>= _).on r = _
    rw [Run.on_bind, parsed]
    rfl
  have within : nesting made.bytes ≤ gate.rules.limit.toNat := by
    have bytes : made.bytes = x.text := text
    rw [bytes, nesting_text]
    decide
  exact ⟨made, _, .kept (.ofText checked) keeps, rfl, rfl, rfl, within,
    gate.decideLabel_kept (.kept (.ofText checked) keeps) rfl within 0⟩

end Gate

end Clearance
