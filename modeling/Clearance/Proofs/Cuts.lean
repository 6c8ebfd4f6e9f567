import Clearance.Gate
import Clearance.Proofs.Faults
import Clearance.Proofs.Frontier
import Clearance.Proofs.Steady

/-! The nesting limit only ever cuts. Readings by a lower and by a higher limit go through the same
parts, until the lower one is cut off at a parenthesis that the higher one goes on behind. It is the
first that opens a level beyond the lower limit. -/
namespace Clearance

variable {σ τ ν γ α β : Type} {cut : Fault → Prop}

/-- From each state the first run ends as the second does, or is cut off. -/
def Run.CutFrom (cut : Fault → Prop) (x y : Run σ α) : Prop :=
  ∀ s, x.on s = y.on s ∨ ∃ fault t, x.on s = (.error fault, t) ∧ cut fault

namespace Run

theorem CutFrom.refl (x : Run σ α) : CutFrom cut x x := fun _ => Or.inl rfl

theorem cutFrom_throw {fault : Fault} (cuts : cut fault) (y : Run σ α) :
    CutFrom cut (throw fault) y :=
  fun s => Or.inr ⟨fault, s, rfl, cuts⟩

theorem CutFrom.bind {x y : Run σ α} {f g : α → Run σ β} (first : CutFrom cut x y)
    (second : ∀ a, CutFrom cut (f a) (g a)) : CutFrom cut (x >>= f) (y >>= g) := by
  intro s
  rw [on_bind, on_bind]
  rcases first s with same | ⟨fault, t, failed, cuts⟩
  · rw [same]
    rcases y.on s with ⟨fault | a, t⟩
    · exact Or.inl rfl
    · exact second a t
  · rw [failed]
    exact Or.inr ⟨fault, t, rfl, cuts⟩

end Run

/-- The fault of a label that nests too deep, at some place. -/
def Fault.IsTooDeep (limit : UInt32) (label : List UInt8) (fault : Fault) : Prop :=
  ∃ p, fault = .tooDeep limit (Text.Utf8.decodeLossy label) p

namespace Interpretation

variable {label : List UInt8} {limit limit' : UInt32}

mutual

/-- The descent makes the same calls by a higher limit, up to where it is cut off. -/
theorem expression_cut (i : Interpretation σ ν γ) (le : limit ≤ limit') (live : Bool)
    (depth : UInt32) (c : Cursor label) : Run.CutFrom (Fault.IsTooDeep limit label)
      (i.expression limit live depth c) (i.expression limit' live depth c) := by
  rw [expression, expression]
  refine (term_cut i le live depth c).bind fun first => ?_
  have shorter := first.rest_lt
  cases first.next.connective? with
  | none => exact .refl _
  | some op =>
    exact (Run.CutFrom.refl _).bind fun group =>
      siblings_cut i le live depth op group first.span c first.next first.rest_lt
termination_by 2 * c.rest.length + 1
decreasing_by all_goals omega

theorem siblings_cut (i : Interpretation σ ν γ) (le : limit ≤ limit') (live : Bool)
    (depth : UInt32) (op : Connective) (group : γ) (span : Span) (opening c : Cursor label)
    (after : c.rest.length < opening.rest.length) : Run.CutFrom (Fault.IsTooDeep limit label)
      (i.siblings limit live depth op group span opening c after)
      (i.siblings limit' live depth op group span opening c after) := by
  rw [siblings, siblings]
  by_cases more : c.peek = some op.byte
  · have shorter := c.rest_advance_lt more Nat.one_pos
    rw [dif_pos more, dif_pos more]
    refine (Run.CutFrom.refl _).bind fun memberLive =>
      (term_cut i le memberLive depth (c.advance 1)).bind fun member =>
        (Run.CutFrom.refl _).bind fun group => ?_
    have := member.rest_lt
    exact siblings_cut i le live depth op group (span.merge member.span) opening member.next _
  · rw [dif_neg more, dif_neg more]
    exact .refl _
termination_by 2 * c.rest.length
decreasing_by all_goals omega

theorem term_cut (i : Interpretation σ ν γ) (le : limit ≤ limit') (live : Bool)
    (depth : UInt32) (c : Cursor label) : Run.CutFrom (Fault.IsTooDeep limit label)
      (i.term limit live depth c) (i.term limit' live depth c) := by
  rw [term, term]
  by_cases nested : c.peek = some openByte
  · have shorter := c.rest_advance_lt nested Nat.one_pos
    rw [dif_pos nested, dif_pos nested]
    -- Nowhere else does the descent look at the limit.
    by_cases full : depth ≥ limit
    · rw [if_pos full]
      exact Run.cutFrom_throw ⟨c.offset, rfl⟩ _
    · have room : ¬ depth ≥ limit' := fun beyond => full (UInt32.le_trans le beyond)
      rw [if_neg full, if_neg room]
      exact (expression_cut i le live (depth + 1) (c.advance 1)).bind fun inner => .refl _
  · rw [dif_neg nested, dif_neg nested]
    exact .refl _
termination_by 2 * c.rest.length
decreasing_by omega

end

/-- A reading by a higher limit ends as it does by a lower one, unless that is cut off. -/
theorem read_cut (i : Interpretation σ ν γ) (le : limit ≤ limit') (label : List UInt8) :
    Run.CutFrom (Fault.IsTooDeep limit label) (i.read limit label) (i.read limit' label) := by
  rw [read, read]
  by_cases ended : (Cursor.start label).atEnd = true
  · simp only [if_pos ended]
    exact .refl _
  · simp only [if_neg ended]
    exact (expression_cut i le true 0 (Cursor.start label)).bind fun whole => .refl _

end Interpretation

namespace Grammar

/-- Whatever follows, a text nests as deep as parentheses are open behind a part of it. -/
theorem Standing.depth_le_nestingFrom (rest : List UInt8) : ∀ (bs : List UInt8) (depth : Nat)
    (place : Place), (Standing.run ⟨depth, place⟩ bs).depth ≤ nestingFrom depth place (bs ++ rest)
  | [], depth, place => le_nestingFrom rest depth place
  | b :: bs, depth, place => by
    have later := depth_le_nestingFrom rest bs
    rw [run_cons, List.cons_append]
    -- Outside quotes a byte can open them, open or close a parenthesis, or leave all as it is.
    cases place <;> simp only [step, nestingFrom]
    · split
      · exact later depth .inside
      split
      · exact later (depth + 1) .outside
      split
      · exact Nat.le_trans (later (depth - 1) .outside) (Nat.le_max_right _ _)
      · exact later depth .outside
    · split
      · exact later depth .outside
      split <;> exact later depth _
    · exact later depth .inside

/-- At `p` a parenthesis opens outside quotes, with `depth` of them open before. -/
structure OpensBeyond (label : List UInt8) (depth p : Nat) : Prop where
  opens : label[p]? = some openByte
  standing_eq : standing (label.take p) = ⟨depth, .outside⟩

/-- No parenthesis opens beyond the limit in what could become an expression within it. -/
theorem Viable.lt_of_opensBeyond {label : List UInt8} {limit depth p q : Nat}
    (viable : Viable limit (label.take q)) (before : p < q) (opens : OpensBeyond label depth p) :
    depth < limit := by
  have further : label.take (p + 1) = label.take p ++ [openByte] := by
    rw [List.take_add_one, opens.opens]
    rfl
  obtain ⟨rest, _, within⟩ := viable.of_prefix (List.take_prefix_take_left before)
  have nests := Standing.depth_le_nestingFrom rest (label.take (p + 1)) 0 .outside
  have deeper : standing (label.take (p + 1)) = ⟨depth + 1, .outside⟩ := by
    rw [further, standing_append, opens.standing_eq]
    rfl
  rw [show Standing.run ⟨0, .outside⟩ (label.take (p + 1)) = _ from deeper] at nests
  exact Nat.le_trans nests within

end Grammar

open Grammar

/-- What a reading can fail with of which nothing but tokens is ever refused. -/
inductive Fault.Arises (limit : UInt32) (label : List UInt8) : Fault → Prop where
  | refused (value : String) : Arises limit label (.refused value)
  | stopped {fault : Fault} (obstacle : Obstacle limit label fault) : Arises limit label fault

/-- A label is found to nest too deep at the first parenthesis that opens beyond the limit. None
before it opens beyond any higher one. -/
theorem Fault.Arises.tooDeep {limit bound : UInt32} {label : List UInt8} {text : String} {p : Nat}
    (arises : Fault.Arises limit label (.tooDeep bound text p)) :
    bound = limit ∧ text = Text.Utf8.decodeLossy label ∧ OpensBeyond label limit.toNat p ∧
      ∀ {depth n : Nat}, OpensBeyond label depth n → limit.toNat ≤ depth → p ≤ n := by
  obtain ⟨⟩ | ⟨⟨due, opens⟩⟩ := arises
  refine ⟨rfl, rfl, ⟨(Cursor.getElem?_offset _).trans opens, due.standing_eq⟩, ?_⟩
  intro depth n beyond le
  refine Nat.le_of_not_lt fun before => ?_
  exact Nat.not_lt.mpr le (due.viable.lt_of_opensBeyond before beyond)

/-- The lower limit only ever cuts: from each state the first run, by the lower limit, ends as the
second does by the higher one, or with the first parenthesis that opens beyond the lower limit. -/
structure Run.OnlyCuts (limit limit' : UInt32) (label : List UInt8) (x y : Run σ α) : Prop where
  same_or_cut (s : σ) : x.on s = y.on s ∨ ∃ p t,
    x.on s = (.error (.tooDeep limit (Text.Utf8.decodeLossy label) p), t) ∧
      IsLeast {p | OpensBeyond label limit.toNat p} p
  same_of_ok {s t : σ} {a : α} (ok : x.on s = (.ok a, t)) : y.on s = (.ok a, t)
  cut_of_tooDeep {s t : σ} {bound : UInt32} {text : String} {p : Nat}
    (tooDeep : y.on s = (.error (.tooDeep bound text p), t)) : bound = limit' ∧
      IsLeast {p | OpensBeyond label limit'.toNat p} p ∧ ∃ q u, q ≤ p ∧
        x.on s = (.error (.tooDeep limit (Text.Utf8.decodeLossy label) q), u)

theorem Run.CutFrom.onlyCuts {limit limit' : UInt32} {label : List UInt8} {x y : Run σ α}
    (le : limit ≤ limit') (cut : CutFrom (Fault.IsTooDeep limit label) x y)
    (fails : FailsBy (Fault.Arises limit label) x)
    (fails' : FailsBy (Fault.Arises limit' label) y) : OnlyCuts limit limit' label x y where
  same_or_cut s := by
    rcases cut s with same | ⟨_, t, failed, p, rfl⟩
    · exact Or.inl same
    · obtain ⟨_, _, opens, first⟩ := (fails s _ (fault?_eq_some.mpr ⟨t, failed⟩)).tooDeep
      exact Or.inr ⟨p, t, failed, opens, fun n beyond => first beyond (Nat.le_refl _)⟩
  same_of_ok := by
    intro s t a ok
    rcases cut s with same | ⟨_, _, failed, _⟩
    · exact same.symm.trans ok
    · cases ok.symm.trans failed
  cut_of_tooDeep := by
    intro s t bound text p tooDeep
    obtain ⟨rfl, rfl, opens, first⟩ := (fails' s _ (fault?_eq_some.mpr ⟨t, tooDeep⟩)).tooDeep
    refine ⟨rfl, ⟨opens, fun n beyond => first beyond (Nat.le_refl _)⟩, ?_⟩
    rcases cut s with same | ⟨_, u, failed, q, rfl⟩
    · have failed := same.trans tooDeep
      obtain ⟨rfl, _⟩ := (fails s _ (fault?_eq_some.mpr ⟨t, failed⟩)).tooDeep
      exact ⟨p, t, Nat.le_refl p, failed⟩
    · obtain ⟨_, _, _, first⟩ := (fails s _ (fault?_eq_some.mpr ⟨u, failed⟩)).tooDeep
      exact ⟨q, u, first opens (UInt32.le_iff_toNat_le.mp le), failed⟩

namespace Grants

variable {f g : Lookup σ → Run σ Bool} {allowed : Fault → Prop}

theorem decideSets_cut (each : ∀ lookup, Run.CutFrom cut (f lookup) (g lookup)) :
    ∀ sets, Run.CutFrom cut (decideSets f sets) (decideSets g sets)
  | [] => .refl _
  | set :: more => (each (.inSet set)).bind fun opens => by
    cases opens with
    | true => exact decideSets_cut each more
    | false => exact .refl _

theorem decide_cut (each : ∀ lookup, Run.CutFrom cut (f lookup) (g lookup)) (grants : Grants σ) :
    Run.CutFrom cut (grants.decide f) (grants.decide g) := by
  cases grants with
  | sets all => exact decideSets_cut each all
  | authority ask => exact each _

theorem decideSets_failsBy (each : ∀ lookup, Run.FailsBy allowed (f lookup)) :
    ∀ sets, Run.FailsBy allowed (decideSets f sets)
  | [] => Run.failsBy_pure true
  | set :: more => (each (.inSet set)).bind fun opens => by
    cases opens with
    | true => exact decideSets_failsBy each more
    | false => exact Run.failsBy_pure false

theorem decide_failsBy (each : ∀ lookup, Run.FailsBy allowed (f lookup)) (grants : Grants σ) :
    Run.FailsBy allowed (grants.decide f) := by
  cases grants with
  | sets all => exact decideSets_failsBy each all
  | authority ask => exact each _

end Grants

theorem Interpretation.deciding_failsBy {allowed : Fault → Prop}
    (refused : ∀ value, allowed (.refused value)) (policy : Policy σ) (lookup : Lookup σ) :
    (deciding policy lookup).FailsBy allowed where
  empty := Run.failsBy_pure true
  leaf token live := (policy.accept_failsBy refused token).bind fun value => by
    cases live with
    | true => exact Run.failsBy_lift (lookup value token.body)
    | false => exact Run.failsBy_pure false
  finish _ _ := Run.failsBy_pure _

namespace Rules

/-- Whatever is made of a label by rules that differ in their limits alone, the lower limit only
ever cuts. -/
structure OnlyCuts (limit limit' : UInt32) (policy? : Option (Policy σ))
    (categories : Text.Categories) (label : List UInt8) : Prop where
  validate : Run.OnlyCuts limit limit' label (Rules.validate ⟨limit, policy?, categories⟩ label)
    (Rules.validate ⟨limit', policy?, categories⟩ label)
  visit {τ : Type} (collect : String → τ → τ) : Run.OnlyCuts limit limit' label
    (Rules.visit ⟨limit, policy?, categories⟩ label collect)
    (Rules.visit ⟨limit', policy?, categories⟩ label collect)
  parse : Run.OnlyCuts limit limit' label (Rules.parse ⟨limit, policy?, categories⟩ label)
    (Rules.parse ⟨limit', policy?, categories⟩ label)
  decide (grants : Grants σ) : Run.OnlyCuts limit limit' label
    (Gate.decide ⟨⟨limit, policy?, categories⟩, grants⟩ label)
    (Gate.decide ⟨⟨limit', policy?, categories⟩, grants⟩ label)

variable {limit limit' : UInt32}

/-- A reading whose parts only refuse tokens. -/
theorem onlyCuts_read {i : Interpretation σ ν γ} (le : limit ≤ limit')
    (fails : ∀ {allowed : Fault → Prop}, (∀ value, allowed (.refused value)) → i.FailsBy allowed)
    (label : List UInt8) :
    Run.OnlyCuts limit limit' label (i.read limit label) (i.read limit' label) :=
  (i.read_cut le label).onlyCuts le ((fails .refused).read fun _ => .stopped)
    ((fails .refused).read fun _ => .stopped)

/-- The nesting limit only ever cuts: whatever is made of a label by the lower limit comes to what
it comes to by the higher one, or fails at the first parenthesis that opens beyond the lower
limit. -/
theorem limit_only_cuts (le : limit ≤ limit') (policy? : Option (Policy σ))
    (categories : Text.Categories) (label : List UInt8) :
    OnlyCuts limit limit' policy? categories label where
  validate := onlyCuts_read le (fun refused => Interpretation.checking_failsBy refused _) label
  visit collect :=
    onlyCuts_read le (fun refused => Interpretation.visiting_failsBy refused _ collect) label
  parse := onlyCuts_read le (fun refused => Interpretation.building_failsBy refused _) label
  decide grants := by
    have fails : ∀ (limit : UInt32) (lookup : Lookup σ), Run.FailsBy (Fault.Arises limit label)
        ((Interpretation.deciding (policy?.getD (.standard categories)) lookup).read limit label) :=
      fun _ lookup => (Interpretation.deciding_failsBy .refused _ lookup).read fun _ => .stopped
    exact (Grants.decide_cut (fun lookup => Interpretation.read_cut _ le label) grants).onlyCuts le
      (Grants.decide_failsBy (fails limit) grants) (Grants.decide_failsBy (fails limit') grants)

/-- The label `A|(B)` passes where one parenthesis may be open, and is cut off at it where none
may. -/
theorem limit_only_cuts_parenthesis :
    let label : List UInt8 := [0x41, 0x7C, 0x28, 0x42, 0x29]
    let flat : Rules Unit := { limit := 0 }
    let nested : Rules Unit := { limit := 1 }
    flat.limit ≤ nested.limit ∧
      OnlyCuts flat.limit nested.limit flat.policy? flat.categories label ∧
      (∃ t, (nested.validate label).on () = (.ok (), t)) ∧
      IsLeast {p | OpensBeyond label 0 p} 2 ∧
      ∃ t, (flat.validate label).on () =
        (.error (.tooDeep 0 (Text.Utf8.decodeLossy label) 2), t) := by
  intro label flat nested
  let a : Word := .spell "A" (by decide)
  let b : Word := .spell "B" (by decide)
  let x : Expression := .group .or (.word a) (.last (.enclosed (.single (.word b))))
  have text : label = x.text := by decide
  have steady : nested.policy.Steady (isOrdinary nested.categories) := fun _ _ _ => rfl
  have allowed : ∀ w ∈ x.words, w.Allowed (isOrdinary nested.categories) := by
    show ∀ w ∈ [a, b], _
    rw [List.forall_mem_cons, List.forall_mem_singleton]
    exact ⟨Word.allowed_spell _ rfl, Word.allowed_spell _ rfl⟩
  obtain ⟨t, passes⟩ := nested.validate_yields steady (by decide) allowed ()
  rw [← text] at passes
  have first : IsLeast {p | OpensBeyond label 0 p} 2 := by
    refine ⟨⟨rfl, rfl⟩, fun n beyond => ?_⟩
    match n with
    | 0 | 1 => cases beyond.opens
    | n + 2 => exact Nat.le_add_left 2 n
  have le : flat.limit ≤ nested.limit := by decide
  have cuts := limit_only_cuts le flat.policy? flat.categories label
  refine ⟨le, cuts, ⟨t, passes⟩, first, ?_⟩
  rcases cuts.validate.same_or_cut () with same | ⟨p, u, failed, least⟩
  · rcases flat.validate_ok (same.trans passes) with empty | ⟨y, read, within, _⟩
    · exact absurd empty (List.cons_ne_nil _ _)
    · rw [← nesting_text, read] at within
      exact absurd within (by decide)
  · obtain rfl : p = 2 := Nat.le_antisymm (least.2 first.1) (first.2 least.1)
    exact ⟨u, failed⟩

end Rules

end Clearance
