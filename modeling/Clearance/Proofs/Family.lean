import Clearance.Proofs.Kept
import Clearance.Proofs.Labels
import Clearance.Proofs.Mentions

/-! A label and its clones, asked about again and again. What is kept in one of them makes no
difference to any answer: each answer is what the rules of the label come to for its text. -/
namespace Clearance

variable {σ : Type} {answer : String → Charset → Bool} {rules : Rules σ} {text : String}
  {tree : Tree}

/-- What a label may be asked for. -/
inductive Request where
  | tree
  | normalForm
  | mentions
  | keptTree

inductive Reply where
  | tree (tree : Tree)
  | normalForm (text : String)
  | mentions (held : Held)
  | keptTree (kept? : Option KeptTree)

/-- The label behind a request, and the reply. -/
def Label.serve (x : Label σ) (stamp : Nat) : Request → Run σ (Label σ × Reply)
  | .tree => do
    let (x, tree) ← x.keep stamp
    return (x, .tree tree)
  | .normalForm => do
    let (x, text) ← x.normalize stamp
    return (x, .normalForm text)
  | .mentions => do return (x, .mentions (← x.mentions))
  | .keptTree => return (x, .keptTree x.kept?)

/-- A label and its clones, in the order in which they were made. The number of calls so far stamps
the trees. -/
structure Family (σ : Type) where
  labels : List (Label σ)
  served : Nat := 0

/-- Something that is done with the label at a handle. -/
inductive Call where
  | ask (handle : Nat) (request : Request)
  | clone (handle : Nat)

namespace Family

/-- Serves a call. Where nothing is held at its handle there is nothing to serve. -/
def serve (f : Family σ) : Call → Run σ (Family σ × Option Reply)
  | .ask handle request =>
    match f.labels[handle]? with
    | some x => do
      let (x, reply) ← x.serve f.served request
      return ({ labels := f.labels.set handle x, served := f.served + 1 }, some reply)
    | none => return (f, none)
  | .clone handle =>
    return ({ labels := f.labels ++ f.labels[handle]?.toList, served := f.served + 1 }, none)

/-- Serves calls one after the other. -/
def serveAll (f : Family σ) : List Call → Run σ (Family σ)
  | [] => return f
  | call :: calls => do
    let (f, _) ← f.serve call
    f.serveAll calls

end Family

/-- The reply to a request that a label with this tree has, where `kept?` is kept. -/
def Request.reply (tree : Tree) (kept? : Option KeptTree) : Request → Reply
  | .tree => .tree tree
  | .normalForm => .normalForm tree.normalized
  | .mentions => .mentions (Held.ofList tree.values)
  | .keptTree => .keptTree kept?

/-- The reply to a call, where the labels have this tree. -/
def Call.reply? (tree : Tree) (f : Family σ) : Call → Option Reply
  | .ask handle request => f.labels[handle]?.map fun x => request.reply tree x.kept?
  | .clone _ => none

/-- A label of this text and these rules, which keeps this tree if it keeps any. -/
structure Label.Stands (rules : Rules σ) (text : String) (tree : Tree) (x : Label σ) : Prop where
  text_eq : x.text = text
  rules_eq : x.rules = rules
  kept : ∀ kept ∈ x.kept?, kept.tree = tree

/-- `y` keeps what `x` keeps, the very same tree. -/
def Label.Retains (x y : Label σ) : Prop := ∀ kept ∈ x.kept?, kept ∈ y.kept?

namespace Label.Stands

variable {x : Label σ}

theorem keep (stands : x.Stands rules text tree)
    (computes : rules.Computes (Text.Utf8.bytes text) tree) (stamp : Nat) (s : σ) :
    ∃ (y : Label σ) (t : σ), (x.keep stamp).on s = (.ok (y, tree), t) ∧
      y.Stands rules text tree ∧ x.Retains y := by
  obtain ⟨rfl, rfl, own⟩ := stands
  rw [Label.keep]
  cases present : x.kept? with
  | some kept =>
    obtain rfl := own kept present
    exact ⟨x, s, rfl, ⟨rfl, rfl, own⟩, fun _ => id⟩
  | none =>
    obtain ⟨t, parsed⟩ := computes.parse s
    refine ⟨{ x with kept? := some ⟨tree, stamp⟩ }, t, ?_, ⟨rfl, rfl, ?_⟩, ?_⟩
    · rw [Run.on_bind, Label.bytes, parsed]
      rfl
    · rintro _ ⟨⟩
      rfl
    · intro kept before
      rw [present] at before
      cases before

/-- The authorizations are the same whether a tree is kept or not. -/
theorem mentions (stands : x.Stands rules text tree)
    (computes : rules.Computes (Text.Utf8.bytes text) tree) :
    Run.Yields x.mentions (Held.ofList tree.values) := by
  obtain ⟨rfl, rfl, own⟩ := stands
  intro s
  cases present : x.kept? with
  | some kept =>
    obtain rfl := own kept present
    rw [Label.mentions, present]
    exact ⟨s, rfl⟩
  | none =>
    obtain ⟨t, visited⟩ := computes.visit s
    exact ⟨t, mentions_of_fresh present visited⟩

theorem serve (stands : x.Stands rules text tree)
    (computes : rules.Computes (Text.Utf8.bytes text) tree) (stamp : Nat) (request : Request)
    (s : σ) :
    ∃ (y : Label σ) (t : σ), (x.serve stamp request).on s = (.ok (y, request.reply tree x.kept?), t) ∧
      y.Stands rules text tree ∧ x.Retains y := by
  cases request with
  | tree =>
    obtain ⟨y, t, keeps, kept⟩ := stands.keep computes stamp s
    exact ⟨y, t, by rw [Label.serve, Run.on_bind, keeps]; rfl, kept⟩
  | normalForm =>
    obtain ⟨y, t, keeps, kept⟩ := stands.keep computes stamp s
    exact ⟨y, t, by rw [Label.serve, Label.normalize, bind_assoc, Run.on_bind, keeps]; rfl, kept⟩
  | mentions =>
    obtain ⟨t, mentioned⟩ := stands.mentions computes s
    exact ⟨x, t, by rw [Label.serve, Run.on_bind, mentioned]; rfl, stands, fun _ => id⟩
  | keptTree => exact ⟨x, s, rfl, stands, fun _ => id⟩

end Label.Stands

namespace Family

/-- Every label of the family has this text and these rules, and keeps no other tree. -/
def Stands (rules : Rules σ) (text : String) (tree : Tree) (f : Family σ) : Prop :=
  ∀ x ∈ f.labels, x.Stands rules text tree

/-- In `g` there is still every label of `f`, and what is kept there is still kept. -/
def Retains (f g : Family σ) : Prop :=
  ∀ (handle : Nat) (x : Label σ), f.labels[handle]? = some x →
    ∃ y : Label σ, g.labels[handle]? = some y ∧ x.Retains y

variable {f g h : Family σ}

theorem Retains.refl (f : Family σ) : f.Retains f :=
  fun _ x found => ⟨x, found, fun _ => id⟩

theorem Retains.trans (first : f.Retains g) (second : g.Retains h) : f.Retains h := by
  intro handle x found
  obtain ⟨y, found, kept⟩ := first handle x found
  obtain ⟨z, found, still⟩ := second handle y found
  exact ⟨z, found, fun tree before => still tree (kept tree before)⟩

/-- A label is replaced by one that keeps as much. -/
theorem retains_set {handle : Nat} {x y : Label σ} (found : f.labels[handle]? = some x)
    (kept : x.Retains y) (served : Nat) : f.Retains ⟨f.labels.set handle y, served⟩ := by
  intro other z there
  by_cases same : handle = other
  · subst same
    cases found.symm.trans there
    obtain ⟨inside, _⟩ := List.getElem?_eq_some_iff.mp found
    exact ⟨y, List.getElem?_set_self inside, kept⟩
  · exact ⟨z, (List.getElem?_set_ne same).trans there, fun _ => id⟩

theorem retains_append (f : Family σ) (more : List (Label σ)) (served : Nat) :
    f.Retains ⟨f.labels ++ more, served⟩ := by
  intro handle x found
  obtain ⟨inside, _⟩ := List.getElem?_eq_some_iff.mp found
  exact ⟨x, (List.getElem?_append_left inside).trans found, fun _ => id⟩

namespace Stands

/-- A call is answered by the rules and the text alone, and nothing that is kept is lost. -/
theorem serve (stands : f.Stands rules text tree)
    (computes : rules.Computes (Text.Utf8.bytes text) tree) (call : Call) (s : σ) :
    ∃ (g : Family σ) (t : σ), (f.serve call).on s = (.ok (g, call.reply? tree f), t) ∧
      g.Stands rules text tree ∧ f.Retains g := by
  cases call with
  | ask handle request =>
    cases found : f.labels[handle]? with
    | none =>
      refine ⟨f, s, ?_, stands, .refl f⟩
      rw [Family.serve, Call.reply?, found]
      rfl
    | some x =>
      obtain ⟨y, t, served, valid, kept⟩ :=
        (stands x (List.mem_of_getElem? found)).serve computes f.served request s
      refine ⟨_, t, ?_, ?_, retains_set found kept (f.served + 1)⟩
      · rw [Family.serve, Call.reply?, found]
        simp only [Run.on_bind, served]
        rfl
      · intro z member
        rcases List.mem_or_eq_of_mem_set member with before | rfl
        · exact stands z before
        · exact valid
  | clone handle =>
    refine ⟨_, s, rfl, ?_, f.retains_append _ _⟩
    intro z member
    rcases List.mem_append.mp member with before | copied
    · exact stands z before
    · exact stands z (List.mem_of_getElem? (Option.mem_toList.mp copied))

theorem serveAll (calls : List Call) : ∀ {f : Family σ}, f.Stands rules text tree →
    rules.Computes (Text.Utf8.bytes text) tree → ∀ s : σ,
      ∃ (g : Family σ) (t : σ), (f.serveAll calls).on s = (.ok g, t) ∧
        g.Stands rules text tree ∧ f.Retains g := by
  induction calls with
  | nil => exact fun {f} stands _ s => ⟨f, s, rfl, stands, .refl f⟩
  | cons call calls ih =>
    intro f stands computes s
    obtain ⟨g, t, served, valid, kept⟩ := stands.serve computes call s
    obtain ⟨h, u, later, stillValid, stillKept⟩ := ih valid computes t
    refine ⟨h, u, ?_, stillValid, kept.trans stillKept⟩
    rw [Family.serveAll, Run.on_bind, served]
    exact later

end Stands

end Family

open Grammar

namespace Label

theorem keep_same {x y : Label σ} {stamp : Nat} {s t : σ}
    (ok : (x.keep stamp).on s = (.ok (y, tree), t)) : y.text = x.text ∧ y.rules = x.rules := by
  rcases keep_cases ok with ⟨_, _, rfl, _⟩ | ⟨_, rfl⟩ <;> exact ⟨rfl, rfl⟩

namespace Made

variable {x : Label σ}

/-- The text of a label has passed its rules. -/
theorem passed (made : x.Made) : ∃ s t, (x.rules.validate x.bytes).on s = (.ok (), t) := by
  induction made with
  | ofText checked =>
    obtain ⟨_, _, valid, made⟩ := Run.on_bind_eq_ok.mp checked
    cases made
    exact ⟨_, _, valid⟩
  | @ofBytes rules bytes x s t checked =>
    rcases outcome : (rules.validate bytes).on s with ⟨fault | ⟨⟨⟩⟩, r⟩
    · cases (Rules.labelOfBytes_error outcome).symm.trans checked
    · obtain ⟨text, rfl, made⟩ := Rules.labelOfBytes_ok outcome
      cases made.symm.trans checked
      exact ⟨_, _, outcome⟩
  | kept _ keeps ih =>
    obtain ⟨text, rules⟩ := keep_same keeps
    rwa [bytes, text, rules]
  | normalized _ writes ih =>
    obtain ⟨_, keeps⟩ := normalize_ok writes
    obtain ⟨text, rules⟩ := keep_same keeps
    rwa [bytes, text, rules]

/-- A label stands by its text and its rules, whatever it keeps. -/
theorem stands (made : x.Made) (steady : x.rules.policy.Steady answer) :
    ∃ tree, x.rules.Computes x.bytes tree ∧ x.Stands x.rules x.text tree := by
  obtain ⟨s, _, valid⟩ := made.passed
  obtain ⟨tree, computes⟩ := Rules.exists_computes steady valid
  obtain ⟨_, parsed⟩ := computes.parse s
  exact ⟨tree, computes, rfl, rfl, fun kept present =>
    (made.keeps kept present).unique (Rules.isOf_of_parse parsed)⟩

/-- However a label and its clones have been used, each further call is answered by what the rules
of the label come to for its text, and nothing fails. Every tree that is kept is that of the text,
a clone keeps what its original does, and whatever is done later, what is kept stays. -/
theorem served_throughout (made : x.Made) (steady : x.rules.policy.Steady answer) :
    ∃ tree : Tree, x.rules.Computes x.bytes tree ∧
      ∀ (earlier : List Call) (call : Call) (later : List Call) (s : σ),
        ∃ (f g h : Family σ) (t u v : σ),
          (Family.serveAll { labels := [x] } earlier).on s = (.ok f, t) ∧
          (f.serve call).on t = (.ok (g, call.reply? tree f), u) ∧
          (g.serveAll later).on u = (.ok h, v) ∧
          f.Stands x.rules x.text tree ∧ f.Retains g ∧ g.Retains h ∧
          ∀ handle y, call = .clone handle → f.labels[handle]? = some y →
            g.labels[f.labels.length]? = some y := by
  obtain ⟨tree, computes, stands⟩ := made.stands steady
  refine ⟨tree, computes, fun earlier call later s => ?_⟩
  have first : Family.Stands x.rules x.text tree { labels := [x] } := by
    rintro _ (_ | ⟨_, ⟨⟩⟩)
    exact stands
  obtain ⟨f, t, before, validBefore, _⟩ := first.serveAll earlier computes s
  obtain ⟨g, u, served, valid, kept⟩ := validBefore.serve computes call t
  obtain ⟨h, v, after, _, stillKept⟩ := valid.serveAll later computes u
  refine ⟨f, g, h, t, u, v, before, served, after, validBefore, kept, stillKept, ?_⟩
  rintro handle y rfl found
  cases served
  simp [found]

/-- The label `B|(A&B)`: its tree is asked for, a clone is made, and the clone is asked for what
the label mentions. -/
theorem served_throughout_clone :
    let rules : Rules Nat := { policy? := some fun value _ n => (value ≠ "C", n + 1) }
    ∃ (x : Label Nat) (tree : Tree), x.Made ∧ x.text = "B|(A&B)" ∧ x.rules = rules ∧
      rules.Computes x.bytes tree ∧
      ∃ (f g h : Family Nat) (t u v : Nat),
        (Family.serveAll { labels := [x] } [.ask 0 .tree, .clone 0]).on 0 = (.ok f, t) ∧
        (f.serve (.ask 1 .mentions)).on t = (.ok (g, (Call.ask 1 .mentions).reply? tree f), u) ∧
        (g.serveAll [.ask 0 .normalForm]).on u = (.ok h, v) ∧
        f.Stands rules x.text tree ∧ f.Retains g ∧ g.Retains h := by
  intro rules
  let a : Word := .spell "A" (by decide)
  let b : Word := .spell "B" (by decide)
  let x : Expression :=
    .group .or (.word b) (.last (.enclosed (.group .and (.word a) (.last (.word b)))))
  have text : Text.Utf8.bytes "B|(A&B)" = x.text := by decide
  have steady : rules.policy.Steady (fun value _ => value ≠ "C") := fun _ _ _ => rfl
  have allowed : ∀ w ∈ [b, a, b], w.Allowed (fun value _ => value ≠ "C") := by
    rw [List.forall_mem_cons, List.forall_mem_cons, List.forall_mem_singleton]
    exact ⟨Word.allowed_spell _ rfl, Word.allowed_spell _ rfl, Word.allowed_spell _ rfl⟩
  obtain ⟨r, valid⟩ := rules.validate_yields (x := x) steady (by decide) allowed 0
  let fresh : Label Nat := { text := "B|(A&B)", rules }
  have checked : (rules.label "B|(A&B)").on 0 = (.ok fresh, r) := by
    rw [Rules.label, text, Run.on_bind, valid]
    rfl
  obtain ⟨tree, computes, served⟩ := served_throughout (.ofText checked) steady
  obtain ⟨f, g, h, t, u, v, before, replied, after, stands, kept, stillKept, _⟩ :=
    served [.ask 0 .tree, .clone 0] (.ask 1 .mentions) [.ask 0 .normalForm] 0
  exact ⟨fresh, tree, .ofText checked, rfl, rfl, computes, f, g, h, t, u, v, before, replied, after,
    stands, kept, stillKept⟩

end Made

end Label

end Clearance
