import Clearance.Proofs.Descent

/-! Readings of whole labels. Every label has an outline that fixes what any interpretation is
handed; it is complete exactly if the label is derivable and nests within the limit, and where it
is not complete, something stops the reading. -/
namespace Clearance.Grammar

variable {σ ν γ α : Type} {label : List UInt8}

theorem connective?_of_ends {c : Cursor label} (ends : EndsExpression c.rest) :
    c.connective? = none := by
  rw [Cursor.connective?, Cursor.peek]
  cases head : c.rest.head? with
  | none => rfl
  | some b => exact (ends b head).2

mutual

/-- Where something follows that ends it, a derivable text is taken as its derivation. -/
theorem readsExpression_of_text (limit : UInt32) {label : List UInt8} : ∀ (x : Expression)
    (depth : UInt32) (c : Cursor label) {rest : List UInt8}, c.rest = x.text ++ rest →
      EndsExpression rest → x.depth + depth.toNat ≤ limit.toNat → ReadsExpression limit depth c x
  | .single t, depth, c, rest, split, ends, within => by
    have place := Cursor.rest_advance_append split
    refine readsExpression_single
      (readsTerm_of_text limit t depth c split ends.endsTerm within) (connective?_of_ends ?_)
    rwa [← place] at ends
  | .group op first others, depth, c, rest, split, ends, within => by
    rw [Expression.text, List.append_assoc] at split
    rw [Expression.depth] at within
    have place := Cursor.rest_advance_append split
    refine readsExpression_group
      (readsTerm_of_text limit first depth c split (endsTerm_members _ _ _) (by omega))
      (readsMembers_of_text limit op others depth _ place ends (by omega))

theorem readsTerm_of_text (limit : UInt32) {label : List UInt8} : ∀ (t : Term)
    (depth : UInt32) (c : Cursor label) {rest : List UInt8}, c.rest = t.text ++ rest →
      EndsTerm rest → t.depth + depth.toNat ≤ limit.toNat → ReadsTerm limit depth c t
  | .word w, depth, c, rest, split, ends, _ =>
    readsTerm_word ⟨rest, split.symm⟩ (Cursor.token_complete ends split)
  | .enclosed x, depth, c, rest, split, _, within => by
    rw [Term.depth] at within
    have room : depth < limit := UInt32.lt_iff_toNat_lt.mpr (by omega)
    have next := deeper room
    have opens : c.peek = some openByte := Cursor.peek_eq split
    have inner : (c.advance 1).rest = x.text ++ closeByte :: rest := by
      rw [Cursor.rest_advance, split]
      simp [Term.text]
    refine readsTerm_enclosed opens room
      (readsExpression_of_text limit x (depth + 1) (c.advance 1) inner
        (endsExpression_close rest) (by omega)) ?_
    exact Cursor.peek_eq (Cursor.rest_advance_append inner)

theorem readsMembers_of_text (limit : UInt32) {label : List UInt8} : ∀ (op : Connective)
    (ms : Members) (depth : UInt32) (c : Cursor label) {rest : List UInt8},
      c.rest = ms.text op ++ rest → EndsExpression rest →
      ms.depth + depth.toNat ≤ limit.toNat → ReadsMembers limit depth op c ms
  | op, .last t, depth, c, rest, split, ends, within => by
    have opens : c.peek = some op.byte := Cursor.peek_eq split
    have inner : (c.advance 1).rest = t.text ++ rest := by
      rw [Cursor.rest_advance, split]
      rfl
    have place := Cursor.rest_advance_append split
    refine readsMembers_last opens
      (readsTerm_of_text limit t depth (c.advance 1) inner ends.endsTerm within)
      (connective?_of_ends ?_)
    rwa [← place] at ends
  | op, .more t others, depth, c, rest, split, ends, within => by
    rw [Members.depth] at within
    have opens : c.peek = some op.byte := Cursor.peek_eq split
    have inner : (c.advance 1).rest = t.text ++ (others.text op ++ rest) := by
      rw [Cursor.rest_advance, split]
      simp [Members.text]
    have place : (c.advance ((Members.last t).text op).length).rest = others.text op ++ rest := by
      rw [← advance_member, Cursor.rest_advance_append inner]
    exact readsMembers_more opens
      (readsTerm_of_text limit t depth (c.advance 1) inner (endsTerm_members _ _ _) (by omega))
      (readsMembers_of_text limit op others depth _ place ends (by omega))

end

/-- What a reading finds in a label: nothing at all, one expression, one with something left
over behind it, or one that breaks off. -/
inductive Outline where
  | empty
  | whole (x : Expression)
  | leftOver (x : Expression) (fault : Fault)
  | broken (x : BrokenExpression)

namespace Outline

def replay (i : Interpretation σ ν γ) : Outline → Run σ ν
  | .empty => i.empty
  | .whole x => x.replay i true 0
  | .leftOver x fault => do
    let _ ← x.replay i true 0
    throw fault
  | .broken x => x.replay i true 0

/-- A complete outline is one of the label itself, within the limit. Any other names what stops
the reading of the label. -/
def Fits (limit : UInt32) (label : List UInt8) : Outline → Prop
  | .empty => label = []
  | .whole x => x.text = label ∧ x.depth ≤ limit.toNat
  | .leftOver _ fault => Obstacle limit label fault
  | .broken b => Obstacle limit label b.fault

/-- An outline that is not complete goes on from as much of the label as could have become an
expression. -/
def Resumes (limit : UInt32) (label : List UInt8) : Outline → Prop
  | .empty | .whole _ => True
  | .leftOver x fault =>
    x.depth ≤ limit.toNat ∧ Grammar.Resumes (Cursor.start label) fault x.text
  | .broken b => b.Resumes limit.toNat 0 (Cursor.start label)

end Outline

theorem read_nil (i : Interpretation σ ν γ) (limit : UInt32) : i.read limit [] = i.empty := rfl

theorem atEnd_start (nonempty : label ≠ []) : (Cursor.start label).atEnd = false := by
  rw [Cursor.atEnd]
  exact List.isEmpty_eq_false_iff.mpr nonempty

theorem read_of_reads {limit : UInt32} {x : Expression} (nonempty : label ≠ [])
    (reads : ReadsExpression limit 0 (Cursor.start label) x) (i : Interpretation σ ν γ) :
    i.read limit label = x.replay i true 0 >>= fun node =>
      let stop := (Cursor.start label).advance x.text.length
      if stop.atEnd then pure node else throw (stop.fault (.leftOver stop.char)) := by
  obtain ⟨starts, same⟩ := reads
  rw [Interpretation.read]
  simp only [atEnd_start nonempty, Bool.false_eq_true, if_false]
  rw [same, bind_map_left]
  rfl

/-- A derivable label is read as its derivation, by any interpretation. -/
theorem read_text {limit : UInt32} (x : Expression) (within : x.depth ≤ limit.toNat)
    (i : Interpretation σ ν γ) : i.read limit x.text = x.replay i true 0 := by
  have whole : (Cursor.start x.text).rest = x.text ++ [] := (List.append_nil _).symm
  have reads := readsExpression_of_text limit x 0 _ whole endsExpression_nil within
  have stop : ((Cursor.start x.text).advance x.text.length).atEnd = true := by
    rw [Cursor.atEnd, Cursor.rest_advance_append whole]
    rfl
  simp only [read_of_reads x.text_ne_nil reads i, stop, if_true, bind_pure]

/-- What begins behind a derivable text, and goes on with none, is left over. -/
theorem read_text_leftOver {limit : UInt32} (x : Expression) (within : x.depth ≤ limit.toNat)
    {b : UInt8} {rest : List UInt8} (ends : EndsExpression (b :: rest))
    (i : Interpretation σ ν γ) : i.read limit (x.text ++ b :: rest) =
      x.replay i true 0 >>= fun _ =>
        let stop := (Cursor.start (x.text ++ b :: rest)).advance x.text.length
        throw (stop.fault (.leftOver stop.char)) := by
  have split : (Cursor.start (x.text ++ b :: rest)).rest = x.text ++ b :: rest := rfl
  have reads := readsExpression_of_text limit x 0 _ split ends within
  have stop : ((Cursor.start (x.text ++ b :: rest)).advance x.text.length).atEnd = false := by
    rw [Cursor.atEnd, Cursor.rest_advance_append split]
    rfl
  have nonempty : x.text ++ b :: rest ≠ [] :=
    List.append_ne_nil_of_right_ne_nil _ (List.cons_ne_nil _ _)
  simp only [read_of_reads nonempty reads i, stop, Bool.false_eq_true, if_false]

theorem read_of_breaks {limit : UInt32} {b : BrokenExpression} (nonempty : label ≠ [])
    (breaks : BreaksExpression limit 0 (Cursor.start label) b) (i : Interpretation σ ν γ) :
    i.read limit label = b.replay i true 0 := by
  rw [Interpretation.read]
  simp only [atEnd_start nonempty, Bool.false_eq_true, if_false]
  rw [breaks]
  exact b.replay_bind i _ true 0

/-- Every label has an outline, and any interpretation is handed what it says. -/
theorem exists_outline_resuming (limit : UInt32) (label : List UInt8) :
    ∃ outline : Outline, outline.Fits limit label ∧ outline.Resumes limit label ∧
      ∀ {σ ν γ : Type} (i : Interpretation σ ν γ), i.read limit label = outline.replay i := by
  by_cases nonempty : label = []
  · subst nonempty
    exact ⟨.empty, rfl, trivial, fun i => read_nil i limit⟩
  rcases expression_reads limit 0 (Cursor.start label) (due_start limit.toNat label) with
    ⟨x, op?, within, reads, done, alone⟩ | ⟨b, breaks, obstacle, resumes⟩
  · cases stop : ((Cursor.start label).advance x.text.length).atEnd with
    | true =>
      have text : x.text = label := by
        obtain ⟨rest, split⟩ := reads.1
        rw [Cursor.atEnd, Cursor.rest_advance_append split.symm, List.isEmpty_iff] at stop
        rwa [stop, List.append_nil] at split
      refine ⟨.whole x, ⟨text, within⟩, trivial, fun i => ?_⟩
      simp only [read_of_reads nonempty reads i, stop, if_true, bind_pure]
      rfl
    | false =>
      let behind := (Cursor.start label).advance x.text.length
      refine ⟨.leftOver x (behind.fault (.leftOver behind.char)), .leftOver done alone stop,
        ⟨within, .here reads.1 rfl⟩, fun i => ?_⟩
      simp only [read_of_reads nonempty reads i, stop]
      rfl
  · exact ⟨.broken b, obstacle, resumes, fun i => read_of_breaks nonempty breaks i⟩

theorem exists_outline (limit : UInt32) (label : List UInt8) :
    ∃ outline : Outline, outline.Fits limit label ∧
      ∀ {σ ν γ : Type} (i : Interpretation σ ν γ), i.read limit label = outline.replay i := by
  obtain ⟨outline, fits, _, replays⟩ := exists_outline_resuming limit label
  exact ⟨outline, fits, replays⟩

end Clearance.Grammar
