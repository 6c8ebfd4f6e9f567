import Clearance.Interpretation.Descent
import Clearance.Proofs.Resuming

/-! The descent replays a derivation, whatever the interpretation: one rule for each production
says where the descent takes it, and where no rule applies the reading breaks off. So two
readings of one label, by any two interpretations, go through the same parts. -/
namespace Clearance.Grammar

variable {σ ν γ : Type} {label : List UInt8} {limit depth : UInt32} {c : Cursor label}
  {op : Connective} {t : Term} {x : Expression} {ms : Members}

theorem rest_advance_lt_of_starts {text : List UInt8} (starts : text <+: c.rest)
    (nonempty : text ≠ []) : (c.advance text.length).rest.length < c.rest.length := by
  obtain ⟨rest, split⟩ := starts
  have positive := List.length_pos_iff.mpr nonempty
  rw [Cursor.rest_advance_append split.symm, ← split, List.length_append]
  omega

/-- The part that begins at `c` and has a text there. -/
def partOver (c : Cursor label) {text : List UInt8} (starts : text <+: c.rest)
    (nonempty : text ≠ []) (node : ν) : Part ν c :=
  ⟨node, ⟨c.offset, c.offset + text.length⟩, c.advance text.length,
    rest_advance_lt_of_starts starts nonempty⟩

/-- At `c` the descent takes an expression. -/
def ReadsExpression (limit depth : UInt32) (c : Cursor label) (x : Expression) : Prop :=
  ∃ starts : x.text <+: c.rest, ∀ {σ ν γ : Type} (i : Interpretation σ ν γ) (live : Bool),
    i.expression limit live depth c =
      partOver c starts x.text_ne_nil <$> x.replay i live c.offset

/-- At `c` the descent takes a term. -/
def ReadsTerm (limit depth : UInt32) (c : Cursor label) (t : Term) : Prop :=
  ∃ starts : t.text <+: c.rest, ∀ {σ ν γ : Type} (i : Interpretation σ ν γ) (live : Bool),
    i.term limit live depth c = partOver c starts t.text_ne_nil <$> t.replay i live c.offset

/-- At `c` the descent takes further members of any group that began before, and then ends it. -/
def ReadsMembers (limit depth : UInt32) (op : Connective) (c : Cursor label) (ms : Members) :
    Prop :=
  ms.text op <+: c.rest ∧ ∀ {σ ν γ : Type} (i : Interpretation σ ν γ) (live : Bool) (group : γ)
    (opening : Cursor label) (after : c.rest.length < opening.rest.length),
    ∃ less : (c.advance (ms.text op).length).rest.length < opening.rest.length,
      i.siblings limit live depth op group ⟨opening.offset, c.offset⟩ opening c after = do
        let group ← ms.replay i live c.offset group
        let node ← i.finish group ⟨opening.offset, c.offset + (ms.text op).length⟩
        return ⟨node, ⟨opening.offset, c.offset + (ms.text op).length⟩,
          c.advance (ms.text op).length, less⟩

theorem readsTerm_word {w : Word} (starts : w.text <+: c.rest)
    (scanned : c.token = (.ok (w.token c.offset), c.advance w.text.length)) :
    ReadsTerm limit depth c (.word w) := by
  refine ⟨starts, fun i live => ?_⟩
  have outside : c.peek ≠ some openByte := by
    intro opens
    obtain ⟨bs, start⟩ := Cursor.peek_eq_some opens
    obtain ⟨rest, split⟩ := starts
    exact w.text_append_ne_open rest bs (split.trans start)
  rw [Interpretation.term, dif_neg outside]
  split
  next fault stop failed =>
    rw [scanned] at failed
    cases failed
  next token next found =>
    have same := scanned.symm.trans found
    cases same
    simp only [Term.replay, map_eq_pure_bind]
    rfl

theorem readsTerm_enclosed (opens : c.peek = some openByte) (room : depth < limit)
    (inner : ReadsExpression limit (depth + 1) (c.advance 1) x)
    (closes : ((c.advance 1).advance x.text.length).peek = some closeByte) :
    ReadsTerm limit depth c (.enclosed x) := by
  obtain ⟨starts, reads⟩ := inner
  have whole : Term.text (.enclosed x) <+: c.rest := by
    obtain ⟨bs, start⟩ := Cursor.peek_eq_some opens
    obtain ⟨rest, split⟩ := starts
    obtain ⟨rest', stop⟩ := Cursor.peek_eq_some closes
    rw [Cursor.rest_advance_append split.symm] at stop
    rw [Cursor.rest_advance, start, List.drop_one, List.tail_cons] at split
    exact ⟨rest', by simp [Term.text, start, ← split, stop]⟩
  refine ⟨whole, fun i live => ?_⟩
  have behind : ((c.advance 1).advance x.text.length).advance 1 =
      c.advance (Term.text (.enclosed x)).length := by
    rw [Cursor.advance_advance, Cursor.advance_advance]
    congr 1
    simp [Term.text]
    omega
  have closing := Cursor.expect_eq_ok.mpr ⟨closes, behind⟩
  rw [Interpretation.term, dif_pos opens, if_neg (UInt32.not_le.mpr room), reads, bind_map_left,
    Term.replay, map_eq_pure_bind]
  apply bind_congr
  intro node
  split
  next fault failed =>
    exact absurd (failed.symm.trans closing) (by simp)
  next next found =>
    have same := found.symm.trans closing
    cases same
    rfl

theorem readsExpression_single (first : ReadsTerm limit depth c t)
    (ends : (c.advance t.text.length).connective? = none) :
    ReadsExpression limit depth c (.single t) := by
  obtain ⟨starts, reads⟩ := first
  refine ⟨starts, fun i live => ?_⟩
  rw [Interpretation.expression, reads, bind_map_left, Expression.replay, map_eq_pure_bind]
  apply bind_congr
  intro node
  simp only [partOver, ends]
  rfl

theorem readsExpression_group (first : ReadsTerm limit depth c t)
    (others : ReadsMembers limit depth op (c.advance t.text.length) ms) :
    ReadsExpression limit depth c (.group op t ms) := by
  obtain ⟨starts, reads⟩ := first
  obtain ⟨follow, readsOthers⟩ := others
  have whole : (Expression.group op t ms).text <+: c.rest := by
    obtain ⟨rest, split⟩ := starts
    rw [Cursor.rest_advance_append split.symm] at follow
    obtain ⟨rest', split'⟩ := follow
    exact ⟨rest', by rw [Expression.text, List.append_assoc, split', split]⟩
  refine ⟨whole, fun i live => ?_⟩
  have connective : (c.advance t.text.length).connective? = some op := by
    obtain ⟨bs, text⟩ := ms.text_eq_cons op
    obtain ⟨rest, split⟩ := follow
    rw [text] at split
    exact Cursor.connective?_eq_some.mpr (Cursor.peek_eq split.symm)
  rw [Interpretation.expression, reads, bind_map_left]
  simp only [Expression.replay, map_eq_pure_bind, bind_assoc]
  apply bind_congr
  intro node
  simp only [partOver, connective]
  apply bind_congr
  intro group
  obtain ⟨less, same⟩ := readsOthers i live group c (rest_advance_lt_of_starts starts t.text_ne_nil)
  refine same.trans (bind_congr fun group => bind_congr fun node => ?_)
  simp only [Expression.text, List.length_append, Nat.add_assoc, Cursor.advance_advance,
    Cursor.offset_advance]

theorem merge_eq {opening : Cursor label} (before : c.rest.length < opening.rest.length)
    (n : Nat) : (⟨opening.offset, c.offset⟩ : Span).merge ⟨c.offset + 1, c.offset + 1 + n⟩ =
      ⟨opening.offset, c.offset + 1 + n⟩ := by
  have order : opening.offset ≤ c.offset := by
    rw [c.rest_eq, opening.rest_eq, List.length_drop, List.length_drop] at before
    omega
  simp only [Span.merge, Span.mk.injEq]
  omega

theorem advance_member (c : Cursor label) (op : Connective) (t : Term) :
    (c.advance 1).advance t.text.length = c.advance ((Members.last t).text op).length := by
  rw [Cursor.advance_advance, Nat.add_comm]
  rfl

/-- One member of a group is read and added, and the reading goes on behind it. -/
theorem siblings_member {next : Cursor label} (opens : c.peek = some op.byte)
    (member : ReadsTerm limit depth (c.advance 1) t)
    (place : (c.advance 1).advance t.text.length = next) (i : Interpretation σ ν γ)
    (live : Bool) (group : γ) (opening : Cursor label)
    (after : c.rest.length < opening.rest.length) :
    ∃ before : next.rest.length < opening.rest.length,
      i.siblings limit live depth op group ⟨opening.offset, c.offset⟩ opening c after =
        (Members.last t).replay i live c.offset group >>= fun group =>
          i.siblings limit live depth op group ⟨opening.offset, next.offset⟩ opening next
            before := by
  obtain ⟨starts, reads⟩ := member
  subst place
  have before := Nat.lt_trans (rest_advance_lt_of_starts starts t.text_ne_nil)
    (Nat.lt_trans (c.rest_advance_lt opens Nat.one_pos) after)
  refine ⟨before, ?_⟩
  rw [Interpretation.siblings, dif_pos opens]
  simp only [Members.replay, bind_assoc]
  apply bind_congr
  intro memberLive
  rw [reads, bind_map_left]
  apply bind_congr
  intro node
  apply bind_congr
  intro group
  simp only [partOver, Cursor.offset_advance, merge_eq after]

theorem members_last_starts (opens : c.peek = some op.byte)
    (starts : t.text <+: (c.advance 1).rest) : (Members.last t).text op <+: c.rest := by
  obtain ⟨bs, start⟩ := Cursor.peek_eq_some opens
  obtain ⟨rest, split⟩ := starts
  rw [Cursor.rest_advance, start, List.drop_one, List.tail_cons] at split
  exact ⟨rest, by rw [start, ← split]; rfl⟩

theorem readsMembers_last (opens : c.peek = some op.byte)
    (member : ReadsTerm limit depth (c.advance 1) t)
    (ends : (c.advance ((Members.last t).text op).length).connective? = none) :
    ReadsMembers limit depth op c (.last t) := by
  refine ⟨members_last_starts opens member.1, fun i live group opening after => ?_⟩
  obtain ⟨before, step⟩ := siblings_member opens member (advance_member c op t) i live group
    opening after
  have other : ∀ op' : Connective,
      (c.advance ((Members.last t).text op).length).peek ≠ some op'.byte := by
    intro op' more
    rw [Cursor.connective?_eq_some.mpr more] at ends
    cases ends
  refine ⟨before, step.trans (bind_congr fun group => ?_)⟩
  rw [Interpretation.siblings, dif_neg (other op), if_neg (other op.other)]
  rfl

theorem readsMembers_more (opens : c.peek = some op.byte)
    (member : ReadsTerm limit depth (c.advance 1) t)
    (others : ReadsMembers limit depth op (c.advance ((Members.last t).text op).length) ms) :
    ReadsMembers limit depth op c (.more t ms) := by
  obtain ⟨follow, readsOthers⟩ := others
  have text : (Members.more t ms).text op = (Members.last t).text op ++ ms.text op := rfl
  have whole : (Members.more t ms).text op <+: c.rest := by
    obtain ⟨rest, split⟩ := members_last_starts opens member.1
    rw [Cursor.rest_advance_append split.symm] at follow
    obtain ⟨rest', split'⟩ := follow
    exact ⟨rest', by rw [text, List.append_assoc, split', split]⟩
  refine ⟨whole, fun i live group opening after => ?_⟩
  obtain ⟨before, step⟩ := siblings_member opens member (advance_member c op t) i live group
    opening after
  have place : (c.advance ((Members.last t).text op).length).advance (ms.text op).length =
      c.advance ((Members.more t ms).text op).length := by
    rw [Cursor.advance_advance, ← List.length_append]
    rfl
  have start : c.offset + ((Members.last t).text op).length = c.offset + 1 + t.text.length :=
    (congrArg Cursor.offset (advance_member c op t)).symm
  have stop : c.offset + 1 + t.text.length + (ms.text op).length =
      c.offset + ((Members.more t ms).text op).length := by
    rw [← start]
    exact congrArg Cursor.offset place
  obtain ⟨less, _⟩ := readsOthers i live group opening before
  rw [place] at less
  refine ⟨less, ?_⟩
  rw [step, Members.replay_more, bind_assoc]
  apply bind_congr
  intro group
  obtain ⟨_, same⟩ := readsOthers i live group opening before
  rw [same]
  simp only [Cursor.offset_advance, start, stop, place]

/-- At `c` the descent hands over the parts of an expression up to where it breaks off. -/
def BreaksExpression (limit depth : UInt32) (c : Cursor label) (x : BrokenExpression) : Prop :=
  ∀ {σ ν γ : Type} (i : Interpretation σ ν γ) (live : Bool),
    i.expression limit live depth c = x.replay i live c.offset

def BreaksTerm (limit depth : UInt32) (c : Cursor label) (t : BrokenTerm) : Prop :=
  ∀ {σ ν γ : Type} (i : Interpretation σ ν γ) (live : Bool),
    i.term limit live depth c = t.replay i live c.offset

def BreaksMembers (limit depth : UInt32) (op : Connective) (c : Cursor label)
    (ms : BrokenMembers) : Prop :=
  ∀ {σ ν γ : Type} (i : Interpretation σ ν γ) (live : Bool) (group : γ)
    (opening : Cursor label) (after : c.rest.length < opening.rest.length),
    i.siblings limit live depth op group ⟨opening.offset, c.offset⟩ opening c after =
      ms.replay i live c.offset group

theorem breaksTerm_tooDeep (opens : c.peek = some openByte) (full : ¬ depth < limit) :
    BreaksTerm limit depth c
      (.absent (.tooDeep limit (Text.Utf8.decodeLossy label) c.offset)) := by
  intro σ ν γ i live
  rw [Interpretation.term, dif_pos opens, if_pos (UInt32.not_lt.mp full)]
  rfl

theorem breaksTerm_token {fault : Fault} {stop : Cursor label}
    (outside : c.peek ≠ some openByte) (failed : c.token = (.error fault, stop)) :
    BreaksTerm limit depth c (.absent fault) := by
  intro σ ν γ i live
  rw [Interpretation.term, dif_neg outside]
  split
  next fault' _ found =>
    cases failed.symm.trans found
    rfl
  next found =>
    cases failed.symm.trans found

theorem breaksTerm_within {b : BrokenExpression} (opens : c.peek = some openByte)
    (room : depth < limit) (inner : BreaksExpression limit (depth + 1) (c.advance 1) b) :
    BreaksTerm limit depth c (.within b) := by
  intro σ ν γ i live
  rw [Interpretation.term, dif_pos opens, if_neg (UInt32.not_le.mpr room), inner]
  exact b.replay_bind i _ live _

theorem breaksTerm_unclosed (opens : c.peek = some openByte) (room : depth < limit)
    (inner : ReadsExpression limit (depth + 1) (c.advance 1) x) {fault : Fault}
    (expected : ((c.advance 1).advance x.text.length).expect closeByte = .error fault) :
    BreaksTerm limit depth c (.unclosed x fault) := by
  obtain ⟨starts, reads⟩ := inner
  intro σ ν γ i live
  rw [Interpretation.term, dif_pos opens, if_neg (UInt32.not_le.mpr room), reads, bind_map_left,
    BrokenTerm.replay]
  apply bind_congr
  intro node
  split
  next fault' failed =>
    cases expected.symm.trans failed
    rfl
  next next closed =>
    cases expected.symm.trans closed

theorem breaksExpression_first {b : BrokenTerm} (first : BreaksTerm limit depth c b) :
    BreaksExpression limit depth c (.first b) := by
  intro σ ν γ i live
  rw [Interpretation.expression, first]
  exact b.replay_bind i _ live _

theorem breaksExpression_group {b : BrokenMembers} (first : ReadsTerm limit depth c t)
    (more : (c.advance t.text.length).peek = some op.byte)
    (others : BreaksMembers limit depth op (c.advance t.text.length) b) :
    BreaksExpression limit depth c (.group op t b) := by
  obtain ⟨starts, reads⟩ := first
  intro σ ν γ i live
  rw [Interpretation.expression, reads, bind_map_left, BrokenExpression.replay]
  apply bind_congr
  intro node
  simp only [partOver, Cursor.connective?_eq_some.mpr more]
  exact bind_congr fun group => others i live group c _

theorem breaksMembers_here {b : BrokenTerm} (opens : c.peek = some op.byte)
    (member : BreaksTerm limit depth (c.advance 1) b) :
    BreaksMembers limit depth op c (.here b) := by
  intro σ ν γ i live group opening after
  rw [Interpretation.siblings, dif_pos opens, BrokenMembers.replay]
  apply bind_congr
  intro memberLive
  rw [member]
  exact b.replay_bind i _ _ _

theorem breaksMembers_mixed (opens : c.peek = some op.byte)
    (member : ReadsTerm limit depth (c.advance 1) t)
    (mixed : (c.advance ((Members.last t).text op).length).peek = some op.other.byte) :
    BreaksMembers limit depth op c
      (.mixed t ((c.advance ((Members.last t).text op).length).fault .mixedConnectives)) := by
  intro σ ν γ i live group opening after
  obtain ⟨before, step⟩ := siblings_member opens member (advance_member c op t) i live group
    opening after
  have apart : op.other.byte ≠ op.byte := by
    cases op <;> decide
  rw [step, BrokenMembers.replay]
  apply bind_congr
  intro group
  rw [Interpretation.siblings, dif_neg fun more => apart (Option.some.inj (mixed.symm.trans more)),
    if_pos mixed]

theorem breaksMembers_later {b : BrokenMembers} (opens : c.peek = some op.byte)
    (member : ReadsTerm limit depth (c.advance 1) t)
    (others : BreaksMembers limit depth op (c.advance ((Members.last t).text op).length) b) :
    BreaksMembers limit depth op c (.later t b) := by
  intro σ ν γ i live group opening after
  obtain ⟨before, step⟩ := siblings_member opens member (advance_member c op t) i live group
    opening after
  have start : c.offset + ((Members.last t).text op).length = c.offset + 1 + t.text.length :=
    (congrArg Cursor.offset (advance_member c op t)).symm
  rw [step, BrokenMembers.replay]
  apply bind_congr
  intro group
  rw [others i live group opening before, Cursor.offset_advance, start]

/-- Below the limit the depth can be counted on. -/
theorem deeper (room : depth < limit) : (depth + 1).toNat = depth.toNat + 1 := by
  have below := UInt32.lt_iff_toNat_lt.mp room
  have bound := limit.toNat_lt
  rw [UInt32.toNat_add, UInt32.toNat_one, Nat.mod_eq_of_lt (by omega)]

theorem due_deeper {op? : Option Connective} (due : Due limit.toNat depth.toNat op? c)
    (opens : c.peek = some openByte) (room : depth < limit) :
    Due limit.toNat (depth + 1).toNat none (c.advance 1) := by
  rw [deeper room]
  exact due.inner opens (UInt32.lt_iff_toNat_lt.mp room)

/-- At the limit nothing more may be opened. -/
theorem due_limit {op? : Option Connective} (due : Due limit.toNat depth.toNat op? c)
    (full : ¬ depth < limit) : Due limit.toNat limit.toNat op? c := by
  have bound := due.awaits.depth_le
  have same : depth.toNat = limit.toNat :=
    Nat.le_antisymm bound (UInt32.le_iff_toNat_le.mp (UInt32.not_lt.mp full))
  rwa [same] at due

mutual

/-- The descent takes an expression that nests within the limit, or breaks off where something
stops it, and could have gone on from there. -/
theorem expression_reads (limit : UInt32) {label : List UInt8} (depth : UInt32)
    (c : Cursor label) (due : Due limit.toNat depth.toNat none c) :
    (∃ x op?, x.depth + depth.toNat ≤ limit.toNat ∧ ReadsExpression limit depth c x ∧
      Done limit.toNat depth.toNat op? (c.advance x.text.length) ∧
      (c.advance x.text.length).connective? = none) ∨
    ∃ b, BreaksExpression limit depth c b ∧ Obstacle limit label b.fault ∧
      b.Resumes limit.toNat depth.toNat c := by
  rcases term_reads limit depth none c due with
    ⟨t, deep, reads, done⟩ | ⟨b, breaks, obstacle, resumes⟩
  · cases connective : (c.advance t.text.length).connective? with
    | none =>
      exact Or.inl ⟨.single t, none, deep, readsExpression_single reads connective, done,
        connective⟩
    | some op =>
      have more := Cursor.connective?_eq_some.mp connective
      have shorter := rest_advance_lt_of_starts reads.1 t.text_ne_nil
      rcases members_reads limit depth op none (c.advance t.text.length) done nofun more with
        ⟨ms, deepMembers, readsMembers, done, ends⟩ | ⟨b, breaks, obstacle, resumes⟩
      · rw [Cursor.advance_advance, ← List.length_append] at done ends
        refine Or.inl ⟨.group op t ms, some op, ?_, readsExpression_group reads readsMembers,
          done, ends⟩
        rw [Expression.depth]
        omega
      · exact Or.inr ⟨.group op t b, breaksExpression_group reads more breaks, obstacle,
          .group reads.1 deep resumes⟩
  · exact Or.inr ⟨.first b, breaksExpression_first breaks, obstacle, resumes⟩
termination_by 2 * c.rest.length + 1
decreasing_by all_goals omega

theorem members_reads (limit : UInt32) {label : List UInt8} (depth : UInt32) (op : Connective)
    (op? : Option Connective) (c : Cursor label) (before : Done limit.toNat depth.toNat op? c)
    (same : ∀ o ∈ op?, o = op) (opens : c.peek = some op.byte) :
    (∃ ms, ms.depth + depth.toNat ≤ limit.toNat ∧ ReadsMembers limit depth op c ms ∧
      Done limit.toNat depth.toNat (some op) (c.advance (ms.text op).length) ∧
      (c.advance (ms.text op).length).connective? = none) ∨
    ∃ b, BreaksMembers limit depth op c b ∧ Obstacle limit label b.fault ∧
      b.Resumes limit.toNat depth.toNat op c := by
  have inner := c.rest_advance_lt opens Nat.one_pos
  rcases term_reads limit depth (some op) (c.advance 1) (before.next same opens) with
    ⟨t, deep, reads, done⟩ | ⟨b, breaks, obstacle, resumes⟩
  · have starts := members_last_starts opens reads.1
    rw [advance_member c op t] at done
    cases connective : (c.advance ((Members.last t).text op).length).connective? with
    | none =>
      exact Or.inl ⟨.last t, deep, readsMembers_last opens reads connective, done, connective⟩
    | some op' =>
      have more := Cursor.connective?_eq_some.mp connective
      have shorter := rest_advance_lt_of_starts starts (List.cons_ne_nil _ _)
      -- The same connective goes on with the group; the other one cannot stand in it.
      by_cases again : op' = op
      · subst again
        rcases members_reads limit depth op' (some op')
          (c.advance ((Members.last t).text op').length) done (by simp) more with
          ⟨ms, deepMembers, readsMembers, done, ends⟩ | ⟨b, breaks, obstacle, resumes⟩
        · rw [Cursor.advance_advance, ← List.length_append] at done ends
          refine Or.inl ⟨.more t ms, ?_, readsMembers_more opens reads readsMembers, done, ends⟩
          rw [Members.depth]
          omega
        · exact Or.inr ⟨.later t b, breaksMembers_later opens reads breaks, obstacle,
            .later starts deep resumes⟩
      · have other : op' = op.other := by
          cases op <;> cases op' <;> first | rfl | exact absurd rfl again
        rw [other] at more
        exact Or.inr ⟨.mixed t _, breaksMembers_mixed opens reads more, .mixed done more,
          .mixed starts deep rfl⟩
  · exact Or.inr ⟨.here b, breaksMembers_here opens breaks, obstacle, .here opens resumes⟩
termination_by 2 * c.rest.length
decreasing_by all_goals omega

theorem term_reads (limit : UInt32) {label : List UInt8} (depth : UInt32)
    (op? : Option Connective) (c : Cursor label) (due : Due limit.toNat depth.toNat op? c) :
    (∃ t, t.depth + depth.toNat ≤ limit.toNat ∧ ReadsTerm limit depth c t ∧
      Done limit.toNat depth.toNat op? (c.advance t.text.length)) ∨
    ∃ b, BreaksTerm limit depth c b ∧ Obstacle limit label b.fault ∧
      b.Resumes limit.toNat depth.toNat c := by
  by_cases opens : c.peek = some openByte
  · by_cases room : depth < limit
    · have inner := c.rest_advance_lt opens Nat.one_pos
      have next := deeper room
      rcases expression_reads limit (depth + 1) (c.advance 1) (due_deeper due opens room) with
        ⟨x, op'?, deep, reads, done, ends⟩ | ⟨b, breaks, obstacle, resumes⟩
      · by_cases closes : ((c.advance 1).advance x.text.length).peek = some closeByte
        · have deepTerm : (Term.enclosed x).depth + depth.toNat ≤ limit.toNat := by
            rw [Term.depth]
            omega
          have term := readsTerm_enclosed opens room reads closes
          exact Or.inl ⟨.enclosed x, deepTerm, term, due.done term.1 deepTerm trivial⟩
        · have expected : ((c.advance 1).advance x.text.length).expect closeByte = .error _ :=
            if_neg closes
          rw [next] at done deep
          exact Or.inr ⟨.unclosed x _, breaksTerm_unclosed opens room reads expected,
            .unclosed done ends closes, .unclosed opens reads.1 deep rfl⟩
      · rw [next] at resumes
        exact Or.inr ⟨.within b, breaksTerm_within opens room breaks, obstacle,
          .within opens resumes⟩
    · exact Or.inr ⟨_, breaksTerm_tooDeep opens room, .tooDeep (due_limit due room) opens,
        resumes_absent due rfl⟩
  · rcases scanned : c.token with ⟨outcome, next⟩
    cases outcome with
    | ok token =>
      obtain ⟨w, starts, ends, rfl, rfl⟩ := Cursor.token_sound scanned
      exact Or.inl ⟨.word w, due.depth_word w, readsTerm_word starts scanned,
        due.done starts (due.depth_word w) ends⟩
    | error fault =>
      have noToken := NoToken.of_token opens scanned
      exact Or.inr ⟨.absent fault, breaksTerm_token opens scanned, noToken.obstacle due,
        noToken.resumes due⟩
termination_by 2 * c.rest.length
decreasing_by all_goals omega

end

end Clearance.Grammar
