import Clearance.Proofs.Escaping
import Clearance.Spelling

/-! How values are spelled, and that nothing is lost by it. Escaping is one-to-one onto escaped
text and unescaping is its inverse; a value in quotes, or without them where it needs none, is
found again. -/
namespace Clearance.Spelling

theorem toList_escape (v : String) : (escape v).toList = Escape.escape v.toList :=
  String.toList_ofList

theorem escape_injective {v w : String} (same : escape v = escape w) : v = w := by
  have chars := congrArg String.toList same
  rw [toList_escape, toList_escape] at chars
  exact String.toList_injective (Escape.escape_injective chars)

/-- Text has even marks if it is escaped at all, so the count of them turns nothing away that the
pairing of them would take. -/
theorem unescape_eq_ok_iff {t v : String} : unescape t = .ok v ↔ t = escape v := by
  constructor
  · intro ok
    rw [unescape] at ok
    split at ok
    · cases ok
    split at ok
    next value inner =>
      cases ok
      rw [escape, String.toList_ofList, ← Escape.unescape_eq_ok_iff.mp inner, String.ofList_toList]
    · cases ok
  · rintro rfl
    have even := (Escape.escaped_escape v.toList).countP_isMark
    rw [unescape, toList_escape, if_neg (by omega), Escape.unescape_escape]
    exact congrArg Except.ok String.ofList_toList

theorem escaped_iff {t : String} : Escape.Escaped t.toList ↔ ∃ v, unescape t = .ok v := by
  constructor
  · intro escaped
    refine ⟨String.ofList (Escape.strip t.toList), unescape_eq_ok_iff.mpr ?_⟩
    rw [escape, String.toList_ofList, Escape.escape_strip escaped, String.ofList_toList]
  · rintro ⟨v, ok⟩
    rw [unescape_eq_ok_iff.mp ok, toList_escape]
    exact Escape.escaped_escape v.toList

theorem toList_enclose (v : String) :
    (enclose v).toList = '"' :: (Escape.escape v.toList ++ ['"']) :=
  String.toList_ofList

theorem bytes_escape (v : String) :
    Text.Utf8.bytes (escape v) = Escape.escape (Text.Utf8.bytes v) := by
  rw [Text.Utf8.bytes, toList_escape, Escape.encode_escape]
  rfl

theorem bytes_enclose (v : String) : Text.Utf8.bytes (enclose v) =
    quoteByte :: (Escape.escape (Text.Utf8.bytes v) ++ [quoteByte]) := by
  rw [Text.Utf8.bytes, toList_enclose, Text.Utf8.encode_cons, Text.Utf8.encode_append,
    Escape.encode_escape]
  rfl

theorem length_enclose (v : String) : v.toList.length + 2 ≤ (enclose v).toList.length := by
  rw [toList_enclose, List.length_cons, List.length_append, Escape.length_escape]
  simp only [List.length_singleton]
  omega

theorem inside?_enclosed (cs : List Char) : inside? ('"' :: (cs ++ ['"'])) = some cs := by
  simp [inside?]

/-- A text with something between its quotes is not taken for a spelling of nothing. -/
theorem unquote_eq_unescape {t : String} {cs : List Char}
    (encloses : t.toList = '"' :: (cs ++ ['"'])) (nonempty : cs ≠ []) :
    unquote t = unescape (String.ofList cs) := by
  have empty : t ≠ "" := by
    rintro rfl
    cases encloses
  have quotes : t ≠ "\"\"" := by
    rintro rfl
    have none : [] = cs := (List.append_left_inj ['"']).mp (List.cons.inj encloses).2
    exact nonempty none.symm
  rw [unquote, if_neg (by simp [empty, quotes]), encloses, inside?_enclosed]

theorem unquote_eq_self {t : String} (nonempty : t ≠ "")
    (plain : ∀ cs, t.toList ≠ '"' :: cs) : unquote t = .ok t := by
  have quotes : t ≠ "\"\"" := by
    rintro rfl
    exact plain _ rfl
  have inside : inside? t.toList = none := by
    unfold inside?
    split
    next cs same => exact absurd same (plain cs)
    · rfl
  rw [unquote, if_neg (by simp [nonempty, quotes]), inside]

theorem unquote_enclose {v : String} (nonempty : v ≠ "") : unquote (enclose v) = .ok v := by
  have full : Escape.escape v.toList ≠ [] := fun empty =>
    nonempty (String.toList_injective (Escape.escape_injective empty))
  rw [unquote_eq_unescape (toList_enclose v) full]
  exact unescape_eq_ok_iff.mpr rfl

/-- A bare value does not begin like one in quotes. -/
theorem toList_ne_of_isBareValue {v : String} (bare : isBareValue v = true) (cs : List Char) :
    v.toList ≠ '"' :: cs := by
  intro same
  rw [isBareValue, Text.Utf8.bytes, same] at bare
  have quote : isBareByte quoteByte = true :=
    List.all_eq_true.mp bare quoteByte List.mem_cons_self
  rw [isBareByte_quote] at quote
  cases quote

theorem unquote_write {v : String} (nonempty : v ≠ "") : unquote (write v) = .ok v := by
  rw [write]
  split
  next bare => exact unquote_eq_self nonempty (toList_ne_of_isBareValue bare)
  next => exact unquote_enclose nonempty

theorem write_eq_self_iff {v : String} : write v = v ↔ isBareValue v = true := by
  rw [write]
  split
  next bare => exact ⟨fun _ => bare, fun _ => rfl⟩
  next marked =>
    refine ⟨fun same => ?_, fun bare => absurd bare marked⟩
    have longer := length_enclose v
    rw [same] at longer
    omega

theorem quote_eq_ok_iff {v q : String} : quote v = .ok q ↔ v ≠ "" ∧ q = write v := by
  rw [quote]
  split
  next empty =>
    have empty : v = "" := String.isEmpty_iff.mp empty
    exact ⟨nofun, fun full => absurd empty full.1⟩
  next full =>
    have full : v ≠ "" := fun empty => full (String.isEmpty_iff.mpr empty)
    exact ⟨fun same => ⟨full, (Except.ok.inj same).symm⟩,
      fun same => congrArg Except.ok same.2.symm⟩

theorem quote_empty : quote "" = .error (.misuse .emptyAuthorization) := rfl

/-- Values are spelled apart, and none of them like nothing. -/
theorem quote_injective {v w : String} (same : quote v = quote w) : v = w := by
  by_cases hv : v = "" <;> by_cases hw : w = ""
  · rw [hv, hw]
  · rw [hv, quote_empty, quote_eq_ok_iff.mpr ⟨hw, rfl⟩] at same
    cases same
  · rw [hw, quote_empty, quote_eq_ok_iff.mpr ⟨hv, rfl⟩] at same
    cases same
  · have written := (quote_eq_ok_iff.mp (same.symm.trans (quote_eq_ok_iff.mpr ⟨hv, rfl⟩))).2
    have found := unquote_write hv
    rw [written, unquote_write hw] at found
    exact (Except.ok.inj found).symm

/-- Escaping is one-to-one onto escaped text, with unescaping for its inverse: no escaped text is
turned away for the count of its marks. A value that is not empty is found again in its spelling,
which is the value itself if that is bare, and no two values are spelled alike. -/
theorem spelling_one_to_one (v w t : String) :
    unescape (escape v) = .ok v ∧
    (unescape t = .ok v ↔ t = escape v) ∧
    ((∃ u, unescape t = .ok u) ↔ Escape.Escaped t.toList) ∧
    (Escape.Escaped t.toList → t.toList.countP Escape.isMark % 2 = 0 ∧
      escape <$> unescape t = .ok t ∧
      ∃ u, unescape t = .ok u ∧ t = escape u ∧ ∀ u', t = escape u' → u' = u) ∧
    (v ≠ "" → ∃ q, quote v = .ok q ∧ unquote q = .ok v ∧ (q = v ↔ isBareValue v = true)) ∧
    (quote v = quote w → v = w) := by
  refine ⟨unescape_eq_ok_iff.mpr rfl, unescape_eq_ok_iff, escaped_iff.symm, ?_, ?_, quote_injective⟩
  · intro escaped
    obtain ⟨u, ok⟩ := escaped_iff.mp escaped
    have spelled := unescape_eq_ok_iff.mp ok
    refine ⟨escaped.countP_isMark, ?_, u, ok, spelled, fun u' same => ?_⟩
    · rw [ok, spelled]
      rfl
    · exact escape_injective (same.symm.trans spelled)
  · intro nonempty
    exact ⟨write v, quote_eq_ok_iff.mpr ⟨nonempty, rfl⟩, unquote_write nonempty, write_eq_self_iff⟩

/-- The value `a"\` is escaped as `a\"\\`. -/
theorem spelling_one_to_one_marks :
    let v := "a\"\\"
    let t := "a\\\"\\\\"
    v ≠ "" ∧ Escape.Escaped t.toList ∧ t.toList.countP Escape.isMark % 2 = 0 ∧
      escape <$> unescape t = .ok t ∧ unescape t = .ok v ∧ (∀ u', t = escape u' → u' = v) ∧
      ∃ q, quote v = .ok q ∧ unquote q = .ok v ∧ (q = v ↔ isBareValue v = true) := by
  intro v t
  have nonempty : v ≠ "" := by decide
  have escaped : Escape.Escaped t.toList := by
    have chars : t.toList = ['a', '\\', '"', '\\', '\\'] := by decide
    rw [chars]
    exact .plain (by decide) (.kept (by decide) (.kept (by decide) .nil))
  obtain ⟨_, inverse, _, exactly, spelled, _⟩ := spelling_one_to_one v v t
  have ok : unescape t = .ok v := inverse.mpr (by decide)
  obtain ⟨even, again, u, found, _, unique⟩ := exactly escaped
  obtain rfl : v = u := Except.ok.inj (ok.symm.trans found)
  exact ⟨nonempty, escaped, even, again, ok, unique, spelled nonempty⟩

end Clearance.Spelling
