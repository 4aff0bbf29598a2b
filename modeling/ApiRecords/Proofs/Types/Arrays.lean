import ApiRecords.Proofs.Outcome
import ApiRecords.Proofs.Types.Literals
import ApiRecords.Types.OfSchema

/-!
The type of an array of plain values in both notations, against the types of its items.
-/

namespace ApiRecords

open TypeTree

theorem truthy_of_elements_nil {g : Graph} {v : Value} (h : g.elements v = .ok []) :
    g.truthy v = false := by
  cases v with
  | scalar s =>
    cases s with
    | text s => simpa [Graph.elements, Graph.node?, Graph.truthy, Scalar.truthy] using h
    | _ => cases h
  | node id =>
    unfold Graph.elements at h
    split at h <;> simp_all [Graph.truthy, Node.isEmpty]

theorem listed_ne_nil {g : Graph} {v : Value} {values : List Tree}
    (h : g.listed v = .ok (some values)) : values ≠ [] := by
  unfold Graph.listed at h
  split at h
  · rename_i htruthy
    simp only [bind_ok_iff, pure_ok_iff, Option.some.injEq] at h
    obtain ⟨elements, helements, rfl⟩ := h
    rintro hnil
    rw [List.map_eq_nil_iff] at hnil
    subst hnil
    rw [truthy_of_elements_nil helements] at htruthy
    cases htruthy
  · cases h

theorem typedLiteral_unit {type value : Tree} {s : String} (h : typedLiteral type value = .ok s) :
    ∃ t, StaticUnit s t := by
  have hquoted : ∀ s, ∃ t, StaticUnit (Text.singleQuoted s) t := fun s =>
    ⟨_, .quoted (singleQuoted_spells s)⟩
  unfold typedLiteral literal at h
  split at h
  · cases h
    exact hquoted _
  · split at h
    · cases h
      exact hquoted _
    · unfold Tree.json? at h
      split at h
      · cases h
      · cases h
        exact Tree.staticUnit_json 0 value

theorem typedLiterals_units {type : Tree} {values : List Tree} {texts : List String}
    (h : values.mapM (typedLiteral type) = .ok texts) :
    values.length = texts.length ∧ ∃ ts, List.Forall₂ StaticUnit texts ts := by
  rw [mapM_ok_iff] at h
  refine ⟨h.length_eq, ?_⟩
  induction h with
  | nil => exact ⟨[], .nil⟩
  | cons hvalue _ ih =>
    obtain ⟨t, ht⟩ := typedLiteral_unit hvalue
    obtain ⟨ts, hts⟩ := ih
    exact ⟨t :: ts, .cons ht hts⟩

/-- An array mark at the end goes to the last of the alternatives alone. -/
theorem mark_last {texts : List String} {ts : List TypeTree} (h : List.Forall₂ StaticUnit texts ts)
    (hne : texts ≠ []) : ∃ texts' first last,
      " | ".intercalate texts ++ "[]" = " | ".intercalate texts' ∧ texts' ≠ [] ∧
        ts = first ++ [last] ∧ List.Forall₂ StaticUnit texts' (first ++ [.array last]) := by
  induction h with
  | nil => exact absurd rfl hne
  | @cons s t texts ts hs htexts ih =>
    cases htexts with
    | nil => exact ⟨[s ++ "[]"], [], t, by simp, by simp, rfl, .cons hs.array .nil⟩
    | cons =>
      obtain ⟨texts', first, last, hmarked, hne', hts, hunits⟩ := ih (by simp)
      refine ⟨s :: texts', t :: first, last, ?_, by simp, by rw [hts, List.cons_append],
        .cons hs hunits⟩
      rw [String.intercalate_cons_cons, String.intercalate_cons_of_ne_nil hne', ← hmarked,
        String.append_assoc]

theorem ofFlow_alternatives {texts : List String} {ts : List TypeTree}
    (h : List.Forall₂ StaticUnit texts ts) (hne : texts ≠ []) :
    ofFlow (" | ".intercalate texts) = some (anyOf ts) ∧
      (ofFlow (" | ".intercalate texts ++ "[]") = some (.array (anyOf ts)) ↔ texts.length ≤ 1) := by
  refine ⟨(StaticUnit.alternatives h hne).ofFlow_eq, ?_⟩
  obtain ⟨texts', first, last, hmarked, hne', rfl, hunits⟩ := mark_last h hne
  have hcount : texts.length = first.length + 1 := by simpa using h.length_eq
  rw [hmarked, (StaticUnit.alternatives hunits hne').ofFlow_eq]
  cases first with
  | nil => simp [anyOf, hcount]
  | cons t first => cases first <;> simp [anyOf, hcount]

theorem isWord_namedFlow (type : Tree) : Token.IsWord (((type.text?).map namedFlow).getD anyFlow) := by
  have hany : Token.IsWord anyFlow := by decide
  cases type.text? with
  | none => exact hany
  | some s =>
    show Token.IsWord (namedFlow s)
    unfold namedFlow
    split <;> decide

/-- A property that is an array of plain values, without alternatives or relations. -/
structure PlainArray (g : Graph) (v : Value) : Prop where
  noAlternatives : g.array? (g.get v "oneOf") = none
  type : g.get v "type" = .scalar (.text "array")
  items : (g.object? (g.get v "items")).isSome
  itemType : g.truthy (g.get (g.get v "items") "type")

theorem PlainArray.relatedType {g : Graph} {v : Value} (h : PlainArray g v)
    (spell : String → String) (unions : List (String × List Tree)) :
    g.relatedType spell unions v .null = (g.arrayType (g.get v "items")).map some := by
  have hexpr : g.relatedExpr spell unions v .null = .ok none := by
    rw [Graph.relatedExpr, h.noAlternatives]
    rfl
  have hplain : g.plainType spell v = (g.arrayType (g.get v "items")).map some :=
    if_pos ⟨h.type, h.items, h.itemType⟩
  rw [Graph.relatedType, hexpr, ← hplain]
  rfl

/-- The check of an array is that of a list of what its items are checked for. Its static type is that
of an array of the type of its items just when these list no more than one value: of several values the
last one alone becomes an array. -/
theorem plainArray_reads {g : Graph} {v : Value} (h : PlainArray g v) (spell : String → String)
    (unions : List (String × List Tree)) {listed : Option (List Tree)}
    (hlisted : g.listed (g.get (g.get v "items") "enum") = .ok listed) {element : String}
    (helement : declaredFlow (g.tree (g.get (g.get v "items") "type")) listed none = .ok element) :
    ∃ check p t,
      declaredPropType (g.tree (g.get (g.get v "items") "type")) listed none none = .ok check ∧
        g.relatedType spell unions v .null = .ok (some p) ∧
        p.propType = "ImmutablePropTypes.listOf(" ++ check ++ ")" ∧
        ofFlow element = some t ∧
        (ofFlow p.flow = some (.array t) ↔ (listed.getD []).length ≤ 1) := by
  have hpair : ∀ check,
      declaredPropType (g.tree (g.get (g.get v "items") "type")) listed none none = .ok check →
      g.relatedType spell unions v .null =
        .ok (some ⟨"ImmutablePropTypes.listOf(" ++ check ++ ")", element ++ "[]"⟩) := by
    intro check hcheck
    simp only [h.relatedType, Graph.arrayType, hlisted, hcheck, helement, bind, Except.bind]
    rfl
  cases listed with
  | none =>
    obtain rfl := Except.ok.inj helement
    have hword : Token.IsWord _ := isWord_namedFlow (g.tree (g.get (g.get v "items") "type"))
    have hunit := StaticUnit.word hword
    refine ⟨_, _, _, rfl, hpair _ rfl, rfl, hunit.static.ofFlow_eq, ?_⟩
    simp [hunit.array.static.ofFlow_eq]
  | some values =>
    obtain ⟨texts, htexts, rfl⟩ : ∃ texts, values.mapM
        (typedLiteral (g.tree (g.get (g.get v "items") "type"))) = .ok texts ∧
        element = " | ".intercalate texts := by
      simpa only [declaredFlow, bind_ok_iff, pure_ok_iff] using helement
    obtain ⟨hcount, ts, hunits⟩ := typedLiterals_units htexts
    have hne : texts ≠ [] := by
      rw [← List.length_pos_iff, ← hcount, List.length_pos_iff]
      exact listed_ne_nil hlisted
    obtain ⟨helements, harray⟩ := ofFlow_alternatives hunits hne
    have hcheck : declaredPropType (g.tree (g.get (g.get v "items") "type")) (some values) none none =
        .ok (oneOfPropType texts) := by
      simp only [declaredPropType, htexts, bind, Except.bind]
      rfl
    refine ⟨_, _, _, hcheck, hpair _ hcheck, rfl, helements, ?_⟩
    rw [harray, Option.getD_some, hcount]

/-- An array whose items are some of these letters. -/
def letters (values : List String) : Document := .ofTree (.object [
  ("type", .text "array"),
  ("items", .object [("type", .text "string"), ("enum", .array (values.map .text))])])

theorem plainArray_reads_letter :
    PlainArray (letters ["a"]).graph (letters ["a"]).root ∧
      ∃ p t, (letters ["a"]).graph.relatedType id [] (letters ["a"]).root .null = .ok (some p) ∧
        p.propType = "ImmutablePropTypes.listOf(PropTypes.oneOf(['a']))" ∧
        ofFlow "'a'" = some t ∧ ofFlow p.flow = some (.array t) := by
  have h : PlainArray (letters ["a"]).graph (letters ["a"]).root := ⟨rfl, rfl, rfl, rfl⟩
  have hlisted : (letters ["a"]).graph.listed
      ((letters ["a"]).graph.get ((letters ["a"]).graph.get (letters ["a"]).root "items") "enum") =
        .ok (some [.text "a"]) := rfl
  have helement : declaredFlow (.text "string") (some [.text "a"]) none = .ok "'a'" := rfl
  obtain ⟨check, p, t, hcheck, hp, hpropType, ht, hflow⟩ :=
    plainArray_reads h id [] hlisted helement
  obtain rfl : "PropTypes.oneOf(['a'])" = check := Except.ok.inj hcheck
  exact ⟨h, p, t, hp, hpropType, ht, hflow.mpr (Nat.le_refl 1)⟩

/-- Of two letters, the static type has an array of the second only. -/
theorem letters_not_array :
    declaredFlow (.text "string") (some [.text "a", .text "b"]) none = .ok "'a' | 'b'" ∧
      (letters ["a", "b"]).graph.relatedType id [] (letters ["a", "b"]).root .null =
        .ok (some ⟨"ImmutablePropTypes.listOf(PropTypes.oneOf(['a', 'b']))", "'a' | 'b'[]"⟩) ∧
      ofFlow "'a' | 'b'[]" = some (.union [.literal "'a'", .array (.literal "'b'")]) ∧
      ∀ t, ofFlow "'a' | 'b'[]" ≠ some (.array t) := by
  have hread : ofFlow "'a' | 'b'[]" = some (.union [.literal "'a'", .array (.literal "'b'")]) := by rfl
  refine ⟨rfl, rfl, hread, fun t ht => ?_⟩
  rw [hread] at ht
  cases ht

end ApiRecords
