import ApiRecords.Proofs.Properties.Defaults

/-!
Texts in the code of a model. The quoting makes one literal of any text, whose value is that text; the
constants, defaults and static types of properties have their texts from it.
-/

namespace ApiRecords

/-! ### Escapes -/

namespace Text

/-- All occurrences of a character, replaced by other characters. -/
def replaceChar (c : Char) (replacement : List Char) (cs : List Char) : List Char :=
  cs.flatMap fun d => if d = c then replacement else [d]

/-- The escapes made one kind after the other. Backslashes come first, as the others add more of them. -/
def escapeAll (cs : List Char) : List Char :=
  replaceChar '\r' ['\\', 'r'] (replaceChar '\n' ['\\', 'n']
    (replaceChar '\'' ['\\', '\''] (replaceChar '\\' ['\\', '\\'] cs)))

theorem flatMap_quoteChar (cs : List Char) : cs.flatMap quoteChar = escapeAll cs := by
  unfold escapeAll replaceChar
  rw [List.flatMap_assoc, List.flatMap_assoc, List.flatMap_assoc]
  refine List.flatMap_congr fun c _ => ?_
  unfold quoteChar
  split
  · rfl
  · rfl
  · rfl
  · rfl
  · rename_i hbackslash hquote hline hreturn
    rw [if_neg hbackslash, List.flatMap_singleton, if_neg hquote, List.flatMap_singleton, if_neg hline,
      List.flatMap_singleton, if_neg hreturn]

theorem toList_singleQuoted (s : String) :
    (singleQuoted s).toList = '\'' :: escapeAll s.toList ++ ['\''] := by
  rw [singleQuoted, String.toList_ofList, flatMap_quoteChar]

end Text

/-! ### Values and types of properties -/

open TypeTree (StaticUnit ofFlow anyOf)

theorem Tree.eq_text {t : Tree} {s : String} (h : t.eq (.text s)) : t = .text s := by
  cases t with
  | scalar a => cases a <;> simp_all [Tree.eq, Scalar.eq, Scalar.whole?]
  | _ => cases h

theorem typedLiteral_text (type : Tree) (s : String) :
    typedLiteral type (.text s) = .ok (Text.singleQuoted s) :=
  ite_self _

/-- Listed values as the alternatives of a static type: each text is the literal of it. -/
theorem typedLiterals_types {type : Tree} {values : List Tree} {literals : List String}
    (h : List.Forall₂ (fun value literal => typedLiteral type value = .ok literal) values literals) :
    ∃ types, List.Forall₂ StaticUnit literals types ∧
      List.Forall₂ (fun value type => ∀ s, value = .text s → type = .literal (Text.singleQuoted s))
        values types := by
  induction h with
  | nil => exact ⟨[], .nil, .nil⟩
  | @cons value literal _ _ hvalue _ ih =>
    obtain ⟨types, hunits, htypes⟩ := ih
    by_cases htext : ∃ s, value = .text s
    · obtain ⟨s, rfl⟩ := htext
      obtain rfl := Except.ok.inj ((typedLiteral_text type s).symm.trans hvalue)
      refine ⟨_, .cons (.quoted (singleQuoted_spells s)) hunits, .cons (fun t ht => ?_) htypes⟩
      cases ht
      rfl
    · obtain ⟨first, hfirst⟩ := typedLiteral_unit hvalue
      exact ⟨_, .cons hfirst hunits, .cons (fun s hs => absurd ⟨s, hs⟩ htext) htypes⟩

/-- The texts of a property in the code. -/
structure Property.KeepsTexts (p : Property) : Prop where
  constants : ∀ c ∈ p.constants.getD [], ∀ s, c.value = .text s →
    c.literal = Text.singleQuoted s
  default : ∀ s, p.default = .text s →
    (∃ c ∈ p.constants.getD [], c.value = .text s ∧ p.defaultValue = c.name) ∨
      Expression.literal? p.defaultValue = some (.text s)
  types : ∀ constants, p.constants = some constants →
    ∃ types, ofFlow p.flowType = some (anyOf types) ∧
      List.Forall₂ (fun c type => ∀ s, c.value = .text s → type = .literal (Text.singleQuoted s))
        constants types

theorem defaultExpr_text {constants : List Constant} {isText : Bool} {s expr : String}
    (h : defaultExpr constants isText (.text s) = .ok expr) :
    (∃ c ∈ constants, c.value = .text s ∧ expr = c.name) ∨ Expression.literal? expr = some (.text s) := by
  rw [defaultExpr, if_neg (by simp [Tree.isNull])] at h
  split at h
  · next c hfind =>
    have hvalue : c.value.eq (.text s) := by simpa using List.find?_some hfind
    exact .inl ⟨c, List.mem_of_find?_eq_some hfind, Tree.eq_text hvalue, (Except.ok.inj h).symm⟩
  · split at h
    · obtain rfl := Except.ok.inj h
      exact .inr (Expression.literal?_singleQuoted s)
    · obtain rfl := Except.ok.inj h
      exact .inr (Expression.literal?_json ⟨⟨rfl, rfl⟩, .scalar trivial⟩)

theorem property_keepsTexts {g : Graph} {spell : String → String} {unions : List (String × List Tree)}
    {key : String} {v : Value} {dependency : Option Dependency} {p : Property}
    (h : g.property spell unions key v dependency = .ok p) : p.KeepsTexts := by
  obtain ⟨listed, hp⟩ := Graph.projects h
  have hdefault := hp.defaultValue
  have hlisted := hp.listed
  have hconstants := hp.constants
  have hlisting : ∀ constants, p.constants = some constants →
      (∀ c ∈ constants, ∀ s, c.value = .text s → c.literal = Text.singleQuoted s) ∧
        ∃ types, ofFlow p.flowType = some (anyOf types) ∧
          List.Forall₂ (fun c type => ∀ s, c.value = .text s → type = .literal (Text.singleQuoted s))
            constants types := by
    intro constants hsome
    cases listed with
    | none => cases (Except.ok.inj hconstants).trans hsome
    | some values =>
      obtain ⟨_, literals, hsome', hholds, -, hliterals, hflow⟩ := property_listed h hlisted
      obtain rfl := Option.some.inj (hsome.symm.trans hsome')
      refine ⟨fun c hc s hs => ?_, ?_⟩
      · obtain ⟨value, hvalue⟩ := exists_of_forall₂ hholds.flip c hc
        have hliteral := hvalue.literal_eq
        rw [← hvalue.value_eq, hs] at hliteral
        exact (Except.ok.inj hliteral).symm
      · obtain ⟨types, hunits, htypes⟩ := typedLiterals_types hliterals
        have hne : literals ≠ [] := by
          rintro rfl
          cases hliterals
          exact listed_ne_nil hlisted rfl
        refine ⟨types, hflow ▸ (ofFlow_alternatives hunits hne).1, ?_⟩
        refine (forall₂_comp hholds.flip htypes).imp ?_
        rintro c type ⟨value, hc, htype⟩ s hs
        exact htype s (hc.value_eq.symm.trans hs)
  refine ⟨?_, fun s hs => defaultExpr_text (hs ▸ hdefault), fun constants hsome => (hlisting constants hsome).2⟩
  cases hsome : p.constants with
  | none => nofun
  | some constants => exact (hlisting constants hsome).1

/-! ### Texts as literals -/

open ObjectNotation in
/-- A text between quotes, and its value. Read a character at a time, nothing before the last quote ends the
text or is no part of one, and the value is that text, so that different texts are written differently.
Listed texts have this form under any declared type; and in a blueprint that is accepted, texts have it as
constants, as defaults, unless a constant of the same text is named, and as alternatives of static types,
which are read as these literals. -/
theorem blueprint_texts :
    (∀ (chars : NameChars) (s : String),
      (Text.singleQuoted s).toList = '\'' :: Text.escapeAll s.toList ++ ['\''] ∧
      run chars (.text '\'' []) (Text.escapeAll s.toList) = some ([], .text '\'' (units s.toList)) ∧
      tokens chars (Text.singleQuoted s).toList = some [.text (units s.toList)] ∧
      decode (units s.toList) = some s.toList) ∧
    Function.Injective Text.singleQuoted ∧
    (∀ (type : Tree) (s : String), typedLiteral type (.text s) = .ok (Text.singleQuoted s)) ∧
    ∀ (g : Graph) (options : Options) (name : Tree) (model : Value) (d : Blueprint),
      g.blueprint options name model = .ok (some d) → ∀ p ∈ d.properties, p.KeepsTexts := by
  refine ⟨fun chars s => ?_, fun s t hst => ?_, typedLiteral_text, fun g options name model d h p hp => ?_⟩
  · refine ⟨Text.toList_singleQuoted s, ?_, tokens_singleQuoted s, decode_units s.toList⟩
    rw [← Text.flatMap_quoteChar]
    exact run_quoteChars [] s.toList
  · have hvalue := Expression.literal?_singleQuoted s
    rw [hst, Expression.literal?_singleQuoted] at hvalue
    cases hvalue
    rfl
  · obtain ⟨identity, s, -, -, hd⟩ := Graph.survey_of_blueprint h
    obtain ⟨m, dependency, -, hproperty⟩ :=
      exists_of_forall₂ (Survey.describes hd).properties.flip p hp
    exact property_keepsTexts hproperty

/-- Folders that end in a backslash, or have a quote in their name. -/
def folderSchema : Tree := .object [
  ("type", .text "string"),
  ("enum", .array [.text "C:\\", .text "it's"]),
  ("default", .text "C:\\'")]

theorem blueprint_texts_folder : ∃ d p,
    (taskWith "folder" folderSchema).graph.blueprint plainOptions (.text "Task")
      (taskWith "folder" folderSchema).root = .ok (some d) ∧
      p ∈ d.properties ∧ p.KeepsTexts ∧
      Expression.literal? p.defaultValue = some (.text "C:\\'") := by
  obtain ⟨d, p, hd, hp, hdefault, hnames⟩ : ∃ d p,
      (taskWith "folder" folderSchema).graph.blueprint plainOptions (.text "Task")
        (taskWith "folder" folderSchema).root = .ok (some d) ∧
        p ∈ d.properties ∧ p.default = .text "C:\\'" ∧
        ∀ c ∈ p.constants.getD [], c.value ≠ .text "C:\\'" :=
    ⟨_, _, rfl, .tail _ (.head _), rfl, by simp⟩
  have hkeeps : p.KeepsTexts := blueprint_texts.2.2.2 _ _ _ _ d hd p hp
  refine ⟨d, p, hd, hp, hkeeps, (hkeeps.default _ hdefault).resolve_left ?_⟩
  rintro ⟨c, hc, hvalue, -⟩
  exact hnames c hc hvalue

end ApiRecords
