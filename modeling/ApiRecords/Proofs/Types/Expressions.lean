import ApiRecords.Proofs.Members
import ApiRecords.Proofs.Types.Grammar
import ApiRecords.Types.Expr

/-!
The two notations of a type that is made of models describe one type: read back, each gives the tree
of the type.
-/

namespace ApiRecords

open Token

namespace TypeTree

/-! ### Texts that describe a type -/

/-- A static type, as a text. -/
def Static (s : String) (t : TypeTree) : Prop := ∃ ts, Spells s ts ∧ IsType ts t

/-- A static type that holds together without parentheses. -/
def StaticUnit (s : String) (t : TypeTree) : Prop := ∃ ts, Spells s ts ∧ IsUnit ts t

def Check (s : String) (t : TypeTree) : Prop := ∃ ts, Spells s ts ∧ IsCheck ts t

theorem forall₂_spells {α : Type} {P : List Token → α → Prop} {texts : List String} {xs : List α}
    (h : List.Forall₂ (fun s x => ∃ ts, Spells s ts ∧ P ts x) texts xs) :
    ∃ tss, List.Forall₂ Spells texts tss ∧ List.Forall₂ P tss xs := by
  induction h with
  | nil => exact ⟨[], .nil, .nil⟩
  | cons hs _ ih =>
    obtain ⟨ts, hspells, hread⟩ := hs
    obtain ⟨tss, htexts, hxs⟩ := ih
    exact ⟨ts :: tss, .cons hspells htexts, .cons hread hxs⟩

theorem Static.ofFlow_eq {s : String} {t : TypeTree} (h : Static s t) : ofFlow s = some t := by
  obtain ⟨ts, hs, ht⟩ := h
  have hread := ht ts.length (Nat.le_refl _) [] (by simp [EndsType])
  rw [List.append_nil] at hread
  rw [ofFlow, hs.read_eq, hread]
  rfl

theorem Check.ofPropType_eq {s : String} {t : TypeTree} (h : Check s t) : ofPropType s = some t := by
  obtain ⟨ts, hs, ht⟩ := h
  have hread := ht ts.length (Nat.le_refl _) [] trivial
  rw [List.append_nil] at hread
  rw [ofPropType, hs.read_eq, hread]
  rfl

/-- A text that is one token, as which it can name a field. -/
def IsKey (s : String) : Prop := Spells s [.word s] ∨ Spells s [.literal s]

theorem fields_spell {read : Nat → List Token → Option (TypeTree × List Token)}
    {follow : List Token → Prop} {colon : String} (hcolon : Cuts colon [.mark ':'])
    {fields : List (String × String)} {types : List (String × TypeTree)}
    (h : MembersRel (fun s t => ∃ ts, Spells s ts ∧ ReadsWithin read follow ts t) fields types)
    (hkeys : ∀ field ∈ fields, IsKey field.1) :
    ∃ tss, List.Forall₂ Spells (fields.map fun (key, value) => key ++ colon ++ value) tss ∧
      List.Forall₂ (ReadsWithin (fun n => readField (read n)) follow) tss types := by
  refine forall₂_spells ?_
  induction h with
  | nil => exact .nil
  | @cons field type _ _ hfield _ ih =>
    obtain ⟨key, s⟩ := field
    obtain ⟨_, t⟩ := type
    obtain ⟨rfl, ts, hs, ht⟩ := hfield
    simp only [List.mem_cons, forall_eq_or_imp] at hkeys
    refine .cons ?_ (ih hkeys.2)
    rcases hkeys.1 with hkey | hkey
    · exact ⟨_, hkey.append_of_cuts hcolon hs, ht.field (.inl rfl)⟩
    · exact ⟨_, hkey.append_of_cuts hcolon hs, ht.field (.inr rfl)⟩

namespace StaticUnit

variable {s : String} {t : TypeTree}

theorem word (h : IsWord s) : StaticUnit s (name s) := ⟨_, h.spells, .word s⟩

theorem quoted (h : Spells s [.literal s]) : StaticUnit s (literal s) := ⟨_, h, .quoted s⟩

theorem array (h : StaticUnit s t) : StaticUnit (s ++ "[]") (array t) := by
  obtain ⟨ts, hs, ht⟩ := h
  exact ⟨_, hs.before (Opens.cuts (fun _ => rfl) rfl), ht.suffix⟩

theorem alternatives {texts : List String} {ts : List TypeTree}
    (h : List.Forall₂ StaticUnit texts ts) (hne : texts ≠ []) :
    Static (" | ".intercalate texts) (anyOf ts) := by
  obtain ⟨tss, hspells, hunits⟩ := forall₂_spells h
  refine ⟨_, Spells.intercalate (Opens.cuts (fun _ => rfl) rfl) hspells, IsUnit.alternatives hunits ?_⟩
  rintro rfl
  cases hspells
  exact hne rfl

theorem static (h : StaticUnit s t) : Static s t := by
  simpa [anyOf] using alternatives (.cons h .nil) (by simp)

end StaticUnit

theorem Static.parens {s : String} {t : TypeTree} (h : Static s t) :
    StaticUnit ("(" ++ s ++ ")") t := by
  obtain ⟨ts, hs, ht⟩ := h
  exact ⟨_, hs.between (fun _ => rfl) (Opens.cuts (fun _ => rfl) rfl), ht.parens⟩

theorem cuts_commaBlank : Cuts ", " [.mark ','] := Opens.cuts (fun _ => rfl) rfl

theorem Static.tuple {texts : List String} {ts : List TypeTree} (h : List.Forall₂ Static texts ts) :
    StaticUnit ("[" ++ ", ".intercalate texts ++ "]") (tuple ts) := by
  have hopen : Opens "[" [.mark '['] := fun _ => rfl
  have hclose : Cuts "]" [.mark ']'] := Opens.cuts (fun _ => rfl) rfl
  obtain ⟨tss, hspells, hreads⟩ := forall₂_spells h
  exact ⟨_, (Spells.intercalate cuts_commaBlank hspells).between hopen hclose, IsType.tuple hreads⟩

/-- Fields in braces, with blanks or without. -/
theorem Static.record {opening closing : String} (hopen : Opens opening [.mark '\x7b'])
    (hclose : Cuts closing [.mark '\x7d']) {fields : List (String × String)}
    {types : List (String × TypeTree)} (h : MembersRel Static fields types)
    (hkeys : ∀ field ∈ fields, IsKey field.1) :
    StaticUnit (opening ++ ", ".intercalate (fields.map fun (key, value) => key ++ ": " ++ value) ++
      closing) (record types) := by
  have hcolon : Cuts ": " [.mark ':'] := Opens.cuts (fun _ => rfl) rfl
  obtain ⟨tss, hspells, hreads⟩ := fields_spell hcolon h hkeys
  exact ⟨_, (Spells.intercalate cuts_commaBlank hspells).between hopen hclose,
    IsType.record hreads⟩

namespace Check

theorem model {s : String} (h : IsWord s) : Check (s ++ "PropType") (name s) :=
  ⟨_, (h.append (by decide)).spells, .model s⟩

theorem listOf {s : String} {t : TypeTree} (h : Check s t) :
    Check ("ImmutablePropTypes.listOf(" ++ s ++ ")") (array t) := by
  obtain ⟨ts, hs, ht⟩ := h
  have hopen : Opens "ImmutablePropTypes.listOf("
      [.word "ImmutablePropTypes.listOf", .mark '('] := fun _ => rfl
  have hclose : Cuts ")" [.mark ')'] := Opens.cuts (fun _ => rfl) rfl
  exact ⟨_, hs.between hopen hclose, ht.listOf⟩

theorem mapContains {fields : List (String × String)} {types : List (String × TypeTree)}
    (h : MembersRel Check fields types) (hkeys : ∀ field ∈ fields, IsKey field.1) :
    Check ("ImmutablePropTypes.mapContains(" ++ compactObject fields ++ ")")
      (TypeTree.record types) := by
  have hcolon : Cuts ":" [.mark ':'] := Opens.cuts (fun _ => rfl) rfl
  have hcomma : Cuts "," [.mark ','] := Opens.cuts (fun _ => rfl) rfl
  have hopen : Opens "ImmutablePropTypes.mapContains("
      [.word "ImmutablePropTypes.mapContains", .mark '('] := fun _ => rfl
  have hbrace : Opens "\x7b" [.mark '\x7b'] := fun _ => rfl
  have hbraceClose : Cuts "\x7d" [.mark '\x7d'] := Opens.cuts (fun _ => rfl) rfl
  have hclose : Cuts ")" [.mark ')'] := Opens.cuts (fun _ => rfl) rfl
  obtain ⟨tss, hspells, hreads⟩ := fields_spell hcolon h hkeys
  have hobject : Spells (compactObject fields) _ :=
    (Spells.intercalate hcomma hspells).between hbrace hbraceClose
  exact ⟨_, hobject.between hopen hclose, by simpa using IsCheck.mapContains hreads⟩

theorem oneOfType {texts : List String} {ts : List TypeTree} (h : List.Forall₂ Check texts ts) :
    Check ("PropTypes.oneOfType([" ++ ", ".intercalate texts ++ "])") (anyOf ts) := by
  have hopen : Opens "PropTypes.oneOfType(["
      [.word "PropTypes.oneOfType", .mark '(', .mark '['] := fun _ => rfl
  have hclose : Cuts "])" [.mark ']', .mark ')'] := Opens.cuts (fun _ => rfl) rfl
  obtain ⟨tss, hspells, hreads⟩ := forall₂_spells h
  exact ⟨_, (Spells.intercalate cuts_commaBlank hspells).between hopen hclose,
    IsCheck.oneOfType hreads⟩

end Check

end TypeTree

/-! ### The type of an expression -/

namespace TypeTree

mutual

/-- The type as static types describe it, which have no type without alternatives: any value will do
in its place. -/
def withAny : TypeTree → TypeTree
  | name s => name s
  | literal s => literal s
  | tuple ts => tuple (listWithAny ts)
  | union [] => name "any"
  | union (t :: ts) => union (t.withAny :: listWithAny ts)
  | array t => array t.withAny
  | record fields => record (fieldsWithAny fields)

def listWithAny : List TypeTree → List TypeTree
  | [] => []
  | t :: ts => t.withAny :: listWithAny ts

def fieldsWithAny : List (String × TypeTree) → List (String × TypeTree)
  | [] => []
  | (key, t) :: fields => (key, t.withAny) :: fieldsWithAny fields

end

theorem listWithAny_names (names : List String) :
    listWithAny (names.map name) = names.map name := by
  induction names with
  | nil => rfl
  | cons n names ih => rw [List.map_cons, listWithAny, ih, withAny]

theorem withAny_names {names : List String} (hne : names ≠ []) :
    (anyOf (names.map name)).withAny = anyOf (names.map name) := by
  match names with
  | [n] => simp [anyOf, withAny]
  | n :: n' :: names => simp [anyOf, withAny, listWithAny, listWithAny_names]

end TypeTree

namespace TypeExpr

mutual

def tree : TypeExpr → TypeTree
  | model name => .name name
  | union names => .anyOf (names.map .name)
  | list e => .array e.tree
  | record fields => .record (treeFields fields)

def treeFields : List (String × TypeExpr) → List (String × TypeTree)
  | [] => []
  | (key, e) :: es => (key, e.tree) :: treeFields es

end

mutual

/-- Whether all names and all keys are words. -/
def Worded : TypeExpr → Prop
  | model name => IsWord name
  | union names => ∀ name ∈ names, IsWord name
  | list e => e.Worded
  | record fields => FieldsWorded fields

def FieldsWorded : List (String × TypeExpr) → Prop
  | [] => True
  | (key, e) :: es => IsWord key ∧ e.Worded ∧ FieldsWorded es

end

theorem keys_propTypeFields (fields : List (String × TypeExpr)) :
    (propTypeFields fields).map Prod.fst = fields.map Prod.fst := by
  induction fields with
  | nil => rfl
  | cons field fields ih => rw [propTypeFields, List.map_cons, List.map_cons, ih]

theorem FieldsWorded.key {fields : List (String × TypeExpr)} (h : FieldsWorded fields) :
    ∀ key ∈ fields.map Prod.fst, IsWord key := by
  induction fields with
  | nil => nofun
  | cons field fields ih =>
    simp only [List.map_cons, List.mem_cons, forall_eq_or_imp]
    exact ⟨h.1, ih h.2.2⟩

mutual

theorem check_propType : (e : TypeExpr) → e.Worded → TypeTree.Check e.propType e.tree
  | model _, h => .model h
  | union names, h => by
    refine TypeTree.Check.oneOfType ?_
    rw [List.forall₂_map_left_iff, List.forall₂_map_right_iff, List.forall₂_same]
    exact fun name hname => .model (h name hname)
  | list e, h => (check_propType e h).listOf
  | record fields, h => by
    refine TypeTree.Check.mapContains (check_propTypeFields fields h) fun field hfield => ?_
    have hkey : field.1 ∈ fields.map Prod.fst := by
      rw [← keys_propTypeFields]
      exact List.mem_map_of_mem hfield
    exact .inl (h.key _ hkey).spells

theorem check_propTypeFields : (fields : List (String × TypeExpr)) → FieldsWorded fields →
    MembersRel TypeTree.Check (propTypeFields fields) (treeFields fields)
  | [], _ => .nil
  | (_, e) :: es, h => by
    rw [FieldsWorded] at h
    exact .cons ⟨rfl, check_propType e h.2.1⟩ (check_propTypeFields es h.2.2)

end

theorem keys_flowFields (fields : List (String × TypeExpr)) :
    (flowFields fields).map Prod.fst = fields.map Prod.fst := by
  induction fields with
  | nil => rfl
  | cons field fields ih => rw [flowFields, List.map_cons, List.map_cons, ih]

theorem static_flow_union {names : List String} (h : ∀ name ∈ names, IsWord name) :
    TypeTree.Static (union names).flow (union names).tree.withAny ∧
      (Text.contains (union names).flow " | " = false →
        TypeTree.StaticUnit (union names).flow (union names).tree.withAny) := by
  have hunit : ∀ name ∈ names, TypeTree.StaticUnit name (.name name) := fun name hname =>
    .word (h name hname)
  have hflow : (union names).flow =
    if " | ".intercalate names = "" then "any" else " | ".intercalate names := rfl
  rcases Decidable.em (names = []) with rfl | hne
  · have hany : TypeTree.StaticUnit "any" (.name "any") := .word (by decide)
    exact ⟨hany.static, fun _ => hany⟩
  have hjoined : " | ".intercalate names ≠ "" := by
    match names with
    | [name] => simpa using (h name (by simp)).1
    | name :: name' :: names => simp [String.intercalate_cons_cons]
  have htree : (union names).tree.withAny = .anyOf (names.map .name) := TypeTree.withAny_names hne
  rw [hflow, if_neg hjoined, htree]
  refine ⟨TypeTree.StaticUnit.alternatives ?_ hne, fun hbar => ?_⟩
  · rw [List.forall₂_map_right_iff, List.forall₂_same]
    exact hunit
  · match names with
    | [name] => simpa [TypeTree.anyOf] using hunit name (by simp)
    | name :: name' :: names =>
      rw [String.intercalate_cons_cons, Text.contains_append] at hbar
      cases hbar

mutual

theorem static_flow : (e : TypeExpr) → e.Worded → TypeTree.Static e.flow e.tree.withAny ∧
    (Text.contains e.flow " | " = false → TypeTree.StaticUnit e.flow e.tree.withAny)
  | model name, h => by
    have hunit : TypeTree.StaticUnit name (.name name) := .word h
    exact ⟨hunit.static, fun _ => hunit⟩
  | union names, h => static_flow_union h
  | list e, h => by
    obtain ⟨hstatic, hunit⟩ := static_flow e h
    have harray : TypeTree.StaticUnit (list e).flow (.array e.tree.withAny) := by
      show TypeTree.StaticUnit
        (if Text.contains e.flow " | " then "(" ++ e.flow ++ ")[]" else e.flow ++ "[]") _
      split
      · have hclose : "(" ++ e.flow ++ ")[]" = "(" ++ e.flow ++ ")" ++ "[]" :=
          (String.append_assoc : "(" ++ e.flow ++ ")" ++ "[]" = "(" ++ e.flow ++ (")" ++ "[]")).symm
        rw [hclose]
        exact hstatic.parens.array
      · rename_i hbar
        exact (hunit (by simpa using hbar)).array
    exact ⟨harray.static, fun _ => harray⟩
  | record fields, h => by
    have hrecord : TypeTree.StaticUnit (flowRecord (flowFields fields))
        (.record (TypeTree.fieldsWithAny (treeFields fields))) := by
      refine TypeTree.Static.record (fun _ => rfl) (Opens.cuts (fun _ => rfl) rfl)
        (static_flowFields fields h) fun field hfield => ?_
      have hkey : field.1 ∈ fields.map Prod.fst := by
        rw [← keys_flowFields]
        exact List.mem_map_of_mem hfield
      exact .inl (h.key _ hkey).spells
    exact ⟨hrecord.static, fun _ => hrecord⟩

theorem static_flowFields : (fields : List (String × TypeExpr)) → FieldsWorded fields →
    MembersRel TypeTree.Static (flowFields fields) (TypeTree.fieldsWithAny (treeFields fields))
  | [], _ => .nil
  | (_, e) :: es, h => by
    rw [FieldsWorded] at h
    exact .cons ⟨rfl, (static_flow e h.2.1).1⟩ (static_flowFields es h.2.2)

end

/-- Read back, both notations of a type give its tree. -/
theorem notations_read {e : TypeExpr} (h : e.Worded) :
    TypeTree.ofPropType e.propType = some e.tree ∧
      TypeTree.ofFlow e.flow = some e.tree.withAny :=
  ⟨(check_propType e h).ofPropType_eq, (static_flow e h).1.ofFlow_eq⟩

end TypeExpr

end ApiRecords
