import ApiRecords.Model.Constant
import ApiRecords.Proofs.Json.ReadBack
import ApiRecords.Proofs.Objects.Texts
import ApiRecords.Proofs.Words

/-!
What the expression of a value stands for, in the scope of constants. A literal is a text between single
quotes, or JSON, where all numbers are doubles and `__proto__` is not a key like others.
-/

namespace ApiRecords

def Scalar.inDoubles : Scalar → Scalar
  | .int n => .double (.ofRatio (n < 0) n.natAbs 1)
  | s => s

namespace Tree

mutual

/-- The value where all numbers are doubles. -/
def inDoubles : Tree → Tree
  | scalar s => scalar s.inDoubles
  | array items => array (itemsInDoubles items)
  | object members => object (membersInDoubles members)
  | back levels => back levels

def itemsInDoubles : List Tree → List Tree
  | [] => []
  | t :: ts => t.inDoubles :: itemsInDoubles ts

def membersInDoubles : List (String × Tree) → List (String × Tree)
  | [] => []
  | (key, t) :: ts => (key, t.inDoubles) :: membersInDoubles ts

end

mutual

/-- Whether no object in it has a key `__proto__`. -/
def plainKeys : Tree → Bool
  | scalar _ => true
  | array items => plainItems items
  | object members => plainMembers members
  | back _ => true

def plainItems : List Tree → Bool
  | [] => true
  | t :: ts => t.plainKeys && plainItems ts

def plainMembers : List (String × Tree) → Bool
  | [] => true
  | (key, t) :: ts => key ≠ "__proto__" && t.plainKeys && plainMembers ts

end

theorem inDoubles_eq_text {t : Tree} {s : String} : t.inDoubles = text s ↔ t = text s := by
  refine ⟨fun h => ?_, fun h => by rw [h]; rfl⟩
  cases t with
  | scalar a => cases a <;> simp_all [inDoubles, Scalar.inDoubles]
  | _ => cases h

/-! ### The same value in any order of keys -/

@[simp] theorem keys_membersInDoubles (ts : List (String × Tree)) :
    (membersInDoubles ts).map Prod.fst = ts.map Prod.fst := by
  induction ts with
  | nil => rfl
  | cons m ts ih => simp [membersInDoubles, ih]

/-- A value as JSON text has it, but for back edges. -/
structure Sound (t : Tree) : Prop where
  keys : t.distinctKeys
  form : t.HasForm

theorem Sound.readable {t : Tree} (h : t.Sound) (hcyclic : t.cyclic = false) : t.Readable :=
  ⟨⟨hcyclic, h.keys⟩, h.form⟩

mutual

theorem proper_inDoubles : (t : Tree) → t.Proper → t.inDoubles.Proper
  | scalar s, _ => ⟨rfl, rfl⟩
  | array items, h => by
    obtain ⟨hcyclic, hkeys⟩ := properItems_inDoubles items h.acyclic h.keys
    exact ⟨hcyclic, hkeys⟩
  | object members, h => by
    have hkeys := Bool.and_eq_true_iff.mp h.keys
    obtain ⟨hcyclic, hdistinct⟩ := properMembers_inDoubles members h.acyclic hkeys.2
    refine ⟨hcyclic, Bool.and_eq_true_iff.mpr ⟨?_, hdistinct⟩⟩
    rw [keys_membersInDoubles]
    exact hkeys.1
  | back _, h => by cases h.acyclic

theorem properItems_inDoubles : (ts : List Tree) → cyclicItems ts = false → distinctItems ts →
    cyclicItems (itemsInDoubles ts) = false ∧ distinctItems (itemsInDoubles ts)
  | [], _, _ => ⟨rfl, rfl⟩
  | t :: ts, hcyclic, hkeys => by
    simp only [cyclicItems, Bool.or_eq_false_iff] at hcyclic
    simp only [distinctItems, Bool.and_eq_true] at hkeys
    obtain ⟨hfirst, hfirst'⟩ := proper_inDoubles t ⟨hcyclic.1, hkeys.1⟩
    obtain ⟨hrest, hrest'⟩ := properItems_inDoubles ts hcyclic.2 hkeys.2
    simp [itemsInDoubles, cyclicItems, distinctItems, hfirst, hfirst', hrest, hrest']

theorem properMembers_inDoubles : (ts : List (String × Tree)) → cyclicMembers ts = false →
    distinctMembers ts → cyclicMembers (membersInDoubles ts) = false ∧ distinctMembers (membersInDoubles ts)
  | [], _, _ => ⟨rfl, rfl⟩
  | (key, t) :: ts, hcyclic, hkeys => by
    simp only [cyclicMembers, Bool.or_eq_false_iff] at hcyclic
    simp only [distinctMembers, Bool.and_eq_true] at hkeys
    obtain ⟨hfirst, hfirst'⟩ := proper_inDoubles t ⟨hcyclic.1, hkeys.1⟩
    obtain ⟨hrest, hrest'⟩ := properMembers_inDoubles ts hcyclic.2 hkeys.2
    simp [membersInDoubles, cyclicMembers, distinctMembers, hfirst, hfirst', hrest, hrest']

end

mutual

/-- A value is its own in the same order. -/
theorem reordered_self : (t : Tree) → t.Proper → t.reordered t
  | scalar s, _ => by simp [reordered]
  | array items, h => reorderedItems_self items h.acyclic h.keys
  | object members, h => by
    have hkeys := Bool.and_eq_true_iff.mp h.keys
    have hmembers := reorderedMembers_self members members h.acyclic hkeys.2 fun m hm =>
      lookup_of_mem (of_decide_eq_true hkeys.1) hm
    simp [reordered, hmembers]
  | back _, h => by cases h.acyclic

theorem reorderedItems_self : (ts : List Tree) → cyclicItems ts = false → distinctItems ts →
    reorderedItems ts ts
  | [], _, _ => rfl
  | t :: ts, hcyclic, hkeys => by
    simp only [cyclicItems, Bool.or_eq_false_iff] at hcyclic
    simp only [distinctItems, Bool.and_eq_true] at hkeys
    have hfirst := reordered_self t ⟨hcyclic.1, hkeys.1⟩
    have hrest := reorderedItems_self ts hcyclic.2 hkeys.2
    simp [reorderedItems, hfirst, hrest]

theorem reorderedMembers_self : (ts us : List (String × Tree)) → cyclicMembers ts = false →
    distinctMembers ts → (∀ m ∈ ts, us.lookup m.1 = some m.2) → reorderedMembers ts us
  | [], _, _, _, _ => rfl
  | (key, t) :: ts, us, hcyclic, hkeys, hlookup => by
    simp only [cyclicMembers, Bool.or_eq_false_iff] at hcyclic
    simp only [distinctMembers, Bool.and_eq_true] at hkeys
    obtain ⟨hkey, hlookup⟩ := List.forall_mem_cons.mp hlookup
    have hfirst := reordered_self t ⟨hcyclic.1, hkeys.1⟩
    have hrest := reorderedMembers_self ts us hcyclic.2 hkeys.2 hlookup
    simp [reorderedMembers, hkey, hfirst, hrest]

end

end Tree

/-! ### Expressions -/

namespace Expression

open ObjectNotation

/-- The value of a literal: a text between single quotes, or JSON. -/
def literal? (expr : String) : Option Tree :=
  if expr.toList.head? = some '\'' then
    match tokens asciiNames expr.toList with
    | some [.text units] => (decode units).map fun cs => .text (String.ofList cs)
    | _ => none
  else (Json.read? expr).bind fun t => if t.plainKeys then some t.inDoubles else none

/-- The value of an expression where these constants are in scope. A name that is given twice, or that is
no identifier, stands for nothing. -/
def value? (constants : List Constant) (expr : String) : Option Tree :=
  match constants.filter (·.name = expr) with
  | [] => literal? expr
  | [c] => if asciiNames.spellName c.name.toList then literal? c.literal else none
  | _ => none

theorem literal?_singleQuoted (s : String) : literal? (Text.singleQuoted s) = some (.text s) := by
  have hhead : (Text.singleQuoted s).toList.head? = some '\'' := by simp [Text.singleQuoted]
  rw [literal?, if_pos hhead, tokens_singleQuoted]
  simp [decode_units]

/-- Where JSON text begins with, and what words it has, texts apart. -/
theorem json_cases {t : Tree} (h : t.cyclic = false) :
    (∃ c ∈ ['"', '[', '\x7b'], (t.json .spaced).toList.head? = some c) ∨
      ∃ s : Scalar, (∀ text, s ≠ .text text) ∧ t.json .spaced = Json.writeScalar true s := by
  cases t with
  | scalar s =>
    by_cases hs : ∃ text, s = .text text
    · obtain ⟨text, rfl⟩ := hs
      exact .inl ⟨'"', by decide, by simp [Tree.json, Tree.jsonAt, Json.writeScalar, Json.writeText]⟩
    · exact .inr ⟨s, not_exists.mp hs, rfl⟩
  | array items =>
    refine .inl ⟨'[', by decide, ?_⟩
    rw [Tree.json, Tree.jsonAt, enclose_spaced]
    simp
  | object members =>
    refine .inl ⟨'\x7b', by decide, ?_⟩
    rw [Tree.json, Tree.jsonAt, enclose_spaced]
    simp
  | back levels => cases h

/-- A value without parts other than a text is written in characters of words and numbers. -/
theorem forall_mem_writeScalar {P : Char → Prop} (hdigit : ∀ c, c.isDigit → P c)
    (hmarks : ∀ c ∈ ['.', 'e', '+', '-'], P c)
    (hwords : ∀ w ∈ ["null", "true", "false", "NaN", "Infinity"], ∀ c ∈ w.toList, P c) {s : Scalar}
    (h : ∀ text, s ≠ .text text) : ∀ c ∈ (Json.writeScalar true s).toList, P c := by
  cases s with
  | null => exact hwords "null" (by decide)
  | bool b =>
    cases b with
    | false => exact hwords "false" (by decide)
    | true => exact hwords "true" (by decide)
  | int n => exact forall_mem_toString hdigit (hmarks _ (by decide)) n
  | double x =>
    exact NumberLayout.forall_mem_write hdigit hmarks (hwords "Infinity" (by decide))
      (hwords "NaN" (by decide)) x
  | text s => exact absurd rfl (h s)

theorem head?_json {t : Tree} (h : t.cyclic = false) : (t.json .spaced).toList.head? ≠ some '\'' := by
  rcases json_cases h with ⟨c, hc, hhead⟩ | ⟨s, hs, heq⟩
  · rw [hhead]
    rintro ⟨⟩
    simp at hc
  · have hall := forall_mem_writeScalar (P := (· ≠ '\'')) (fun c hc => by rintro rfl; cases hc) (by simp)
      (by simp) hs
    rw [heq]
    exact fun hhead => hall _ (List.mem_of_head? hhead) rfl

theorem literal?_json {t : Tree} (h : t.Readable) :
    literal? (t.json .spaced) = if t.plainKeys then some t.inDoubles else none := by
  rw [literal?, if_neg (head?_json h.acyclic), Json.read?_json h, Option.bind_some]

/-- The literal of a value stands for it. -/
theorem literal?_literal {t : Tree} (ht : t.Sound) {expr : String} (h : literal t = .ok expr) : literal? expr = if t.plainKeys then some t.inDoubles else none := by
  have hjson (h : t.json? .spaced = .ok expr) :
      literal? expr = if t.plainKeys then some t.inDoubles else none := by
    unfold Tree.json? at h
    split at h
    · cases h
    · next hcyclic =>
      cases h
      exact literal?_json (ht.readable (Bool.eq_false_iff.mpr hcyclic))
  cases t with
  | scalar s =>
    cases s with
    | text s =>
      cases h
      exact literal?_singleQuoted s
    | _ => exact hjson h
  | _ => exact hjson h

/-! ### Names of constants -/

/-- A name of a constant has a separator, and nothing that a text or a container begins with. -/
theorem name_chars (value : Tree) (property : String) : '_' ∈ (Constant.nameOf value property).toList ∧
    ∀ c ∈ (Constant.nameOf value property).toList, c ∉ ['\'', '"', '[', '\x7b'] := by
  have hcase (s : String) : ∀ c ∈ (Text.constantCase s).toList, c ∉ ['\'', '"', '[', '\x7b'] := by
    intro c hc
    rw [Text.constantCase, String.toList_intercalate] at hc
    rcases Text.mem_intercalate hc with hsep | ⟨w, hw, hc⟩
    · obtain rfl := List.mem_singleton.mp hsep
      decide
    · simp only [Text.words, List.map_map, List.mem_map] at hw
      obtain ⟨w, hw, rfl⟩ := hw
      simp only [Function.comp, Text.upper, String.toList_ofList, List.mem_map] at hc
      obtain ⟨d, hd, rfl⟩ := hc
      have hd := Text.wordsOf_chars _ w hw d hd
      have hascii : ∀ n < 128, Text.isWordChar (Char.ofNat n) →
          (Char.ofNat n).toUpper ∉ ['\'', '"', '[', '\x7b'] := by decide
      have hupper := hascii d.toNat (Text.toNat_lt_of_isWordChar hd)
      rw [Char.ofNat_toNat] at hupper
      exact hupper hd
  simp only [Constant.nameOf, String.toList_append, List.forall_mem_append]
  exact ⟨by simp, ⟨hcase property, by simp⟩, hcase value.display⟩

theorem json_ne_name {t : Tree} (h : t.cyclic = false) (value : Tree) (property : String) :
    Constant.nameOf value property ≠ t.json .spaced := by
  obtain ⟨hsep, hchars⟩ := name_chars value property
  intro heq
  rw [heq] at hsep hchars
  rcases json_cases h with ⟨c, hc, hhead⟩ | ⟨s, hs, hjson⟩
  · exact hchars c (List.mem_of_head? hhead) (List.mem_cons_of_mem _ hc)
  · rw [hjson] at hsep
    exact forall_mem_writeScalar (P := (· ≠ '_')) (fun c hc => by rintro rfl; cases hc) (by simp)
      (by simp) hs _ hsep rfl

theorem singleQuoted_ne_name (s : String) (value : Tree) (property : String) :
    Constant.nameOf value property ≠ Text.singleQuoted s := by
  obtain ⟨-, hchars⟩ := name_chars value property
  intro heq
  rw [heq] at hchars
  exact hchars '\'' (by simp [Text.singleQuoted]) (by decide)

end Expression

end ApiRecords
