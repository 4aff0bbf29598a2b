import ApiRecords.Proofs.Properties.Origins
import ApiRecords.Proofs.Types.Arrays

/-!
The constants of a property that lists its values, against its types: the check goes by the names of the
constants, the static type by the values themselves.
-/

namespace ApiRecords

/-! ### Joined texts -/

/-- Texts each two of which are one, or differ from their first character on, make the same joined text
only if they are the same. -/
theorem intercalate_eq_iff {sep : String} {as bs : List String}
    (h : List.Forall₂ (fun s t => s = t ∨
      ∃ c ∈ s.toList.head?, ∃ c' ∈ t.toList.head?, c ≠ c') as bs) :
    sep.intercalate as = sep.intercalate bs ↔ as = bs := by
  refine ⟨fun heq => ?_, congrArg _⟩
  rw [← String.toList_inj, String.toList_intercalate, String.toList_intercalate] at heq
  induction h with
  | nil => rfl
  | @cons s t as bs hfirst hrest ih =>
    obtain rfl : s = t := by
      refine hfirst.resolve_right ?_
      rintro ⟨c, hc, c', hc', hne⟩
      obtain ⟨cs, hcs⟩ := List.head?_eq_some_iff.mp hc
      obtain ⟨cs', hcs'⟩ := List.head?_eq_some_iff.mp hc'
      cases hrest <;> simp [hcs, hcs', hne] at heq
    cases hrest with
    | nil => rfl
    | cons =>
      rw [List.map_cons, List.map_cons, List.map_cons, List.map_cons, List.intercalate_cons_cons,
        List.intercalate_cons_cons, List.append_cancel_left_eq] at heq
      rw [ih heq]

/-! ### Lists of values without parts -/

namespace Graph

variable {g : Graph} {v : Value} {s : Scalar} {id : Nat}

theorem tree_of_no_node (h : g.node? (.node id) = none) : g.tree (.node id) = .null := by
  have hn : g.nodes[id]? = none := h
  unfold tree
  cases g.size with
  | zero => rfl
  | succ depth => simp [treeFrom, hn]

/-- What is read as a value without parts inside a container is the same on its own. -/
theorem tree_of_part {depth : Nat} (hsize : g.size = depth + 1) (hid : id < g.size)
    (h : g.treeFrom depth [id] v = .scalar s) : g.tree v = .scalar s := by
  cases v with
  | scalar a => cases depth <;> simpa [treeFrom] using h
  | node k =>
    have hopen : k ≠ id := by
      rintro rfl
      have hcyclic : (g.treeFrom depth [k] (.node k)).cyclic = true := treeFrom_open (by simp) g depth
      rw [h] at hcyclic
      cases hcyclic
    cases hn : g.node? (.node k) with
    | none =>
      rw [tree_of_no_node hn]
      have hnode : g.nodes[k]? = none := hn
      cases depth <;> simpa [treeFrom, hopen, hnode] using h
    | some n =>
      have hk := (Array.getElem?_eq_some_iff.mp hn).1
      cases depth with
      | zero =>
        have hone : g.nodes.size = 1 := hsize
        have hid : id < g.nodes.size := hid
        omega
      | succ depth =>
        rw [treeFrom_node hn (by simpa using hopen)] at h
        cases n <;> cases h

theorem node_of_tree {values : List Scalar} (h : g.tree v = .array (values.map .scalar)) :
    ∃ items, g.node? v = some (.array items) ∧ items.map g.tree = values.map .scalar := by
  cases v with
  | scalar a => simp at h
  | node id =>
    cases hn : g.node? (.node id) with
    | none => simp [tree_of_no_node hn] at h
    | some n =>
      have hid := (Array.getElem?_eq_some_iff.mp hn).1
      obtain ⟨depth, hsize⟩ := Nat.exists_eq_add_one_of_ne_zero (Nat.ne_zero_of_lt hid)
      have hsize : g.size = depth + 1 := hsize
      rw [tree, hsize, treeFrom_node hn List.not_mem_nil] at h
      cases n with
      | object members => cases h
      | array items =>
        refine ⟨items, rfl, ?_⟩
        have hitems := map_eq_map_iff_forall₂.mp (Tree.array.inj h)
        exact map_eq_map_iff_forall₂.mpr (hitems.imp fun _ _ hw => tree_of_part hsize hid hw)

/-- A list of values without parts, not empty, lists just these. -/
theorem listed_of_tree {values : List Scalar} (hne : values ≠ [])
    (h : g.tree v = .array (values.map .scalar)) :
    g.listed v = .ok (some (values.map .scalar)) := by
  obtain ⟨items, hnode, hitems⟩ := node_of_tree h
  have htruthy : g.truthy v := by
    cases v with
    | scalar a => cases hnode
    | node id =>
      have hlength : items ≠ [] := by
        rintro rfl
        exact hne (by simpa using hitems.symm)
      simpa [truthy, hnode, Node.isEmpty] using hlength
  have helements : g.elements v = .ok items := by
    unfold elements
    rw [hnode]
  rw [listed, if_pos htruthy, helements, ← hitems]
  rfl

end Graph

/-! ### Constants of listed values -/

/-- A constant of a value. Where no names are given, it is named for the value. -/
structure Constant.Holds (g : Graph) (property : String) (names : Value) (value : Tree) (c : Constant) :
    Prop where
  value_eq : c.value = value
  literal_eq : ApiRecords.literal value = .ok c.literal
  name_eq : g.truthy names = false → c.name = nameOf value property

theorem Constant.givenName?_of_not_truthy {g : Graph} {names : Value} (h : g.truthy names = false)
    (index : Nat) : givenName? g names index = .ok none := by
  unfold givenName?
  cases names with
  | scalar a => cases a <;> simp_all [Graph.node?, Graph.truthy, Scalar.truthy]
  | node id =>
    cases hn : g.node? (.node id) with
    | none => simp [h]
    | some n => cases n <;> simp_all [Graph.truthy, Node.isEmpty]

theorem Constant.ofValues_holds {g : Graph} {property : String} {names : Value} {index : Nat}
    {values : List Tree} {constants : List Constant}
    (h : ofValues g property names index values = .ok constants) :
    List.Forall₂ (Holds g property names) values constants := by
  induction values generalizing index constants with
  | nil =>
    cases h
    exact .nil
  | cons value values ih =>
    simp only [ofValues, bind_ok_iff, pure_ok_iff] at h
    obtain ⟨given, hgiven, literal, hliteral, rest, hrest, rfl⟩ := h
    refine .cons ⟨rfl, hliteral, fun hnames => ?_⟩ (ih hrest)
    rw [givenName?_of_not_truthy hnames] at hgiven
    cases hgiven
    rfl

/-- A property that lists values: a constant of each, its check by their names, its static type by the
values. -/
theorem property_listed {g : Graph} {spell : String → String} {unions : List (String × List Tree)}
    {key : String} {v : Value} {dependency : Option Dependency} {p : Property} {values : List Tree}
    (h : g.property spell unions key v dependency = .ok p)
    (hlisted : g.listed (g.get v "enum") = .ok (some values)) :
    ∃ constants literals, p.constants = some constants ∧
      List.Forall₂ (Constant.Holds g (spell key) (g.get v "x-enum-key-attributes")) values constants ∧
      p.propType = oneOfPropType (constants.map (·.name)) ∧
      List.Forall₂ (fun value literal => typedLiteral p.type value = .ok literal) values literals ∧
      p.flowType = " | ".intercalate literals := by
  obtain ⟨listing, hp⟩ := Graph.projects h
  obtain rfl := Except.ok.inj (hlisted.symm.trans hp.listed)
  obtain ⟨constants, hconstants, hsome⟩ := (bind_ok_iff ..).mp hp.constants
  obtain ⟨literals, hliterals, hflow⟩ := (bind_ok_iff ..).mp hp.flowType
  have hholds := Constant.ofValues_holds hconstants
  have hcheck := hp.propType
  rw [← Except.ok.inj hsome] at hcheck
  refine ⟨constants, literals, (Except.ok.inj hsome).symm, hholds, ?_,
    (mapM_ok_iff _ _ _).mp hliterals, (Except.ok.inj hflow).symm⟩
  cases hholds with
  | nil => exact absurd rfl (listed_ne_nil hlisted)
  | cons => exact (Except.ok.inj hcheck).symm

/-! ### The literals of the constants as the static type -/

def Scalar.literal : Scalar → String
  | .text s => Text.singleQuoted s
  | s => Json.writeScalar true s

theorem literal_scalar (s : Scalar) : literal (.scalar s) = .ok s.literal := by cases s <;> rfl

theorem typedLiteral_scalar (type : Tree) (s : Scalar) :
    typedLiteral type (.scalar s) =
      .ok (if type.text? = some "string" then Text.singleQuoted (Tree.scalar s).display
        else s.literal) := by
  unfold typedLiteral
  split
  · rfl
  · exact literal_scalar s

/-- Of values without parts, texts alone have a literal between quotes. -/
theorem isWord_literal {s : Scalar} (h : ∀ t, s ≠ .text t) : Token.IsWord s.literal := by
  cases s with
  | null => exact (by decide : Token.IsWord "null")
  | bool b => cases b with
    | false => exact (by decide : Token.IsWord "false")
    | true => exact (by decide : Token.IsWord "true")
  | int n => exact isWord_toString n
  | double x => exact NumberLayout.isWord_write (by decide) (by decide) x
  | text t => exact absurd rfl (h t)

theorem singleQuoted_apart {s : String} (h : Token.IsWord s) (t : String) :
    ∃ c ∈ (Text.singleQuoted t).toList.head?, ∃ c' ∈ s.toList.head?, c ≠ c' := by
  obtain ⟨hne, hplain⟩ := h
  cases hchars : s.toList with
  | nil => exact absurd (by simpa using hchars) hne
  | cons c cs =>
    refine ⟨'\'', by simp [Text.singleQuoted], c, rfl, ?_⟩
    rintro rfl
    rw [hchars, List.all_cons, Bool.and_eq_true] at hplain
    exact absurd hplain.1 (by decide)

/-- Quoted as the text that shows it, a value is written as its own literal if it is a text. -/
theorem quoted_or_apart (s : Scalar) :
    (∃ t, s = .text t) ∧ Text.singleQuoted (Tree.scalar s).display = s.literal ∨
      (¬ ∃ t, s = .text t) ∧ Text.singleQuoted (Tree.scalar s).display ≠ s.literal ∧
        ∃ c ∈ (Text.singleQuoted (Tree.scalar s).display).toList.head?,
          ∃ c' ∈ s.literal.toList.head?, c ≠ c' := by
  by_cases htext : ∃ t, s = .text t
  · obtain ⟨t, rfl⟩ := htext
    exact .inl ⟨⟨t, rfl⟩, rfl⟩
  · have hapart := singleQuoted_apart (isWord_literal (not_exists.mp htext)) (Tree.scalar s).display
    refine .inr ⟨htext, fun heq => ?_, hapart⟩
    obtain ⟨c, hc, c', hc', hne⟩ := hapart
    rw [heq] at hc
    exact hne (Option.some.inj (hc.symm.trans hc'))

/-- The values of a property that lists values without parts are those of its constants, and its check is
for one of these. Its static type has the literals of the constants, in this order, as its alternatives
just when it is no text or all of its values are texts: in a text, a value of another kind is put between
quotes, as the text that shows it. -/
theorem blueprint_alternatives {g : Graph} {options : Options} {name : Tree} {model : Value}
    {d : Blueprint} (h : g.blueprint options name model = .ok (some d)) {p : Property}
    (hp : p ∈ d.properties) {values : List Scalar} (hne : values ≠ [])
    (henum : p.enum = .array (values.map .scalar)) :
    ∃ constants, p.constants = some constants ∧
      constants.map (·.value) = values.map .scalar ∧
      constants.map (·.literal) = values.map (·.literal) ∧
      p.propType = oneOfPropType (constants.map (·.name)) ∧
      (p.flowType = " | ".intercalate (constants.map (·.literal)) ↔
        (p.isText → ∀ s ∈ values, ∃ t, s = .text t)) := by
  obtain ⟨identity, s, -, -, hd⟩ := Graph.survey_of_blueprint h
  obtain ⟨⟨key, v⟩, dependency, -, hproperty⟩ :=
    exists_of_forall₂ (Survey.describes hd).properties.flip p hp
  obtain ⟨listing, hparts⟩ := Graph.projects hproperty
  have htree : s.graph.tree (s.graph.get v "enum") = .array (values.map .scalar) :=
    hparts.enum.symm.trans henum
  obtain ⟨constants, literals, hconstants, hholds, hcheck, hliterals, hflow⟩ :=
    property_listed hproperty (Graph.listed_of_tree hne htree)
  rw [List.forall₂_map_left_iff] at hholds hliterals
  have hexact : constants.map (·.literal) = values.map (·.literal) := by
    refine map_eq_map_iff_forall₂.mpr (hholds.flip.imp fun c s hc => ?_)
    exact Except.ok.inj (hc.literal_eq.symm.trans (literal_scalar s))
  have hvalues : constants.map (·.value) = values.map .scalar :=
    map_eq_map_iff_forall₂.mpr (hholds.flip.imp fun _ _ hc => hc.value_eq)
  refine ⟨constants, hconstants, hvalues, hexact, hcheck, ?_⟩
  have htyped : literals = values.map fun s =>
      if p.isText then Text.singleQuoted (Tree.scalar s).display else s.literal := by
    refine (List.map_id literals).symm.trans (map_eq_map_iff_forall₂.mpr ?_)
    refine hliterals.flip.imp fun literal s hs => ?_
    rw [typedLiteral_scalar] at hs
    simpa [Property.isText] using (Except.ok.inj hs).symm
  rw [hflow, hexact, htyped]
  by_cases htext : p.isText
  · simp only [htext, if_true, forall_const]
    rw [intercalate_eq_iff, List.map_inj_left]
    · refine forall₂_congr fun s _ => ?_
      rcases quoted_or_apart s with ⟨ht, heq⟩ | ⟨ht, hne, -⟩ <;> simp [*]
    · rw [List.forall₂_map_left_iff, List.forall₂_map_right_iff, List.forall₂_same]
      exact fun s _ => (quoted_or_apart s).imp (·.2) (·.2.2)
  · simp [htext]

/-- A model whose status is one of these values. -/
def taskOf (type : String) (statuses : List Scalar) : Document := .ofTree (.object [
  ("properties", .object [
    ("id", .object []),
    ("status", .object [("type", .text type), ("enum", .array (statuses.map .scalar))])])])

theorem blueprint_alternatives_task : ∃ d p,
    (taskOf "string" [.text "open", .text "done"]).graph.blueprint plainOptions (.text "Task")
      (taskOf "string" [.text "open", .text "done"]).root = .ok (some d) ∧
      p ∈ d.properties ∧ p.enum = .array ([.text "open", .text "done"].map .scalar) ∧
      p.flowType = "'open' | 'done'" := by
  obtain ⟨d, p, hd, hp, henum⟩ : ∃ d p,
      (taskOf "string" [.text "open", .text "done"]).graph.blueprint plainOptions (.text "Task")
        (taskOf "string" [.text "open", .text "done"]).root = .ok (some d) ∧
        p ∈ d.properties ∧ p.enum = .array ([.text "open", .text "done"].map .scalar) :=
    ⟨_, _, rfl, .tail _ (.head _), rfl⟩
  obtain ⟨constants, -, -, hliterals, -, hflow⟩ := blueprint_alternatives hd hp (by simp) henum
  refine ⟨d, p, hd, hp, henum, ?_⟩
  rw [hflow.mpr (by simp), hliterals]
  rfl

/-- The null of a text: its constant is the null itself, its alternative the text that shows it. -/
theorem nullable_alternatives : ∃ d p,
    (taskOf "string" [.text "open", .null]).graph.blueprint plainOptions (.text "Task")
      (taskOf "string" [.text "open", .null]).root = .ok (some d) ∧
      p ∈ d.properties ∧ p.enum = .array ([.text "open", .null].map .scalar) ∧
      p.constants.map (·.map (·.literal)) = some ["'open'", "null"] ∧
      p.flowType = "'open' | 'None'" ∧
      p.flowType ≠ " | ".intercalate ["'open'", "null"] :=
  ⟨_, _, rfl, .tail _ (.head _), rfl, rfl, rfl, by decide⟩

end ApiRecords
