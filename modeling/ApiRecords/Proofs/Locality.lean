import ApiRecords.Model.Blueprint
import ApiRecords.Proofs.Mirrors
import ApiRecords.Proofs.Reachability

/-!
What is read off a schema depends only on the containers that it leads to: two graphs that hold the same
there give it the same kind, the same findings and the same blueprint.
-/

namespace ApiRecords

theorem Node.mem_values_of_mem_children {n : Node} {m : String × Value} (h : m ∈ n.children) :
    m.2 ∈ n.values := by
  cases n with
  | object members => exact List.mem_map_of_mem h
  | array items =>
    obtain ⟨⟨v, i⟩, hitem, rfl⟩ := List.mem_map.mp h
    exact List.mem_of_getElem? (List.mem_zipIdx_iff_getElem?.mp hitem)

namespace Graph

/-- Whether two graphs are of one size and hold the same at the values `kept`, which hold only such
values. What is added to both is kept. -/
structure SameOn (kept : Value → Prop) (g g' : Graph) : Prop where
  size : g'.size = g.size
  scalar : ∀ s, kept (.scalar s)
  fresh : ∀ id, g.size ≤ id → kept (.node id)
  node : ∀ v, kept v → g'.node? v = g.node? v
  values : ∀ v n, kept v → g.node? v = some n → ∀ w ∈ n.values, kept w

namespace SameOn

variable {kept : Value → Prop} {g g' : Graph} {v : Value} (h : g.SameOn kept g') (hv : kept v)

include h hv

/-! ### Members and items -/

theorem object? : g'.object? v = g.object? v := by
  rw [Graph.object?, h.node v hv, Graph.object?]

theorem array? : g'.array? v = g.array? v := by
  rw [Graph.array?, h.node v hv, Graph.array?]

theorem kept_of_object? {members : List (String × Value)} (hmembers : g.object? v = some members) :
    ∀ m ∈ members, kept m.2 := by
  intro m hm
  unfold Graph.object? at hmembers
  split at hmembers
  · rename_i hnode
    obtain rfl := Option.some.inj hmembers
    exact h.values v _ hv hnode _ (List.mem_map_of_mem hm)
  · cases hmembers

theorem kept_of_array? {items : List Value} (hitems : g.array? v = some items) :
    ∀ w ∈ items, kept w := by
  unfold Graph.array? at hitems
  split at hitems
  · rename_i hnode
    obtain rfl := Option.some.inj hitems
    exact h.values v _ hv hnode
  · cases hitems

theorem member? (key : String) : g'.member? v key = g.member? v key := by
  rw [Graph.member?, h.object? hv, Graph.member?]

theorem kept_of_member? {key : String} {w : Value} (hw : g.member? v key = some w) : kept w := by
  obtain ⟨members, hmembers, hlookup⟩ := Option.bind_eq_some_iff.mp hw
  exact h.kept_of_object? hv hmembers (key, w) (mem_of_lookup hlookup)

theorem get (key : String) : g'.get v key = g.get v key := by
  rw [Graph.get, h.member? hv, Graph.get]

theorem kept_get (key : String) : kept (g.get v key) := by
  unfold Graph.get
  cases hw : g.member? v key with
  | none => exact h.scalar _
  | some w => exact h.kept_of_member? hv hw

/-! ### Trees -/

theorem treeFrom (depth : Nat) (above : List Nat) :
    g'.treeFrom depth above v = g.treeFrom depth above v := by
  induction depth generalizing above v with
  | zero => cases v <;> rfl
  | succ depth ih =>
    cases v with
    | scalar s => rfl
    | node id =>
      have hnode : g'.nodes[id]? = g.nodes[id]? := h.node _ hv
      rw [Graph.treeFrom, Graph.treeFrom, hnode]
      split
      · rfl
      · cases hn : g.nodes[id]? with
        | none => rfl
        | some n =>
          have hvalues := h.values _ n hv hn
          cases n with
          | array items =>
            exact congrArg Tree.array (List.map_congr_left fun w hw => ih (hvalues w hw) _)
          | object members =>
            refine congrArg Tree.object (List.map_congr_left fun m hm => ?_)
            exact congrArg (m.1, ·) (ih (hvalues _ (List.mem_map_of_mem hm)) _)

theorem tree : g'.tree v = g.tree v := by
  rw [Graph.tree, h.size, h.treeFrom hv, Graph.tree]

omit hv in
/-- The two graphs are read off alike at such values. -/
theorem mirrors : Mirrors (fun v w => kept v ∧ w = v) g g' :=
  .of_kept h.scalar h.tree h.node h.values

theorem modelName : g'.modelName v = g.modelName v := h.mirrors.modelName ⟨hv, rfl⟩

theorem elements : g'.elements v = g.elements v := by
  unfold Graph.elements
  rw [h.node v hv]

theorem kept_of_elements {vs : List Value} (hvs : g.elements v = .ok vs) : ∀ w ∈ vs, kept w := by
  have hvalues := fun n => h.values v n hv
  unfold Graph.elements at hvs
  split at hvs
  · rename_i hnode
    obtain rfl := Except.ok.inj hvs
    exact hvalues _ hnode
  all_goals
    first
    | (obtain rfl := Except.ok.inj hvs
       intro w hw
       obtain ⟨_, -, rfl⟩ := List.mem_map.mp hw
       exact h.scalar _)
    | cases hvs

theorem identity : g'.identity v = g.identity v := h.mirrors.identity ⟨hv, rfl⟩

theorem kind : g'.kind v = g.kind v := h.mirrors.kind ⟨hv, rfl⟩

theorem unionFindings (number : Nat) : g'.unionFindings number v = g.unionFindings number v := by
  have hunion := h.mirrors.union (v := v) ⟨hv, rfl⟩
  rw [Graph.unionFindings, hunion.eq_of_forall fun u u' hu => hu.eq_of_forall fun _ _ hvw => hvw.2,
    Graph.unionFindings]

/-! ### Findings -/

theorem findNode {inner inner' : List Nat → Nat → Value → Except Fault Findings}
    (hinner : ∀ path offset w, kept w → inner' path offset w = inner path offset w)
    (path : List Nat) (offset : Nat) :
    g'.findNode inner' path offset v = g.findNode inner path offset v := by
  have hget := fun path offset key => hinner path offset _ (h.kept_get hv key)
  have hmembers : ∀ path offset,
      findMembers (inner' path) offset (((g.node? v).map Node.children).getD []) =
        findMembers (inner path) offset (((g.node? v).map Node.children).getD []) := by
    intro path offset
    refine findMembers_congr fun m hm offset => hinner path offset _ ?_
    cases hn : g.node? v with
    | none => simp [hn] at hm
    | some n => exact h.values v n hv hn _ (Node.mem_values_of_mem_children (by simpa [hn] using hm))
  rw [Graph.findNode, Graph.findNode, h.kind hv]
  refine bind_congr fun kind _ => ?_
  simp only [h.modelName hv, h.unionFindings hv, h.get hv, h.node v hv, hget, hmembers]

theorem findFrom (depth : Nat) (path : List Nat) (offset : Nat) :
    g'.findFrom depth path offset v = g.findFrom depth path offset v := by
  induction depth generalizing path offset v with
  | zero => exact h.findNode hv (fun _ _ _ _ => rfl) path offset
  | succ depth ih => exact h.findNode hv (fun path offset w hw => ih hw path offset) path offset

theorem findings (offset : Nat) : g'.findings offset v = g.findings offset v := by
  rw [Graph.findings, h.size, h.findFrom hv, Graph.findings]

theorem kept_of_leads {w : Value} (hleads : g.Leads v w) : kept w := by
  cases hleads with
  | properties _ => exact h.kept_get hv _
  | items _ => exact h.kept_get hv _
  | member _ hn hw => exact h.values v _ hv hn _ (Node.mem_values_of_mem_children hw)

theorem kept_of_reaches {w : Value} (hreaches : g.Reaches v w) : kept w := by
  induction hreaches with
  | refl => exact hv
  | tail _ hleads ih => exact h.kept_of_leads ih hleads

theorem kept_of_findings {offset : Nat} {found : Findings} (hfound : g.findings offset v = .ok found) :
    ∀ m ∈ found.models, kept m := by
  intro m hm
  rcases (mem_findings hfound).mp hm with ⟨hreaches, -⟩ | ⟨u, items, hreaches, -, hitems, hitem⟩
  · exact h.kept_of_reaches hv hreaches
  · exact h.kept_of_array? (h.kept_get (h.kept_of_reaches hv hreaches) _) hitems m hitem

theorem property (spell : String → String) (unions : List (String × List Tree)) (key : String)
    (dependency : Option Dependency) :
    g'.property spell unions key v dependency = g.property spell unions key v dependency :=
  h.mirrors.property ⟨hv, rfl⟩ (h.mirrors.relatedType ⟨hv, rfl⟩ rfl rfl)

/-! ### Required properties -/

theorem pair : g'.pair v = g.pair v := by
  rw [Graph.pair, h.elements hv, Graph.pair]
  refine bind_congr fun vs hvs => ?_
  have hkept := h.kept_of_elements hv hvs
  split
  · rw [h.tree (hkept _ List.mem_cons_self)]
  · rfl

theorem kept_of_pair {m : Scalar × Value} (hm : g.pair v = .ok m) : kept m.2 := by
  rw [Graph.pair, bind_ok_iff] at hm
  obtain ⟨vs, hvs, hm⟩ := hm
  have hkept := h.kept_of_elements hv hvs
  split at hm
  · simp only [bind_ok_iff, pure_ok_iff] at hm
    obtain ⟨key, -, rfl⟩ := hm
    exact hkept _ (by simp)
  · cases hm

theorem pairs : g'.pairs v = g.pairs v := by
  unfold Graph.pairs
  rw [h.object? hv, h.elements hv]
  cases g.object? v with
  | some members => rfl
  | none =>
    refine bind_congr fun vs hvs => ?_
    have hkept := h.kept_of_elements hv hvs
    refine congrArg (· >>= _) (foldlM_congr (fun item hitem acc => ?_) [])
    rw [h.pair (hkept item hitem)]

theorem kept_of_pairs {members : List (String × Value)} (hmembers : g.pairs v = .ok members) :
    ∀ m ∈ members, kept m.2 := by
  unfold Graph.pairs at hmembers
  split at hmembers
  · rename_i hobject
    obtain rfl := Except.ok.inj hmembers
    exact h.kept_of_object? hv hobject
  · simp only [bind_ok_iff, pure_ok_iff] at hmembers
    obtain ⟨vs, hvs, found, hfound, rfl⟩ := hmembers
    have hkept := h.kept_of_elements hv hvs
    have hall : ∀ m ∈ found, kept m.2 := by
      refine foldlM_ok_of_mem (P := fun found => ∀ m ∈ found, kept m.2)
        (fun item hitem acc acc' hacc hstep => ?_) (by simp) hfound
      simp only [bind_ok_iff, pure_ok_iff] at hstep
      obtain ⟨pair, hpair, rfl⟩ := hstep
      intro m hm
      rcases mem_putBy hm with hvalue | hm
      · exact hvalue ▸ h.kept_of_pair (hkept item hitem) hpair
      · exact hacc m hm
    exact List.forall_mem_map.mpr hall

omit hv in
theorem add {n : Node} (hn : ∀ w ∈ n.values, kept w) :
    SameOn kept (g.add n).1 (g'.add n).1 ∧ (g'.add n).2 = (g.add n).2 ∧ kept (g.add n).2 := by
  refine ⟨⟨?_, h.scalar, fun id hid => h.fresh id ?_, fun w hw => ?_, fun w m hw hm => ?_⟩, ?_, ?_⟩
  · simp [h.size]
  · rw [size_add] at hid
    exact Nat.le_of_succ_le hid
  · by_cases hnew : w = .node g.size
    · rw [hnew, node?_add_new, ← h.size, node?_add_new]
    · rw [node?_add_of_ne hnew, node?_add_of_ne (h.size ▸ hnew), h.node w hw]
  · by_cases hnew : w = .node g.size
    · rw [hnew, node?_add_new] at hm
      exact Option.some.inj hm ▸ hn
    · rw [node?_add_of_ne hnew] at hm
      exact h.values w m hw hm
  · exact congrArg Value.node h.size
  · exact h.fresh _ (Nat.le_refl _)

theorem withRequiredFlag :
    SameOn kept (g.withRequiredFlag v).1 (g'.withRequiredFlag v).1 ∧
      (g'.withRequiredFlag v).2 = (g.withRequiredFlag v).2 ∧ kept (g.withRequiredFlag v).2 := by
  unfold Graph.withRequiredFlag
  rw [h.object? hv]
  cases hmembers : g.object? v with
  | none => exact ⟨h, rfl, hv⟩
  | some members =>
    refine h.add fun w hw => ?_
    obtain ⟨m, hm, rfl⟩ := List.mem_map.mp hw
    rcases mem_putBy hm with hflag | hm
    · exact hflag ▸ h.scalar _
    · exact h.kept_of_object? hv hmembers m hm

omit hv in
theorem flagRequired (names : List Value) {members : List (String × Value)}
    (hmembers : ∀ m ∈ members, kept m.2) :
    SameOn kept (Graph.flagRequired names g members).1 (Graph.flagRequired names g' members).1 ∧
      (Graph.flagRequired names g' members).2 = (Graph.flagRequired names g members).2 ∧
      ∀ m ∈ (Graph.flagRequired names g members).2, kept m.2 := by
  induction members generalizing g g' with
  | nil => exact ⟨h, rfl, by simp [Graph.flagRequired]⟩
  | cons m members ih =>
    obtain ⟨hm, hrest⟩ := List.forall_mem_cons.mp hmembers
    simp only [Graph.flagRequired]
    split
    · obtain ⟨hflag, hvalue, hkept⟩ := h.withRequiredFlag hm
      obtain ⟨hgraph, hmembers, hall⟩ := ih hflag hrest
      refine ⟨hgraph, ?_, List.forall_mem_cons.mpr ⟨hkept, hall⟩⟩
      rw [hvalue, hmembers]
    · obtain ⟨hgraph, hmembers, hall⟩ := ih h hrest
      refine ⟨hgraph, ?_, List.forall_mem_cons.mpr ⟨hm, hall⟩⟩
      rw [hmembers]

omit hv in
/-- The required properties are flagged alike, in graphs that are still the same where it counts. -/
theorem markRequired {properties required : Value} (hproperties : kept properties)
    (hrequired : kept required) :
    (∃ e, g.markRequired properties required = .error e ∧
        g'.markRequired properties required = .error e) ∨
      ∃ g₁ g₁' v, g.markRequired properties required = .ok (g₁, v) ∧
        g'.markRequired properties required = .ok (g₁', v) ∧ SameOn kept g₁ g₁' ∧ kept v := by
  unfold Graph.markRequired
  rw [h.array? hrequired, h.pairs hproperties, h.object? hproperties]
  cases g.array? required with
  | none =>
    cases hpairs : g.pairs properties with
    | error e => exact .inl ⟨e, rfl, rfl⟩
    | ok members =>
      have hall := h.kept_of_pairs hproperties hpairs
      obtain ⟨hgraph, hvalue, hkept⟩ := h.add (n := .object members) (List.forall_mem_map.mpr hall)
      exact .inr ⟨_, _, _, rfl, congrArg (fun v => Except.ok (_, v)) hvalue, hgraph, hkept⟩
  | some names =>
    cases hmembers : g.object? properties with
    | none => exact .inl ⟨_, rfl, rfl⟩
    | some members =>
      obtain ⟨hgraph, hsame, hall⟩ := h.flagRequired names (h.kept_of_object? hproperties hmembers)
      obtain ⟨hgraph, hvalue, hkept⟩ := hgraph.add
        (n := .object (Graph.flagRequired names g members).2) (List.forall_mem_map.mpr hall)
      refine .inr ⟨_, _, _, rfl, ?_, hgraph, hkept⟩
      simp only [hsame]
      exact congrArg (fun v => Except.ok (_, v)) hvalue

/-! ### Blueprints -/

theorem survey (identity : Tree) :
    (∃ e, g.survey v identity = .error e ∧ g'.survey v identity = .error e) ∨
      ∃ s g₁', g.survey v identity = .ok s ∧ g'.survey v identity = .ok { s with graph := g₁' } ∧
        SameOn kept s.graph g₁' ∧ (∀ m ∈ s.properties, kept m.2) ∧ ∀ m ∈ s.findings.models, kept m := by
  unfold Graph.survey
  rw [h.get hv, h.get hv]
  rcases h.markRequired (h.kept_get hv "properties") (h.kept_get hv "required") with
    ⟨e, he, he'⟩ | ⟨g₁, g₁', w, hw, hw', hgraph, hkept⟩
  · exact .inl ⟨e, by rw [he]; rfl, by rw [he']; rfl⟩
  · rw [hw, hw']
    simp only [bind, Except.bind]
    rw [hgraph.findings hkept]
    cases hfound : g₁.findings 0 w with
    | error e => exact .inl ⟨e, rfl, rfl⟩
    | ok found =>
      refine .inr ⟨_, g₁', rfl, ?_, hgraph, ?_, hgraph.kept_of_findings hkept hfound⟩
      · rw [hgraph.object? hkept]
        rfl
      · cases hmembers : g₁.object? w with
        | none => simp
        | some members => simpa [hmembers] using hgraph.kept_of_object? hkept hmembers

omit hv in
theorem importsOf (own : Tree) {models : List Value} (hmodels : ∀ m ∈ models, kept m) :
    importsOf g' own models = ApiRecords.importsOf g own models := by
  unfold ApiRecords.importsOf
  refine congrArg (· >>= _) (foldlM_congr (fun m hm found => ?_) [])
  rw [addImport, h.modelName (hmodels m hm), addImport]

omit h hv in
/-- Of the graph of a survey, only what its properties and models lead to counts. -/
theorem surveyBlueprint {s : Survey} (h : SameOn kept s.graph g')
    (hproperties : ∀ m ∈ s.properties, kept m.2) (hmodels : ∀ m ∈ s.findings.models, kept m)
    (options : Options) (name : Tree) :
    { s with graph := g' }.blueprint options name = s.blueprint options name := by
  unfold Survey.blueprint
  simp only [h.importsOf name hmodels]
  refine bind_congr fun identity _ => congrArg (· >>= _) (mapM_congr fun m hm => ?_)
  simp only [h.property (hproperties m hm)]
  rfl

theorem blueprint (options : Options) (name : Tree) :
    g'.blueprint options name v = g.blueprint options name v := by
  unfold Graph.blueprint
  rw [h.identity hv]
  refine bind_congr fun identity _ => ?_
  cases identity with
  | found key =>
    dsimp only
    rcases h.survey hv key with ⟨e, he, he'⟩ | ⟨s, g₁', hs, hs', hgraph, hproperties, hmodels⟩
    · rw [he, he']
    · rw [hs, hs']
      simp only [bind, Except.bind, hgraph.surveyBlueprint hproperties hmodels]
  | noProperties | absent _ => rfl

end SameOn

/-! ### A container that is replaced -/

/-- Whether a container holds a value. -/
def Contains (g : Graph) (v w : Value) : Prop := ∃ n, g.node? v = some n ∧ w ∈ n.values

/-- Whether a value leads to another through the containers that it holds, itself included. -/
def Encloses (g : Graph) : Value → Value → Prop := Relation.ReflTransGen g.Contains

/-- Whether what holds one of some values is itself one of them. -/
def ClosedAround (g : Graph) (vs : List Value) : Bool :=
  (List.range g.size).all fun i => decide (.node i ∈ vs) ||
    (((g.node? (.node i)).map Node.values).getD []).all fun w => decide (w ∉ vs)

theorem not_encloses {g : Graph} {vs : List Value} {v w : Value} (h : g.ClosedAround vs) (hv : v ∉ vs)
    (hw : w ∈ vs) : ¬ g.Encloses v w := by
  intro hleads
  induction hleads using Relation.ReflTransGen.head_induction_on with
  | refl => exact hv hw
  | @head u u' hcontains _ ih =>
    obtain ⟨n, hn, hu'⟩ := hcontains
    refine ih fun hmem => ?_
    cases u with
    | scalar s => cases hn
    | node i =>
      have hi := List.all_eq_true.mp h i (List.mem_range.mpr (lt_size_of_node? hn))
      simp only [hv, decide_false, Bool.false_or, hn, Option.map_some, Option.getD_some] at hi
      exact of_decide_eq_true (List.all_eq_true.mp hi u' hu') hmem

/-- What does not lead to a container is the same when that container is replaced. -/
theorem sameOn_replace {g : Graph} {id : Nat} (hid : id < g.size) (n : Node) :
    SameOn (fun v => ¬ g.Encloses v (.node id)) g (g.replace id n) where
  size := size_replace g id n
  scalar s hleads := by
    rcases Relation.ReflTransGen.cases_head hleads with heq | ⟨_, ⟨_, hnode, -⟩, -⟩
    · cases heq
    · cases hnode
  fresh k hk hleads := by
    rcases Relation.ReflTransGen.cases_head hleads with heq | ⟨_, ⟨_, hnode, -⟩, -⟩
    · cases heq
      exact absurd hid (Nat.not_lt_of_le hk)
    · exact absurd (lt_size_of_node? hnode) (Nat.not_lt_of_le hk)
  node v hv := node?_replace_of_ne (fun heq => hv (heq ▸ .refl)) n
  values v m hv hm w hw hleads := hv (.head ⟨m, hm, hw⟩ hleads)

end Graph

end ApiRecords
