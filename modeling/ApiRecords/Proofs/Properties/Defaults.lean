import ApiRecords.Proofs.Properties.Constants
import ApiRecords.Proofs.Properties.Evaluation

/-!
The defaults of properties, against what their expressions stand for. A constant is taken for an equal
value, which may be one of another kind; and in a property of texts every default is written as a text.
-/

namespace ApiRecords

/-! ### Values read out of a document -/

/-- Whether a number is in its one form. -/
def Value.HasForm : Value → Prop
  | .scalar s => s.HasForm
  | .node _ => True

instance : DecidablePred Value.HasForm
  | .scalar s => inferInstanceAs (Decidable s.HasForm)
  | .node _ => .isTrue trivial

namespace Graph

/-- Whether the numbers in all containers are in their one form. -/
def HasForm (g : Graph) : Prop := ∀ n ∈ g.nodes, ∀ w ∈ n.values, w.HasForm

instance (g : Graph) : Decidable g.HasForm :=
  inferInstanceAs (Decidable (∀ n ∈ g.nodes, ∀ w ∈ n.values, w.HasForm))

variable {g g' : Graph} {v w : Value} {n : Node}

theorem HasForm.value (h : g.HasForm) (hn : g.node? v = some n) (hw : w ∈ n.values) : w.HasForm := by
  cases v with
  | scalar s => cases hn
  | node id => exact h n (Array.mem_of_getElem? hn) w hw

theorem HasForm.get (h : g.HasForm) (v : Value) (key : String) : (g.get v key).HasForm := by
  rw [Graph.get, Graph.member?]
  cases hmembers : g.object? v with
  | none => trivial
  | some members =>
    rw [Option.bind_some]
    cases hw : members.lookup key with
    | none => trivial
    | some w => exact h.value (object?_iff.mp hmembers) (List.mem_map_of_mem (mem_of_lookup hw))

theorem sound_toTree {read : Value → Tree} (hkeys : n.KeysDistinct) (h : ∀ w ∈ n.values, (read w).Sound) :
    (n.toTree read).Sound := by
  cases n with
  | array items =>
    exact ⟨Tree.distinctItems_iff.mpr (List.forall_mem_map.mpr fun w hw => (h w hw).keys),
      .array (List.forall_mem_map.mpr fun w hw => (h w hw).form)⟩
  | object members =>
    have hmembers : ∀ m ∈ members, (read m.2).Sound := fun m hm => h m.2 (List.mem_map_of_mem hm)
    refine ⟨Bool.and_eq_true_iff.mpr ⟨decide_eq_true ?_, Tree.distinctMembers_iff.mpr ?_⟩, .object ?_⟩
    · have hkeys : (members.map Prod.fst).Nodup := hkeys
      simpa [Function.comp_def] using hkeys
    · exact List.forall_mem_map.mpr fun m hm => (hmembers m hm).keys
    · exact List.forall_mem_map.mpr fun m hm => (hmembers m hm).form

/-- What is read out of a document is sound, also where containers have been added. -/
theorem Extends.sound_treeFrom (h : g.Extends g') (hg : g.WellFormed) (hform : g.HasForm) (depth : Nat)
    (above : List Nat) (hv : g.Has v) (hs : v.HasForm) : (g'.treeFrom depth above v).Sound := by
  have hback (levels : Nat) : (Tree.back levels).Sound := ⟨rfl, .back levels⟩
  have hnull : Tree.null.Sound := ⟨rfl, .scalar trivial⟩
  induction depth generalizing above v with
  | zero =>
    cases v with
    | scalar s => exact ⟨rfl, .scalar hs⟩
    | node id =>
      rw [Graph.treeFrom]
      split
      · exact hback _
      · exact hnull
  | succ depth ih =>
    cases v with
    | scalar s => exact ⟨rfl, .scalar hs⟩
    | node id =>
      by_cases hid : id ∈ above
      · rw [Graph.treeFrom, if_pos hid]
        exact hback _
      · obtain ⟨n, hn⟩ := node?_of_has hv
        rw [treeFrom_node ((h.node _ hv).trans hn) hid]
        exact sound_toTree (hg.keys _ n hn) fun w hw =>
          ih _ (hg.has_of_mem_values hn hw) (hform.value hn hw)

theorem Extends.elements_old (h : g.Extends g') (hg : g.WellFormed) (hform : g.HasForm) (hv : g.Has v)
    {vs : List Value} (hvs : g'.elements v = .ok vs) : ∀ w ∈ vs, g.Has w ∧ w.HasForm := by
  unfold elements at hvs
  rw [h.node v hv] at hvs
  split at hvs
  · next items hn =>
    cases hvs
    exact fun w hw => ⟨hg.has_of_mem_values hn hw, hform.value hn hw⟩
  · cases hvs
    exact List.forall_mem_map.mpr fun _ _ => ⟨trivial, trivial⟩
  · cases hvs
    exact List.forall_mem_map.mpr fun _ _ => ⟨trivial, trivial⟩
  · cases hvs

end Graph

/-! ### Constants in scope -/

namespace Constant

/-- A constant as it stands in the file: its name is made of words, and its literal is of its value. -/
structure Sound (c : Constant) : Prop where
  value : c.value.Sound
  literal : ApiRecords.literal c.value = .ok c.literal
  named : ∃ shown property, c.name = nameOf shown property

/-- Whether the name of a constant, among these, stands for the same value in another order of keys. -/
structure StandsFor (constants : List Constant) (t : Tree) (c : Constant) : Prop where
  identifier : ObjectNotation.asciiNames.spellName c.name.toList
  alone : constants.countP (·.name = c.name) = 1
  plain : c.value.plainKeys
  same : c.value.inDoubles.reordered t.inDoubles

variable {g : Graph} {property : String} {names : Value} {values : List Tree} {constants : List Constant}

theorem ofValues_named {index : Nat} (h : ofValues g property names index values = .ok constants) :
    ∀ c ∈ constants, ∃ shown, c.name = nameOf shown property := by
  induction values generalizing index constants with
  | nil =>
    cases h
    nofun
  | cons value values ih =>
    simp only [ofValues, bind_ok_iff, pure_ok_iff] at h
    obtain ⟨given, -, literal, -, rest, hrest, rfl⟩ := h
    exact List.forall_mem_cons.mpr ⟨⟨_, rfl⟩, ih hrest⟩

theorem ofValues_sound {index : Nat} (h : ofValues g property names index values = .ok constants)
    (hvalues : ∀ value ∈ values, value.Sound) : ∀ c ∈ constants, c.Sound := by
  intro c hc
  obtain ⟨shown, hname⟩ := ofValues_named h c hc
  obtain ⟨value, hvalue, hholds⟩ := exists_of_forall₂
    ((List.forall₂_and_left _ _).mpr ⟨hvalues, ofValues_holds h⟩).flip c hc
  exact ⟨hholds.value_eq ▸ hvalue, hholds.value_eq ▸ hholds.literal_eq, shown, property, hname⟩

end Constant

/-- What the default is written as: the first constant of an equal value, if there is one; else the value
itself, in a property of texts as a text. -/
def DefaultFits (constants : List Constant) (isText : Prop) (t : Tree) : Prop :=
  match constants.find? (·.value.eq t) with
  | some c => c.StandsFor constants t
  | none => (isText → ∃ s, t = .text s) ∧ t.plainKeys

namespace Expression

variable {constants : List Constant} {t : Tree} {expr : String}

theorem value?_name {c : Constant} (hc : c ∈ constants) (hsound : c.Sound) :
    (∃ v, value? constants c.name = some v ∧ v.reordered t.inDoubles) ↔ c.StandsFor constants t := by
  have hliteral := literal?_literal hsound.value hsound.literal
  have hmem : c ∈ constants.filter (·.name = c.name) := List.mem_filter.mpr ⟨hc, by simp⟩
  have hcount : constants.countP (·.name = c.name) = (constants.filter (·.name = c.name)).length :=
    List.countP_eq_length_filter
  unfold value?
  constructor
  · rintro ⟨v, hv, hsame⟩
    split at hv
    · next hnone =>
      rw [hnone] at hmem
      cases hmem
    · next c' hone =>
      rw [hone] at hmem hcount
      obtain rfl := List.mem_singleton.mp hmem
      rw [hliteral] at hv
      simp only [Option.ite_none_right_eq_some] at hv
      obtain ⟨hidentifier, hplain, ⟨⟩⟩ := hv
      exact ⟨hidentifier, hcount, hplain, hsame⟩
    · cases hv
  · intro h
    obtain ⟨c', hone⟩ := List.length_eq_one_iff.mp (hcount.symm.trans h.alone)
    rw [hone] at hmem ⊢
    obtain rfl := List.mem_singleton.mp hmem
    refine ⟨_, ?_, h.same⟩
    simp only [hliteral, h.identifier, h.plain, if_true]

theorem value?_literal (hexpr : ∀ c ∈ constants, c.name ≠ expr) : value? constants expr = literal? expr := by
  have hnone : constants.filter (·.name = expr) = [] :=
    List.filter_eq_nil_iff.mpr fun c hc => by simpa using hexpr c hc
  rw [value?, hnone]

/-- The expression of a default has its value just when the default fits. -/
theorem value?_default {isText : Bool} (h : defaultExpr constants isText t = .ok expr)
    (hconstants : ∀ c ∈ constants, c.Sound) (ht : t.Readable) (hnull : t.isNull = false) :
    (∃ v, value? constants expr = some v ∧ v.reordered t.inDoubles) ↔ DefaultFits constants isText t := by
  rw [defaultExpr, if_neg (by simp [hnull])] at h
  unfold DefaultFits
  cases hfind : constants.find? (·.value.eq t) with
  | some c =>
    rw [hfind] at h
    obtain rfl := Except.ok.inj h
    have hc := List.mem_of_find?_eq_some hfind
    exact value?_name hc (hconstants c hc)
  | none =>
    rw [hfind] at h
    cases isText with
    | true =>
      obtain rfl := Except.ok.inj h
      have hexpr : ∀ c ∈ constants, c.name ≠ Text.singleQuoted t.display := fun c hc => by
        obtain ⟨shown, property, hname⟩ := (hconstants c hc).named
        exact hname ▸ singleQuoted_ne_name t.display shown property
      rw [value?_literal hexpr, literal?_singleQuoted]
      simp only [Option.some.injEq, exists_eq_left']
      constructor
      · intro hsame
        have htext : t = .text t.display := by
          refine Tree.inDoubles_eq_text.mp ?_
          cases hdoubles : t.inDoubles with
          | scalar s =>
            rw [hdoubles] at hsame
            rw [← of_decide_eq_true hsame]
          | _ =>
            rw [hdoubles] at hsame
            cases hsame
        exact ⟨fun _ => ⟨_, htext⟩, by rw [htext]; rfl⟩
      · rintro ⟨htext, -⟩
        obtain ⟨s, rfl⟩ := htext trivial
        exact decide_eq_true rfl
    | false =>
      have hjson : expr = t.json .spaced := by
        simp only [Tree.json?, ht.acyclic, Bool.false_eq_true, if_false] at h
        exact (Except.ok.inj h).symm
      have hexpr : ∀ c ∈ constants, c.name ≠ expr := fun c hc => by
        obtain ⟨shown, property, hname⟩ := (hconstants c hc).named
        rw [hname, hjson]
        exact json_ne_name ht.acyclic shown property
      rw [value?_literal hexpr, hjson, literal?_json ht]
      have hself := Tree.reordered_self _ (Tree.proper_inDoubles t ht.toProper)
      constructor
      · rintro ⟨v, hv, -⟩
        rw [Option.ite_none_right_eq_some] at hv
        exact ⟨nofun, hv.1⟩
      · rintro ⟨-, hplain⟩
        exact ⟨_, if_pos hplain, hself⟩

end Expression

/-! ### Properties -/

theorem property_sound {g g₁ : Graph} {spell : String → String} {unions : List (String × List Tree)}
    {key : String} {v u : Value} {required : Prop} {dependency : Option Dependency} {p : Property}
    (hg : g.WellFormed) (hform : g.HasForm) (hext : g.Extends g₁) (hv : g.Has v)
    (hu : Graph.Flagged g g₁ required v u) (h : g₁.property spell unions key u dependency = .ok p) :
    ∀ c ∈ p.constants.getD [], c.Sound := by
  obtain ⟨listed, hp⟩ := Graph.projects h
  have hlisted := hp.listed
  have hconstants := hp.constants
  rw [hu.get_of_ne hext hv (by decide)] at hlisted
  cases listed with
  | none =>
    rw [← Except.ok.inj hconstants]
    nofun
  | some values =>
    simp only [Constant.ofListed, bind_ok_iff, pure_ok_iff] at hconstants
    obtain ⟨constants, hvalues, hconstants⟩ := hconstants
    rw [hconstants]
    refine Constant.ofValues_sound hvalues ?_
    unfold Graph.listed at hlisted
    split at hlisted
    · simp only [bind_ok_iff, pure_ok_iff, Option.some.injEq] at hlisted
      obtain ⟨vs, hvs, rfl⟩ := hlisted
      refine List.forall_mem_map.mpr fun w hw => ?_
      obtain ⟨hhas, hs⟩ := hext.elements_old hg hform (hg.has_get v "enum") hvs w hw
      exact hext.sound_treeFrom hg hform _ _ hhas hs
    · cases hlisted

/-- The default of a property, if it can be written at all, is that of its schema. Without one, or where it
is null, the expression is `undefined`. Any other has its value, in the scope of the constants of the
property, just when it fits: where a constant is taken for it, when the name of the constant is an
identifier that no other one has, and its value is the same in kind and content; where none is, when the
property is none of texts or the default is a text, and no key is `__proto__`. -/
theorem blueprint_defaults {g : Graph} (hg : g.WellFormed) (hform : g.HasForm) {options : Options}
    {name : Tree} {model : Value} {d : Blueprint}
    (h : g.blueprint options name model = .ok (some d)) :
    ∃ members, g.object? (g.get model "properties") = some members ∧
      List.Forall₂ (fun m p => ∀ t, g.tree (g.get m.2 "default") = t → t.cyclic = false →
        p.default = t ∧ (t.isNull → p.defaultValue = "undefined") ∧
          (t.isNull = false →
            ((∃ v, Expression.value? (p.constants.getD []) p.defaultValue = some v ∧
              v.reordered t.inDoubles) ↔ DefaultFits (p.constants.getD []) p.isText t)))
        members d.properties := by
  obtain ⟨members, s, hmembers, hext, hall⟩ := Graph.blueprint_origins hg h
  refine ⟨members, hmembers, hall.imp ?_⟩
  rintro ⟨key, v⟩ p ⟨hv, required, u, dependency, hu, hp⟩ t rfl hcyclic
  obtain ⟨listing, hparts⟩ := Graph.projects hp
  have hdefault := hparts.default
  have hexpr := hparts.defaultValue
  have hhas := hg.has_get v "default"
  rw [hu.get_of_ne hext hv (by decide)] at hdefault
  have htree : s.graph.tree (g.get v "default") = g.tree (g.get v "default") :=
    hext.treeFrom hg hhas hcyclic hext.size nofun
  rw [htree] at hdefault
  rw [hdefault] at hexpr
  have hsound := (Graph.Extends.refl g).sound_treeFrom hg hform g.size [] hhas (hform.get v "default")
  refine ⟨hdefault, fun hnull => ?_, fun hnull => ?_⟩
  · rw [defaultExpr, if_pos hnull] at hexpr
    exact (Except.ok.inj hexpr).symm
  · exact Expression.value?_default hexpr (property_sound hg hform hext hv hu hp)
      (hsound.readable hcyclic) hnull

/-- A model with one property besides its identity. -/
def taskWith (key : String) (schema : Tree) : Document := .ofTree (.object [
  ("properties", .object [("id", .object []), (key, schema)])])

/-- Numbers, of which the second one, 1.5, is the default. -/
def effortSchema : Tree := .object [
  ("type", .text "number"),
  ("enum", .array [.int 1, .scalar (.double (.finite false 0x18000000000000 (-52)))]),
  ("default", .scalar (.double (.finite false 0x18000000000000 (-52))))]

theorem blueprint_defaults_effort : ∃ d p,
    (taskWith "effort" effortSchema).graph.blueprint plainOptions (.text "Task")
      (taskWith "effort" effortSchema).root = .ok (some d) ∧
      p ∈ d.properties ∧ p.defaultValue = "EFFORT_1_5" ∧
      ∃ v, Expression.value? (p.constants.getD []) p.defaultValue = some v ∧
        v.reordered (.scalar (.double (.finite false 0x18000000000000 (-52)))) := by
  have hg : (taskWith "effort" effortSchema).WellFormed := wellFormed_ofTree (by decide)
  have hform : (taskWith "effort" effortSchema).graph.HasForm := by decide +kernel
  obtain ⟨members, hmembers, hall⟩ := @blueprint_defaults _ hg.graph hform plainOptions (.text "Task")
    (taskWith "effort" effortSchema).root _ rfl
  cases hmembers
  cases hall with
  | cons hid hall =>
    cases hall with
    | cons heffort hall =>
      obtain ⟨-, -, hvalue⟩ := heffort _ rfl (by decide +kernel)
      refine ⟨_, _, rfl, .tail _ (.head _), by decide +kernel, (hvalue rfl).mpr ?_⟩
      exact ⟨by decide +kernel, by decide +kernel, by decide +kernel, by decide +kernel⟩

/-- A truth value that is true by default, and equal to the number one: the constant of the number is taken
for it, and stands for the number. -/
def flagSchema : Tree := .object [
  ("enum", .array [.int 1, .bool true]),
  ("default", .bool true)]

theorem flag_default : ∃ d p,
    (taskWith "flag" flagSchema).graph.blueprint plainOptions (.text "Task")
      (taskWith "flag" flagSchema).root = .ok (some d) ∧
      p ∈ d.properties ∧ p.default = .bool true ∧ p.defaultValue = "FLAG_1" ∧
      ∃ v, Expression.value? (p.constants.getD []) p.defaultValue = some v ∧
        v.reordered (Tree.int 1).inDoubles ∧ v.reordered (Tree.bool true).inDoubles = false := by
  refine ⟨_, _, rfl, .tail _ (.head _), rfl, rfl, ?_⟩
  have hread : (Expression.value? [⟨"FLAG_1", .int 1, "1"⟩, ⟨"FLAG_TRUE", .bool true, "true"⟩] "FLAG_1").map
      (fun v => (v.reordered (Tree.int 1).inDoubles, v.reordered (Tree.bool true).inDoubles)) =
        some (true, false) := by decide +kernel
  obtain ⟨v, hv, hkinds⟩ := Option.map_eq_some_iff.mp hread
  obtain ⟨hone, htrue⟩ := Prod.mk.inj hkinds
  exact ⟨v, hv, hone, htrue⟩

end ApiRecords
