import ApiRecords.Source.Override

/-!
What the two files of a model make known. The override file passes on the constants of the base file, each as
often as it is declared there, and takes over its class.
-/

namespace ApiRecords.Source

/-- The class that a file makes known as its default. -/
def Item.defaultName? : Item → Option String
  | exportClass name _ _ => some name
  | _ => none

/-- The default of another file that is taken over: the name it is given here, and the file. -/
def Item.importedDefault? : Item → Option (String × String)
  | importDefault name source => some (name, source)
  | _ => none

/-- The file that names are passed on from. -/
def Item.passedOnFrom? : Item → Option String
  | exportNames _ source => some source
  | _ => none

/-- Whether a part of a file makes known the constants of the given names and the given defaults, in this order. -/
structure Declares (items : List Item) (names defaults : List String) : Prop where
  constants : items.filterMap Item.constantName? = names
  defaults : items.filterMap Item.defaultName? = defaults

theorem Declares.append {items items' : List Item} {names names' defaults defaults' : List String}
    (h : Declares items names defaults) (h' : Declares items' names' defaults') :
    Declares (items ++ items') (names ++ names') (defaults ++ defaults') where
  constants := by rw [List.filterMap_append, h.constants, h'.constants]
  defaults := by rw [List.filterMap_append, h.defaults, h'.defaults]

theorem declares_nothing {items : List Item}
    (h : ∀ i ∈ items, i.constantName? = none ∧ i.defaultName? = none) : Declares items [] [] where
  constants := List.filterMap_eq_nil_iff.mpr fun i hi => (h i hi).1
  defaults := List.filterMap_eq_nil_iff.mpr fun i hi => (h i hi).2

theorem declares_constants (constants : List Constant) :
    Declares (constants.map fun c => .exportConst c.name c.literal) (constants.map (·.name)) [] := by
  induction constants with
  | nil => exact ⟨rfl, rfl⟩
  | cons c constants ih =>
    have hc : Declares [.exportConst c.name c.literal] [c.name] [] := ⟨rfl, rfl⟩
    exact hc.append ih

/-! ### The parts of a base file -/

variable (d : Blueprint) (date : Option String)

theorem declares_head : Declares (head .builtin date) [] [] := by
  cases date <;> exact ⟨rfl, rfl⟩

theorem declares_imports : Declares (d.imports.map (importItem d)) [] [] := by
  refine declares_nothing fun i hi => ?_
  obtain ⟨import', -, rfl⟩ := List.mem_map.mp hi
  exact ⟨rfl, rfl⟩

/-- A property without constants has no part of its own, the others one constant after another. -/
theorem declares_constantItems : Declares (constantItems d) d.constantNames [] := by
  unfold constantItems Blueprint.constantNames
  induction d.properties with
  | nil => exact ⟨rfl, rfl⟩
  | cons p properties ih =>
    rw [List.flatMap_cons, List.flatMap_cons]
    rcases p.constants with _ | _ | ⟨c, cs⟩
    · exact ih
    · exact ih
    · have hblank : Declares [.blank] [] [] := ⟨rfl, rfl⟩
      exact (hblank.append (declares_constants (c :: cs))).append ih

theorem declares_entity : Declares [.blank, entityItem d] [entityName d.name] [] := ⟨rfl, rfl⟩

theorem declares_unionItems : Declares (unionItems d .builtin) [] [] := by
  refine declares_nothing fun i hi => ?_
  obtain ⟨u, -, hi⟩ := List.mem_flatMap.mp hi
  obtain rfl := List.mem_singleton.mp hi
  exact ⟨rfl, rfl⟩

theorem declares_dependencyItems : Declares (dependencyItems d .builtin) [] [] := by
  unfold dependencyItems
  cases d.schema <;> exact ⟨rfl, rfl⟩

/-- The name of the check of records, where there is one. -/
def checkNames : List String := if d.options.usePropTypes.truthy then [propTypeName d.name] else []

theorem declares_propTypeItems : Declares (propTypeItems d) (checkNames d) [] := by
  unfold propTypeItems checkNames
  split <;> exact ⟨rfl, rfl⟩

theorem declares_flowItems : Declares (flowItems d) [] [] := by
  unfold flowItems
  split <;> exact ⟨rfl, rfl⟩

/-- A base file declares the constants of its properties, the entity and the check, and one class is its
default. -/
theorem declares_base :
    Declares (base d .builtin date) (d.constantNames ++ entityName d.name :: checkNames d)
      [className d.name] := by
  have hmark : Declares (if d.options.useFlow.truthy then [Item.comment "// @flow"] else []) [] [] := by
    split <;> exact ⟨rfl, rfl⟩
  have hlibraries :
      Declares [.importNames ["schema"] "normalizr", .importNames ["Record"] "immutable"] [] [] := ⟨rfl, rfl⟩
  have hchecks : Declares (if d.options.usePropTypes.truthy then
      [Item.importDefault "PropTypes" "prop-types",
        .importDefault "ImmutablePropTypes" "react-immutable-proptypes"] else []) [] [] := by
    split <;> exact ⟨rfl, rfl⟩
  have hrecord : Declares [.blank, .const "defaultValues" (fieldLines (d.properties.map fun p =>
        (p.name, p.defaultValue))),
      .blank, .exportClass (className d.name) "Record(defaultValues)" (getters d)] [] [className d.name] :=
    ⟨rfl, rfl⟩
  have hparts : Declares (base d .builtin date) _ _ :=
    ((((((((((hmark.append (declares_head date)).append hlibraries).append hchecks).append
      (declares_imports d)).append (declares_constantItems d)).append (declares_entity d)).append
      (declares_unionItems d)).append (declares_dependencyItems d)).append
      (declares_propTypeItems d)).append (declares_flowItems d)).append hrecord
  simpa only [List.nil_append, List.append_nil, List.append_assoc, List.singleton_append] using hparts

end ApiRecords.Source
