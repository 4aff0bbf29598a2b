import ApiRecords.Proofs.Properties.Constants
import ApiRecords.Proofs.Words
import ApiRecords.Source.Base

/-!
Names of constants. A name keeps the words of the property and of the value, but neither what stands
between words nor where the property ends and the value begins.
-/

namespace ApiRecords

open Text

namespace Constant

theorem nameOf_eq (value : Tree) (property : String) :
    nameOf value property =
      "_".intercalate (constantWords property ++ constantWords value.display) := by
  rw [String.intercalate_append_of_ne_nil (constantWords_ne_nil _) (constantWords_ne_nil _),
    ← constantCase_eq, ← constantCase_eq]
  rfl

/-- Constants have one name just when the words of their properties and values, one after the other, are
the same. -/
theorem nameOf_eq_iff {value value' : Tree} {property property' : String} :
    nameOf value property = nameOf value' property' ↔
      constantWords property ++ constantWords value.display =
        constantWords property' ++ constantWords value'.display := by
  have hne : ∀ s t : String, constantWords s ++ constantWords t ≠ [] := fun s t => by
    simp [constantWords_ne_nil]
  have hsep : ∀ s t : String, ∀ w ∈ constantWords s ++ constantWords t, '_' ∉ w.toList :=
    fun s t w hw => (List.mem_append.mp hw).elim (separator_notMem_constantWords s w)
      (separator_notMem_constantWords t w)
  rw [nameOf_eq, nameOf_eq]
  exact intercalate_inj (hne _ _) (hne _ _) (hsep _ _) (hsep _ _)

end Constant

namespace Property

/-- The values that the constants of a property stand for. -/
def values (p : Property) : List Tree := (p.constants.getD []).map (·.value)

end Property

variable {g : Graph}

theorem Graph.truthy_of_listed {v : Value} {values : List Tree} (h : g.listed v = .ok (some values)) :
    g.truthy v := by
  unfold Graph.listed at h
  split at h
  · assumption
  · cases h

/-- Constants that are not given names are named for their values. -/
theorem property_constantNames {spell : String → String} {unions : List (String × List Tree)}
    {key : String} {v : Value} {dependency : Option Dependency} {p : Property}
    (h : g.property spell unions key v dependency = .ok p)
    (hnames : g.truthy (g.get v "enum") → g.truthy (g.get v "x-enum-key-attributes") = false) :
    (p.constants.getD []).map (·.name) = p.values.map fun value => Constant.nameOf value p.name := by
  obtain ⟨listing, hp⟩ := Graph.projects h
  have hsome := hp.constants
  rw [hp.name, Property.values]
  cases listing with
  | none =>
    rw [← Except.ok.inj hsome]
    rfl
  | some values =>
    obtain ⟨constants, hconstants, hsome⟩ := (bind_ok_iff ..).mp hsome
    have hnames := hnames (Graph.truthy_of_listed hp.listed)
    rw [← Except.ok.inj hsome, Option.getD_some, List.map_map]
    refine List.map_congr_left fun c hc => ?_
    obtain ⟨value, hvalue⟩ := exists_of_forall₂ (Constant.ofValues_holds hconstants).flip c hc
    rw [Function.comp_apply, hvalue.value_eq, hvalue.name_eq hnames]

/-- No property lists two values of the same words, and no value of one property goes by the words that a
value of another one goes by, the words of the properties in front. -/
structure WordsApart (properties : List Property) : Prop where
  within : ∀ p ∈ properties, (p.values.map fun value => constantWords value.display).Nodup
  across : properties.Pairwise fun p q => ∀ v ∈ p.values, ∀ w ∈ q.values,
    constantWords p.name ++ constantWords v.display ≠ constantWords q.name ++ constantWords w.display

instance (properties : List Property) : Decidable (WordsApart properties) :=
  decidable_of_iff (_ ∧ _) ⟨fun h => ⟨h.1, h.2⟩, fun h => ⟨h.within, h.across⟩⟩

/-- Where the values of a model are not given names, its constants have distinct names just when the words
that these are made of are apart. Values that differ need not have words that do: signs and other marks
stand between words, and so does the end of the name of a property. -/
theorem constantNames_nodup_iff (hg : g.WellFormed) {options : Options} {name : Tree} {model : Value}
    {d : Blueprint} (h : g.blueprint options name model = .ok (some d))
    (hnames : ∀ m ∈ (g.object? (g.get model "properties")).getD [], g.truthy (g.get m.2 "enum") →
      g.truthy (g.get m.2 "x-enum-key-attributes") = false) :
    d.constantNames.Nodup ↔ WordsApart d.properties := by
  obtain ⟨members, s, hmembers, hext, horigins⟩ := Graph.blueprint_origins hg h
  rw [hmembers, Option.getD_some] at hnames
  have hnamed : ∀ p ∈ d.properties, (p.constants.getD []).map (·.name) =
      p.values.map fun value => Constant.nameOf value p.name := by
    intro p hp
    have horigins := (List.forall₂_and_left _ _).mpr ⟨hnames, horigins⟩
    obtain ⟨m, hm, hv, required, u, dependency, hflagged, hproperty⟩ :=
      exists_of_forall₂ horigins.flip p hp
    have hget : ∀ key, key ≠ "required" →
        s.graph.truthy (s.graph.get u key) = g.truthy (g.get m.2 key) := fun key hkey => by
      rw [hflagged.get_of_ne hext hv hkey, hext.truthy (hg.has_get m.2 key)]
    refine property_constantNames hproperty ?_
    rw [hget _ (by decide), hget _ (by decide)]
    exact hm
  have hconstantNames : d.constantNames =
      d.properties.flatMap fun p => p.values.map fun value => Constant.nameOf value p.name :=
    List.flatMap_congr hnamed
  rw [hconstantNames, List.nodup_flatMap]
  have hwithin : ∀ p : Property, (p.values.map fun value => Constant.nameOf value p.name).Nodup ↔
      (p.values.map fun value => constantWords value.display).Nodup := fun p => by
    simp only [List.Nodup, List.pairwise_map, ne_eq, Constant.nameOf_eq_iff, List.append_cancel_left_eq]
  have hacross : ∀ p q : Property, List.Disjoint
      (p.values.map fun value => Constant.nameOf value p.name)
      (q.values.map fun value => Constant.nameOf value q.name) ↔
      ∀ v ∈ p.values, ∀ w ∈ q.values, constantWords p.name ++ constantWords v.display ≠
        constantWords q.name ++ constantWords w.display := fun p q => by
    simp only [List.disjoint_left, List.mem_map, not_exists, not_and, forall_exists_index, and_imp,
      forall_apply_eq_imp_iff₂]
    exact forall₂_congr fun v _ => forall₂_congr fun w _ =>
      not_congr (eq_comm.trans Constant.nameOf_eq_iff)
  constructor
  · rintro ⟨hnodup, hdisjoint⟩
    exact ⟨fun p hp => (hwithin p).mp (hnodup p hp), hdisjoint.imp fun hpq => (hacross _ _).mp hpq⟩
  · rintro ⟨hwords, hapart⟩
    exact ⟨fun p hp => (hwithin p).mpr (hwords p hp), hapart.imp fun hpq => (hacross _ _).mpr hpq⟩

theorem constantNames_nodup_iff_task : ∃ d,
    (taskOf "string" [.text "open", .text "done"]).graph.blueprint plainOptions (.text "Task")
      (taskOf "string" [.text "open", .text "done"]).root = .ok (some d) ∧ d.constantNames.Nodup := by
  have hg : (taskOf "string" [.text "open", .text "done"]).WellFormed := wellFormed_ofTree (by decide)
  obtain ⟨d, hd, hapart⟩ := exists_ok_some
    (x := (taskOf "string" [.text "open", .text "done"]).graph.blueprint plainOptions (.text "Task")
      (taskOf "string" [.text "open", .text "done"]).root)
    (f := fun d => decide (WordsApart d.properties)) (c := true) (by decide +kernel)
  exact ⟨d, hd, (constantNames_nodup_iff hg.graph hd (by decide +kernel)).mpr (of_decide_eq_true hapart)⟩

/-- Two numbers that differ in their sign: their constants have one name, which is exported twice. -/
theorem signed_constantNames : ∃ d,
    (taskOf "integer" [.int 1, .int (-1)]).graph.blueprint plainOptions (.text "Task")
      (taskOf "integer" [.int 1, .int (-1)]).root = .ok (some d) ∧
      d.constantNames = ["STATUS_1", "STATUS_1"] ∧ ¬ d.constantNames.Nodup ∧
      Source.constantItems d =
        [.blank, .exportConst "STATUS_1" "1", .exportConst "STATUS_1" "-1"] :=
  ⟨_, rfl, rfl, by decide, rfl⟩

end ApiRecords
