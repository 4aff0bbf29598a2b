import ApiRecords.Proofs.Entities
import ApiRecords.Schema.Definitions

/-!
The models of a document whose definitions are named by texts: each name once, in the place of its first
definition, with its last one.
-/

namespace ApiRecords

variable {g : Graph} {name : String} {v : Value}

theorem Tree.text?_eq_some {t : Tree} {s : String} : t.text? = some s ↔ t = .text s := by
  unfold text?
  split <;> simp_all

namespace Graph

/-- The name of a definition. An empty text names nothing. -/
def nameOf? (g : Graph) (v : Value) : Option String := (g.modelName v).text?.filter (· ≠ "")

/-- The definitions that are named, each under its name. -/
def named (g : Graph) (definitions : List (String × Value)) : List (String × Value) :=
  definitions.filterMap fun d => (g.nameOf? d.2).map fun name => (name, d.2)

/-- The models found, with that of one more definition. -/
def collect (g : Graph) (found : List (Scalar × Value)) (d : String × Value) :
    Except Fault (List (Scalar × Value)) := do
  let name := g.modelName d.2
  if name.truthy then return putBy Scalar.same (← name.key?) d.2 found else return found

/-- Whether the definitions that have a name are named by texts. -/
def NamedByTexts (g : Graph) (definitions : List (String × Value)) : Prop :=
  ∀ d ∈ definitions, (g.modelName d.2).truthy → ∃ s, g.modelName d.2 = .text s

theorem nameOf?_eq_some : g.nameOf? v = some name ↔ g.modelName v = .text name ∧ name ≠ "" := by
  rw [nameOf?, Option.filter_eq_some_iff, Tree.text?_eq_some]
  simp

theorem nameOf?_eq_none (h : (g.modelName v).truthy → ∃ s, g.modelName v = .text s) :
    g.nameOf? v = none ↔ (g.modelName v).truthy = false := by
  cases htruthy : (g.modelName v).truthy with
  | false =>
    refine iff_of_true (Option.eq_none_iff_forall_ne_some.mpr fun s hs => ?_) rfl
    obtain ⟨hname, hs⟩ := nameOf?_eq_some.mp hs
    simp [hname, Tree.truthy, Scalar.truthy, hs] at htruthy
  | true =>
    obtain ⟨s, hname⟩ := h htruthy
    have hs : s ≠ "" := by simpa [hname, Tree.truthy, Scalar.truthy] using htruthy
    simp [nameOf?_eq_some.mpr ⟨hname, hs⟩]

end Graph

/-- The last of the definitions under a name. -/
def lastNamed (named : List (String × Value)) (name : String) : Value :=
  (named.reverse.lookup name).getD .null

theorem lastNamed_concat (named : List (String × Value)) (name other : String) (v : Value) :
    lastNamed (named ++ [(name, v)]) other = if other = name then v else lastNamed named other := by
  rw [lastNamed, List.reverse_concat, List.lookup_cons]
  by_cases h : other = name
  · simp [h]
  · have hbeq : (other == name) = false := by simpa using h
    simp [lastNamed, h, hbeq]

theorem putBy_text {names : List String} (hnames : names.Nodup) (f : String → Value) (name : String)
    (v : Value) : putBy Scalar.same (.text name) v (names.map fun n => (.text n, f n)) =
      (if name ∈ names then names else names ++ [name]).map
        fun n => (.text n, if n = name then v else f n) := by
  induction names with
  | nil => simp [putBy]
  | cons first names ih =>
    obtain ⟨hfirst, hrest⟩ := List.nodup_cons.mp hnames
    rw [List.map_cons, putBy, Scalar.same_texts]
    by_cases heq : first = name
    · -- the others keep their values, being others
      subst heq
      have hothers : names.map (fun n => (Scalar.text n, if n = first then v else f n)) =
          names.map fun n => (.text n, f n) :=
        List.map_congr_left fun n hn => by rw [if_neg (ne_of_mem_of_not_mem hn hfirst)]
      simp [hothers]
    · rw [if_neg (by simpa using heq), ih hrest]
      have hmem : name ∈ first :: names ↔ name ∈ names := by simp [Ne.symm heq]
      simp only [hmem]
      split <;> simp [heq]

theorem Graph.named_concat (g : Graph) (definitions : List (String × Value)) (d : String × Value) :
    g.named (definitions ++ [d]) =
      g.named definitions ++ ((g.nameOf? d.2).map fun name => (name, d.2)).toList := by
  rw [named, List.filterMap_append]
  cases h : g.nameOf? d.2 <;> simp [named, h]

theorem Graph.foldlM_collect {definitions : List (String × Value)}
    (htexts : g.NamedByTexts definitions) :
    let named := g.named definitions
    definitions.foldlM g.collect [] =
      .ok ((named.map Prod.fst).eraseDups.map fun n => (.text n, lastNamed named n)) := by
  induction definitions using List.reverseRecOn with
  | nil => rfl
  | append_singleton definitions d ih =>
    have hd := htexts d (by simp)
    rw [List.foldlM_append, ih fun d' hd' => htexts d' (List.mem_append_left _ hd'), named_concat]
    cases hname : g.nameOf? d.2 with
    | none =>
      have hfalse := (nameOf?_eq_none hd).mp hname
      simp [bind, Except.bind, collect, hfalse, pure, Except.pure]
    | some name =>
      obtain ⟨htext, hne⟩ := nameOf?_eq_some.mp hname
      have htruthy : (Tree.text name).truthy = true := by simp [Tree.truthy, Scalar.truthy, hne]
      have hput := putBy_text (nodup_eraseDups ((g.named definitions).map Prod.fst))
        (lastNamed (g.named definitions)) name d.2
      simp only [List.mem_eraseDups] at hput
      simp [bind, Except.bind, collect, htext, htruthy, Tree.key?, pure, Except.pure, hput,
        lastNamed_concat, eraseDups_concat]

namespace Document

/-- Of the definitions that share a name, the models have the last one, in the place of the first. -/
theorem models_eq {doc : Document} {v2 : Bool} {definitions : List (String × Value)}
    (hdefinitions : doc.definitions v2 = .ok definitions)
    (htexts : doc.graph.NamedByTexts definitions) :
    let named := doc.graph.named definitions
    doc.models v2 = .ok ((named.map Prod.fst).eraseDups.map fun n => (.text n, lastNamed named n)) := by
  have hmodels : doc.models v2 = doc.definitions v2 >>= fun ds => ds.foldlM doc.graph.collect [] := rfl
  rw [hmodels, hdefinitions]
  exact Graph.foldlM_collect htexts

end Document

end ApiRecords
