import ApiRecords.Proofs.Expansion.Nesting
import ApiRecords.Proofs.Expansion.Straight
import ApiRecords.Proofs.Reordering.Alike

/-!
When an expansion fails: where its references are straight, just where the unfolded document cannot
be read on.
-/

namespace ApiRecords

/-! ### Documents that cannot be read on -/

/-- Whether a shape has a value at a slot. -/
def Shape.Has : Shape → Slot → Prop
  | array length, .index i => i < length
  | object keys, .key k => k ∈ keys
  | _, _ => False

/-- Whether there is a slot that is read as having a value, which cannot be read. -/
def Breaks (read : List Slot → Option Shape) : Prop :=
  ∃ path slot shape, read path = some shape ∧ shape.Has slot ∧ read (path ++ [slot]) = none

theorem Node.has_shape_iff (n : Node) (slot : Slot) : n.shape.Has slot ↔ (n.at? slot).isSome := by
  cases n with
  | array items =>
    cases slot with
    | key k => simp [shape, Shape.Has, at?]
    | index i => simp [shape, Shape.Has, at?]
  | object members =>
    cases slot with
    | index i => simp [shape, Shape.Has, at?]
    | key k => exact mem_keys_iff

theorem Shape.Alike.has {s t : Shape} (h : s.Alike t) {slot : Slot} (hs : s.Has slot) :
    t.Has slot := by
  cases h with
  | scalar => exact hs
  | array => exact hs
  | object hperm =>
    cases slot with
    | index i => exact hs
    | key k => exact hperm.mem_iff.mp hs

theorem Breaks.alike {read read' : List Slot → Option Shape}
    (h : ∀ path, Option.Rel Shape.Alike (read path) (read' path)) (hread : Breaks read) :
    Breaks read' := by
  obtain ⟨path, slot, shape, hpath, hhas, hslot⟩ := hread
  have hpath' := h path
  have hslot' := h (path ++ [slot])
  rw [hpath] at hpath'
  rw [hslot] at hslot'
  generalize hshape' : read' path = a at hpath'
  generalize hnone' : read' (path ++ [slot]) = b at hslot'
  cases hpath' with
  | some halike =>
    cases hslot' with
    | none => exact ⟨path, slot, _, hshape', halike.has hhas, hnone'⟩

/-- A document that leads nowhere out of itself can be read on everywhere. -/
theorem Document.WellFormed.not_breaks {doc : Document} (h : doc.WellFormed) : ¬ Breaks doc.read := by
  rintro ⟨path, slot, shape, hpath, hhas, hslot⟩
  rw [Document.read_eq_find] at hpath hslot
  obtain ⟨v, hv, hshape⟩ := Option.bind_eq_some_iff.mp hpath
  cases v with
  | scalar s => cases hshape; exact hhas
  | node id =>
    obtain ⟨n, hn, rfl⟩ := Option.map_eq_some_iff.mp hshape
    obtain ⟨w, hw⟩ := Option.isSome_iff_exists.mp ((n.has_shape_iff slot).mp hhas)
    have hat : doc.graph.at? (.node id) slot = some w := by
      rw [Graph.at?, ← Graph.plain, hn, Option.bind_some, hw]
    rw [Document.find_snoc.mpr ⟨_, hv, hat⟩, Option.bind_some] at hslot
    cases w with
    | scalar s => cases hslot
    | node j =>
      obtain ⟨m, hm⟩ := Graph.node?_of_has (h.graph.values _ _ _ hat)
      rw [readPath, Graph.plain, hm] at hslot
      cases hslot

/-! ### Values that are reached past no reference -/

/-- Whether `w` stands in a slot of `v` and is no reference. -/
def Graph.Under (g : Graph) (v w : Value) : Prop :=
  ∃ slot, g.at? v slot = some w ∧ g.refText? w = none

variable {g : Graph} {resolve : String → Option Value} {v w : Value}

theorem Graph.unfold_of_plain {path : List Slot} (h : g.refText? v = none) :
    readPath (g.unfold resolve) (g.unfold resolve) path v =
      readPath g.plain (g.unfold resolve) path v := by
  cases v with
  | scalar s => cases path <;> rfl
  | node id =>
    cases path <;> simp only [readPath, Graph.unfold_plain h resolve]

/-- What is reached past no reference can be read from where it was reached. -/
theorem exists_path_of_under (resolve : String → Option Value)
    (h : Relation.ReflTransGen g.Under v w) : ∃ path, ∀ rest,
    readPath g.plain (g.unfold resolve) (path ++ rest) v =
      readPath g.plain (g.unfold resolve) rest w := by
  induction h with
  | refl => exact ⟨[], fun _ => rfl⟩
  | @tail u w _ hslot ih =>
    obtain ⟨path, hpath⟩ := ih
    obtain ⟨slot, hat, hplain⟩ := hslot
    refine ⟨path ++ [slot], fun rest => ?_⟩
    rw [List.append_assoc, hpath, List.singleton_append]
    cases u with
    | scalar s => cases hat
    | node id =>
      have hat' : (g.plain id).bind (·.at? slot) = some w := hat
      rw [readPath, hat', Option.bind_some, Graph.unfold_of_plain hplain]

/-- A reference that stands for nothing, reached past no other, is where a document breaks. -/
theorem breaks_of_ref {id : Nat} {slot : Slot} {ref : String} {root : Value}
    (hreached : Relation.ReflTransGen g.Under root (.node id))
    (hat : g.at? (.node id) slot = some v) (href : g.refText? v = some ref)
    (hnone : resolve ref = none) : Breaks fun path => readPath g.plain (g.unfold resolve) path root := by
  obtain ⟨path, hpath⟩ := exists_path_of_under resolve hreached
  obtain ⟨n, hn, hslot⟩ := Option.bind_eq_some_iff.mp hat
  have hhere : readPath g.plain (g.unfold resolve) path root = some n.shape := by
    rw [← List.append_nil path, hpath, readPath, Graph.plain, hn, Option.map_some]
  have hhas : n.shape.Has slot := (n.has_shape_iff slot).mpr (by rw [hslot]; rfl)
  have hnext : readPath g.plain (g.unfold resolve) (path ++ [slot]) root = none := by
    rw [hpath, readPath, Graph.plain, hn, Option.bind_some, hslot, Option.bind_some]
    cases v with
    | scalar s => cases href
    | node j => rw [readPath, Graph.unfold_ref href, hnone]; rfl
  exact ⟨path, slot, n.shape, hhere, hhas, hnext⟩

namespace Expansion

variable {origin : Document} {x y z : Expansion} {id : Nat} {slot : Slot} {ref : String}
  {depth : Nat} {e : Fault}

theorem Valid.under_steps (hx : Valid origin x) (hs : Steps x y) (h : x.doc.graph.Under v w) :
    y.doc.graph.Under v w := by
  obtain ⟨slot, hat, hplain⟩ := h
  obtain ⟨n, hn, hslot⟩ := Option.bind_eq_some_iff.mp hat
  obtain ⟨n', hn', hrel⟩ := hx.node?_steps hs hn
  rw [← hx.kept] at hrel
  refine ⟨slot, ?_, ?_⟩
  · rw [Graph.at?, hn', Option.bind_some]
    exact kept_of_rel (hrel.at? slot) hslot hplain
  · rw [(hx.steps hs).refText?, ← hx.refText?, hplain]

theorem Valid.reached_steps (hx : Valid origin x) (hs : Steps x y)
    (h : Relation.ReflTransGen x.doc.graph.Under v w) : Relation.ReflTransGen y.doc.graph.Under v w :=
  Relation.ReflTransGen.mono (fun _ _ => hx.under_steps hs) _ _ h

/-- What comes to stand in a settled slot is no reference. -/
theorem under_settle (hx : Valid origin x) (hat : x.doc.graph.at? (.node id) slot = some v)
    (h : x.settle id slot v = .ok (w, z)) : z.doc.graph.Under (.node id) w := by
  have hz : Valid origin z := hx.steps (steps_settle hat h)
  cases settle_ok h with
  | inl hplain =>
    obtain ⟨hplain, rfl, rfl⟩ := hplain
    exact ⟨slot, hat, hplain⟩
  | inr hcopy =>
    obtain ⟨ref, target, y, href, hfound, rfl, rfl⟩ := hcopy
    obtain ⟨m, hm, hslot⟩ := Option.bind_eq_some_iff.mp hat
    refine ⟨slot, ?_, ?_⟩
    · rw [← hfound.doc] at hm ⊢
      rw [graph_replaceRef, Graph.at?, Graph.node?_graft_self hm, Option.bind_some,
        Node.at?_set_self hslot]
    · rw [hz.refText?, ← hx.refText?, Graph.refText?_new]

theorem Entering.steps (h : Entering origin id x) (hm : Meets id x (slot, v) y) : Steps x y :=
  .head (.mark h.lt) (h.ran hm).1.steps

theorem Calls.steps (horigin : origin.WellFormed) (h : Calls origin id x) :
    Steps ⟨origin, [], []⟩ x := by
  induction h with
  | root _ => exact .refl
  | inner hcall hm hs hnot ih =>
    have hentering := hcall.entering horigin
    exact (ih.trans (hentering.steps hm)).trans (steps_settle (hentering.ran hm).2 hs)

/-- A container that is being entered has been reached past no reference. -/
theorem Calls.under (horigin : origin.WellFormed) (h : Calls origin id x) :
    Relation.ReflTransGen x.doc.graph.Under origin.root (.node id) := by
  induction h with
  | root hroot => rw [hroot]
  | inner hcall hm hs hnot ih =>
    have hentering := hcall.entering horigin
    have hworking := hentering.working hm
    have hsteps := (hentering.steps hm).trans (steps_settle hworking.at? hs)
    exact .tail (hentering.valid.reached_steps hsteps ih)
      (under_settle hworking.valid hworking.at? hs)

/-! ### A run that fails -/

/-- A run that fails in the end fails at a slot that it comes to. -/
theorem exists_failure (hcall : Calls origin id x) (hnot : id ∉ x.entered)
    (h : enter depth (.node id) x = .error e) (hend : e ≠ .endlessExpansion) :
    ∃ id x slot v y, Calls origin id x ∧ Meets id x (slot, v) y ∧ y.settle id slot v = .error e := by
  induction depth generalizing id x with
  | zero =>
    rw [enter_zero hnot] at h
    exact absurd (Except.error.inj h).symm hend
  | succ depth ih =>
    obtain ⟨slot, v, y, hmeets, hsettle | ⟨id', y', hsettle, hnot', hinner⟩⟩ := enter_error hnot h
    · exact ⟨id, x, slot, v, y, hcall, hmeets, hsettle⟩
    · exact ih (hcall.inner hmeets hsettle hnot') hnot' hinner

/-- Where a run fails, the unfolded document cannot be read on. -/
theorem breaks_of_enter (horigin : origin.WellFormed) (h : origin.Straight)
    (hrun : enter depth origin.root ⟨origin, [], []⟩ = .error e) (hend : e ≠ .endlessExpansion) :
    Breaks origin.readTargets := by
  cases hroot : origin.root with
  | scalar s =>
    rw [hroot, enter_scalar] at hrun
    cases hrun
  | node root =>
    rw [hroot] at hrun
    obtain ⟨id, x, slot, v, y, hcall, hmeets, hsettle⟩ :=
      exists_failure (.root hroot) List.not_mem_nil hrun hend
    have hentering := hcall.entering horigin
    have hworking := hentering.working hmeets
    have hsteps := (hcall.steps horigin).trans (hentering.steps hmeets)
    obtain ⟨ref, href, htarget⟩ := settle_error hsettle
    have hnone : origin.target? ref = none := by
      rw [← target?_steps horigin h hsteps ((hworking.valid.refText? v).symm.trans href),
        Document.target?, htarget]
      rfl
    have hunder := hentering.valid.reached_steps (hentering.steps hmeets) (hcall.under horigin)
    have hbreaks := breaks_of_ref hunder hworking.at? href hnone
    rwa [funext (faithful_straight horigin h hsteps).reading] at hbreaks

end Expansion

namespace Document

variable {doc prepared : Document} {depth : Nat}

/-- A document expanded without fail reads along every path as the document with its references
unfolded on the way. -/
theorem Straight.read_expand (hdoc : doc.WellFormed) (h : doc.Straight)
    (hrun : doc.expand depth = .ok prepared) :
    prepared.WellFormed ∧ ∀ path, prepared.read path = doc.readTargets path := by
  obtain ⟨x, rfl, hx⟩ := Expansion.prepared_of_expand hdoc hrun
  refine ⟨⟨hx.valid.wellFormed, ?_⟩, fun path => ?_⟩
  · rw [hx.valid.root]
    exact Graph.has_of_size hdoc.root hx.valid.size
  · calc
      x.doc.read path =
          readPath x.doc.graph.plain (x.doc.graph.unfold doc.target?) path doc.root :=
        hx.read_eq _ path
      _ = doc.readTargets path := (Expansion.faithful_straight hdoc h hx.steps).reading path

/-- An expansion that ends succeeds just where the unfolded document can be read on. -/
theorem Straight.exists_expand_iff (hdoc : doc.WellFormed) (h : doc.Straight)
    (hends : doc.expand depth ≠ .error .endlessExpansion) :
    (∃ prepared, doc.expand depth = .ok prepared) ↔ ¬ Breaks doc.readTargets := by
  constructor
  · rintro ⟨prepared, hrun⟩
    obtain ⟨hprepared, hread⟩ := h.read_expand hdoc hrun
    rw [← funext hread]
    exact hprepared.not_breaks
  · intro hbreaks
    cases hrun : Expansion.enter depth doc.root ⟨doc, [], []⟩ with
    | ok x => exact ⟨x.doc, by rw [expand, hrun]; rfl⟩
    | error e =>
      have hne : e ≠ .endlessExpansion := by
        rintro rfl
        exact hends (by rw [expand, hrun]; rfl)
      exact absurd (Expansion.breaks_of_enter hdoc h hrun hne) hbreaks

end Document

end ApiRecords
