import ApiRecords.Proofs.Expansion.Run

/-!
A prepared document read along paths, against the marked document read lazily, where a reference
gives way to its target on access. That containers are shared, that targets are remembered and that
copies are taken of targets still being worked on cannot be read off.
-/

namespace ApiRecords

inductive Shape where
  | scalar (s : Scalar)
  | array (length : Nat)
  | object (keys : List String)
  deriving DecidableEq

namespace Node

def shape : Node → Shape
  | array items => .array items.length
  | object members => .object (members.map Prod.fst)

theorem Rel.shape {R : Value → Value → Prop} {m n : Node} (h : Rel R m n) : m.shape = n.shape := by
  cases h with
  | array h => simp [Node.shape, h.length_eq]
  | object h => simp [Node.shape, MembersRel.keys h]

end Node

/-! ### Reading along paths -/

/-- Reads a value along a path. `here` opens the value, `inner` what is below it. -/
def readPath (here inner : Nat → Option Node) : List Slot → Value → Option Shape
  | [], .scalar s => some (.scalar s)
  | _ :: _, .scalar _ => none
  | [], .node id => (here id).map Node.shape
  | slot :: path, .node id => ((here id).bind (·.at? slot)).bind (readPath inner inner path)

namespace Graph

def plain (g : Graph) (id : Nat) : Option Node := g.node? (.node id)

/-- The container in the place of an element: for a reference its target, and over that the members
beside the reference. -/
def unfold (g : Graph) (resolve : String → Option Value) (id : Nat) : Option Node :=
  match g.refText? (.node id) with
  | none => g.plain id
  | some ref => (resolve ref).map fun target =>
    .object (Expansion.merged ref (g.members target) (g.members (.node id)))

end Graph

namespace Document

def resolve? (doc : Document) (ref : String) : Option Value := (doc.resolve ref).toOption

def read (doc : Document) (path : List Slot) : Option Shape :=
  readPath doc.graph.plain doc.graph.plain path doc.root

/-- Reads the document with each reference below the root unfolded. -/
def readUnfolded (doc : Document) (path : List Slot) : Option Shape :=
  readPath doc.graph.plain (doc.graph.unfold doc.resolve?) path doc.root

end Document

/-- Whether two values are the same scalar, or containers that are opened alike up to `R`. -/
inductive Matches (R : Value → Value → Prop) (here here' : Nat → Option Node) : Value → Value → Prop
  | scalar {s} : Matches R here here' (.scalar s) (.scalar s)
  | node {i j} : Option.Rel (Node.Rel R) (here i) (here' j) → Matches R here here' (.node i) (.node j)

/-- Values that match, and match all the way down, are read alike. -/
theorem readPath_eq {R : Value → Value → Prop} {here here' inner inner' : Nat → Option Node}
    {v w : Value} (hinner : ∀ v w, R v w → Matches R inner inner' v w)
    (h : Matches R here here' v w) (path : List Slot) :
    readPath here inner path v = readPath here' inner' path w := by
  induction path generalizing here here' v w with
  | nil =>
    cases h with
    | scalar => rfl
    | @node i j h =>
      rw [readPath, readPath]
      generalize here i = m, here' j = n at h ⊢
      cases h with
      | none => rfl
      | some h => simp [h.shape]
  | cons slot path ih =>
    cases h with
    | scalar => rfl
    | @node i j h =>
      rw [readPath, readPath]
      generalize here i = m, here' j = n at h ⊢
      cases h with
      | none => rfl
      | @some m n h =>
        have hat := h.at? slot
        rw [Option.bind_some, Option.bind_some]
        generalize m.at? slot = a, n.at? slot = b at hat ⊢
        cases hat with
        | none => rfl
        | some hR => exact ih (hinner _ _ hR)

/-! ### One copy -/

namespace Graph

/-- Values of a graph, against those of the same graph with a copy in one place of `u`. -/
def Grafted (g : Graph) (u v w : Value) : Prop := g.Has v ∧ (w = v ∨ v = u ∧ w = .node g.size)

variable {g : Graph} {id : Nat} {slot : Slot} {u v target : Value} {ref : String} {n : Node}
  {resolve : String → Option Value}

theorem unfold_plain (h : g.refText? (.node id) = none) (resolve : String → Option Value) :
    g.unfold resolve id = g.plain id := by
  simp [unfold, h]

theorem unfold_ref (h : g.refText? (.node id) = some ref) (resolve : String → Option Value) :
    g.unfold resolve id = (resolve ref).map fun target =>
      .object (Expansion.merged ref (g.members target) (g.members (.node id))) := by
  simp [unfold, h]

theorem grafted_scalar (u : Value) (s : Scalar) : g.Grafted u (.scalar s) (.scalar s) :=
  ⟨trivial, .inl rfl⟩

theorem rel_grafted (hg : g.WellFormed) (hat : g.at? (.node id) slot = some u) (n : Node)
    (hv : g.Has v) : Option.Rel (Node.Rel (g.Grafted u)) (g.node? v) ((g.graft id slot n).1.node? v) := by
  cases hm : g.node? v with
  | none =>
    cases v with
    | scalar s => exact .none
    | node j =>
      obtain ⟨m, hm'⟩ := node?_of_has hv
      simp [hm] at hm'
  | some m =>
    obtain ⟨m', hm', hrel⟩ := rel_graft (R := fun v w => w = v ∨ v = u ∧ w = .node g.size)
      (fun _ => .inl rfl) hat (.inr ⟨rfl, rfl⟩) n hm
    rw [hm']
    exact .some (hrel.and_left (hg.keys v m hm) fun s a ha => hg.values v s a (by simp [at?, hm, ha]))

theorem membersRel_grafted (hg : g.WellFormed) (hat : g.at? (.node id) slot = some u) (n : Node)
    (hv : g.Has v) :
    MembersRel (g.Grafted u) (g.members v) ((g.graft id slot n).1.members v) := by
  have hrel := rel_grafted hg hat n hv
  unfold members object?
  generalize g.node? v = m, (g.graft id slot n).1.node? v = m' at hrel ⊢
  cases hrel with
  | none => exact .nil
  | some hrel =>
    cases hrel with
    | array _ => exact .nil
    | object h => exact h

theorem membersRel_refl (hg : g.WellFormed) (u v : Value) :
    MembersRel (g.Grafted u) (g.members v) (g.members v) := by
  apply List.forall₂_same.mpr
  intro m hm
  exact ⟨rfl, hg.values v _ _ (at?_of_mem_members hg hm), .inl rfl⟩

/-- A copy reads like the reference that it replaces, whatever place is left by others. -/
theorem matches_grafted (hg : g.WellFormed) (hat : g.at? (.node id) slot = some u)
    (href : g.refText? u = some ref)
    (hresolve : ∀ v r t, g.refText? v = some r → resolve r = some t → g.Has t)
    (htarget : resolve ref = some target) (hplain : g.refText? target = none) {v w : Value}
    (h : g.Grafted u v w) :
    let g' := (g.graft id slot (.object (Expansion.merged ref (g.members target) (g.members u)))).1
    Matches (g.Grafted u) (g.unfold resolve) (g'.unfold resolve) v w := by
  intro g'
  have hid : id < g.size := has_of_at? hat
  have hrefs : ∀ v, g'.refText? v = g.refText? v := by
    apply refText?_graft hat href
    rw [Node.at?, Expansion.lookup_merged_refKey, ← refText?_eq_members, hplain]
  obtain ⟨hv, rfl | ⟨rfl, rfl⟩⟩ := h
  · cases w with
    | scalar s => exact .scalar
    | node j =>
      apply Matches.node
      cases hr : g.refText? (.node j) with
      | none =>
        rw [unfold_plain hr, unfold_plain (by rw [hrefs, hr])]
        exact rel_grafted hg hat _ hv
      | some r =>
        rw [unfold_ref hr, unfold_ref (by rw [hrefs, hr])]
        cases ht : resolve r with
        | none => exact .none
        | some t =>
          exact .some (.object (Expansion.membersRel_merged (grafted_scalar u)
            (membersRel_grafted hg hat _ (hresolve _ r t hr ht)) (membersRel_grafted hg hat _ hv)))
  · cases v with
    | scalar s => cases href
    | node j =>
      apply Matches.node
      rw [unfold_ref href, htarget, Option.map_some, unfold_plain (by rw [hrefs, refText?_new])]
      rw [plain, node?_graft_new hid]
      exact .some (.object (Expansion.membersRel_merged (grafted_scalar _)
        (membersRel_refl hg _ target) (membersRel_refl hg _ (.node j))))

end Graph

/-! ### References that pass no other -/

/-- Whether tokens lead from one value to another past no reference. -/
inductive Graph.Follows (g : Graph) : List String → Value → Value → Prop
  | nil {v} : Follows g [] v v
  | cons {token tokens u v w} : g.step u token = some v → g.refText? v = none →
      Follows g tokens v w → Follows g (token :: tokens) u w

theorem Graph.Follows.foldlM {g : Graph} {tokens : List String} {v w : Value}
    (h : g.Follows tokens v w) : tokens.foldlM g.step v = some w := by
  induction h with
  | nil => rfl
  | cons hstep _ _ ih => simp [List.foldlM_cons, hstep, ih]

namespace Document

/-- Whether a reference leads past no other to a mapping that is none itself. -/
structure LeadsTo (doc : Document) (ref : String) (target : Value) : Prop where
  isLocal : ref.toList.head? = some '#'
  follows : doc.graph.Follows (Pointer.tokens ref) doc.root target
  object : (doc.graph.object? target).isSome
  plain : doc.graph.refText? target = none

/-- Whether every reference in a document does. -/
def RefsPlain (doc : Document) : Prop :=
  ∀ v ref, doc.graph.refText? v = some ref → ∃ target, doc.LeadsTo ref target

variable {doc : Document} {ref : String} {v : Value}

theorem LeadsTo.resolve (h : doc.LeadsTo ref v) : doc.resolve ref = .ok v := by
  simp [Document.resolve, h.isLocal, h.follows.foldlM]

theorem LeadsTo.resolve? (h : doc.LeadsTo ref v) : doc.resolve? ref = some v := by
  rw [Document.resolve?, h.resolve]
  rfl

/-- A mapping that is no reference is its own target. -/
theorem target_of_resolve (hresolve : doc.resolve ref = .ok v) (hobject : (doc.graph.object? v).isSome)
    (hplain : doc.graph.refText? v = none) : doc.target ref = .ok v := by
  obtain ⟨members, hmembers⟩ := Option.isSome_iff_exists.mp hobject
  have hchase : doc.chase ref doc.graph.size [ref] v = .ok v := by
    cases doc.graph.size <;> simp [chase, hmembers, hplain]
  simp only [Document.target, hresolve, bind_ok_iff]
  exact ⟨v, rfl, by simp [hmembers, hchase]⟩

theorem LeadsTo.target (h : doc.LeadsTo ref v) : doc.target ref = .ok v :=
  target_of_resolve h.resolve h.object h.plain

end Document

theorem itemAt_rel {R : Value → Value → Prop} {as bs : List Value} (h : List.Forall₂ R as bs)
    (i : Int) : Option.Rel R (Pointer.itemAt as i) (Pointer.itemAt bs i) := by
  unfold Pointer.itemAt
  rw [h.length_eq]
  split
  · exact forall₂_getElem? h _
  · split
    · exact forall₂_getElem? h _
    · exact .none

theorem kept_of_rel {g : Graph} {a b : Option Value} {v : Value} (h : Option.Rel g.Kept a b)
    (ha : a = some v) (hv : g.refText? v = none) : b = some v := by
  cases h with
  | none => cases ha
  | some hkept =>
    obtain rfl := Option.some.inj ha
    rw [hkept hv]

theorem Graph.has_of_step {g : Graph} {v w : Value} {token : String} (h : g.step v token = some w) :
    g.Has v := by
  unfold Graph.step at h
  cases hn : g.node? v with
  | none => simp [hn] at h
  | some n => exact has_of_node? hn

namespace Expansion

variable {origin : Document} {x y : Expansion} {ref : String} {u v w target : Value} {token : String}

theorem Valid.step_kept (hx : Valid origin x) (hs : Steps x y) (hv : x.doc.graph.Has v)
    (token : String) : Option.Rel x.doc.graph.Kept (x.doc.graph.step v token)
      (y.doc.graph.step v token) := by
  unfold Graph.step
  cases v with
  | scalar s => exact .none
  | node id =>
    obtain ⟨n, hn⟩ := Graph.node?_of_has hv
    obtain ⟨n', hn', hrel⟩ := hx.node?_steps hs hn
    rw [← hx.kept] at hrel
    rw [hn, hn']
    cases hrel with
    | object hrel => exact hrel.lookup token
    | array hrel =>
      dsimp only
      cases Text.readInt token with
      | none => exact .none
      | some i => exact itemAt_rel hrel i

/-- What is no reference is still found where it was. -/
theorem Valid.step_steps (hx : Valid origin x) (hs : Steps x y)
    (h : x.doc.graph.step v token = some w) (hw : x.doc.graph.refText? w = none) :
    y.doc.graph.step v token = some w :=
  kept_of_rel (hx.step_kept hs (Graph.has_of_step h) token) h hw

theorem Valid.follows_steps (hx : Valid origin x) (hs : Steps x y) {tokens : List String}
    (h : x.doc.graph.Follows tokens v w) : y.doc.graph.Follows tokens v w := by
  induction h with
  | nil => exact .nil
  | cons hstep hplain _ ih =>
    have hplain' := (hx.steps hs).refText? _ ▸ hx.refText? _ ▸ hplain
    exact .cons (hx.step_steps hs hstep hplain) hplain' ih

/-- What is a mapping stays one, and nothing else becomes one. -/
theorem Valid.isSome_object? (hx : Valid origin x) (hs : Steps x y) (hv : x.doc.graph.Has v) :
    (y.doc.graph.object? v).isSome = (x.doc.graph.object? v).isSome := by
  cases v with
  | scalar s => rfl
  | node id =>
    obtain ⟨n, hn⟩ := Graph.node?_of_has hv
    obtain ⟨n', hn', hrel⟩ := hx.node?_steps hs hn
    rw [Graph.object?, Graph.object?, hn, hn']
    cases hrel <;> rfl

theorem Valid.leadsTo_steps (hx : Valid origin x) (hs : Steps x y) (h : x.doc.LeadsTo ref v) :
    y.doc.LeadsTo ref v where
  isLocal := h.isLocal
  follows := by
    rw [(hx.steps hs).root, ← hx.root]
    exact hx.follows_steps hs h.follows
  object := (hx.isSome_object? hs (Graph.has_of_object? h.object)).trans h.object
  plain := by
    rw [(hx.steps hs).refText?, ← hx.refText?]
    exact h.plain

/-! ### The whole run -/

/-- What a state of the run keeps of the unfolding of the document it started from. -/
structure Faithful (origin : Document) (resolve : String → Option Value) (x : Expansion) : Prop where
  targets : ∀ ref target, x.targets.lookup ref = some target → resolve ref = some target
  reading : ∀ path, readPath x.doc.graph.plain (x.doc.graph.unfold resolve) path origin.root =
    readPath origin.graph.plain (origin.graph.unfold resolve) path origin.root

theorem matches_root (hx : Valid origin x) (hroot : x.doc.graph.Has origin.root) {id : Nat}
    {slot : Slot} (hat : x.doc.graph.at? (.node id) slot = some v) (n : Node) :
    Matches (x.doc.graph.Grafted v) x.doc.graph.plain (x.doc.graph.graft id slot n).1.plain
      origin.root origin.root := by
  cases hr : origin.root with
  | scalar s => exact .scalar
  | node j => exact .node (Graph.rel_grafted hx.wellFormed hat n (hr ▸ hroot))

/-- Targets that are found as `resolve` has them leave the unfolding as it is. -/
theorem faithful_of_targets (h : origin.WellFormed) {resolve : String → Option Value}
    (htarget : ∀ x v ref target, Steps ⟨origin, [], []⟩ x → origin.graph.refText? v = some ref →
      x.doc.target ref = .ok target → resolve ref = some target)
    (hresolve : ∀ v ref target, origin.graph.refText? v = some ref → resolve ref = some target →
      origin.graph.Has target)
    (hs : Steps ⟨origin, [], []⟩ x) : Faithful origin resolve x := by
  have hstart := valid_start h
  induction hs with
  | refl => exact ⟨nofun, fun _ => rfl⟩
  | @tail x y hs hstep ih =>
    have hx := hstart.steps hs
    cases hstep with
    | mark hid => exact ⟨ih.targets, ih.reading⟩
    | @find v ref target href hnone hfound =>
      refine ⟨fun r t hr => ?_, ih.reading⟩
      cases lookup_cons_cases hr with
      | inr hr => exact ih.targets r t hr
      | inl heq =>
        obtain ⟨rfl, rfl⟩ := heq
        exact htarget x v r t hs (hx.refText? v ▸ href) hfound
    | @replace id slot v ref target hat href hlookup =>
      refine ⟨ih.targets, fun path => ?_⟩
      rw [← ih.reading path, graph_replaceRef]
      have hhas : ∀ v r t, x.doc.graph.refText? v = some r → resolve r = some t →
          x.doc.graph.Has t :=
        fun v r t hr ht => Graph.has_of_size (hresolve v r t (hx.refText? v ▸ hr) ht) hx.size
      have hplain : x.doc.graph.refText? target = none :=
        (hx.refText? target).trans (hx.target ref target hlookup).2
      have hroot : x.doc.graph.Has origin.root := Graph.has_of_size h.root hx.size
      exact (readPath_eq
        (fun v w => Graph.matches_grafted hx.wellFormed hat href hhas
          (ih.targets ref target hlookup) hplain)
        (matches_root hx hroot hat _) path).symm

theorem faithful_steps (h : origin.WellFormed) (hrefs : origin.RefsPlain)
    (hs : Steps ⟨origin, [], []⟩ x) : Faithful origin origin.resolve? x := by
  apply faithful_of_targets h _ _ hs
  · intro x v ref target hs href hfound
    obtain ⟨t, hlead⟩ := hrefs v ref href
    have ht : x.doc.target ref = .ok t := ((valid_start h).leadsTo_steps hs hlead).target
    obtain rfl : target = t := by simpa [hfound] using ht
    exact hlead.resolve?
  · intro v ref target href ht
    obtain ⟨t, hlead⟩ := hrefs v ref href
    obtain rfl : t = target := Option.some.inj (hlead.resolve?.symm.trans ht)
    exact Graph.has_of_object? hlead.object

theorem Prepared.rel_settled (h : Prepared origin x) {id : Nat} (hid : id ∈ x.entered) :
    Option.Rel (Node.Rel fun v w => x.Settled v ∧ v = w) (x.doc.graph.plain id)
      (x.doc.graph.plain id) := by
  cases hn : x.doc.graph.plain id with
  | none => exact .none
  | some n =>
    have hvalues : ∀ slot v, n.at? slot = some v → x.Settled v := by
      intro slot v hat
      apply h.settled id hid slot
      rw [Graph.at?, ← Graph.plain, hn, Option.bind_some, hat]
    exact .some ((Node.Rel.refl (fun _ => rfl) n).and_left (h.valid.wellFormed.keys _ n hn) hvalues)

/-- Where no reference is left, nothing is unfolded. -/
theorem Prepared.read_eq (h : Prepared origin x) (resolve : String → Option Value)
    (path : List Slot) :
    x.doc.read path =
      readPath x.doc.graph.plain (x.doc.graph.unfold resolve) path origin.root := by
  rw [Document.read, h.valid.root]
  have hinner : ∀ v w, x.Settled v ∧ v = w → Matches (fun v w => x.Settled v ∧ v = w)
      x.doc.graph.plain (x.doc.graph.unfold resolve) v w := by
    rintro v w ⟨hv, rfl⟩
    cases v with
    | scalar s => exact .scalar
    | node id =>
      apply Matches.node
      rw [Graph.unfold_plain hv.plain]
      exact h.rel_settled (hv.entered id rfl)
  apply readPath_eq hinner
  cases hroot : origin.root with
  | scalar s => exact .scalar
  | node id => exact .node (h.rel_settled (h.root id hroot))

end Expansion

/-- A prepared document reads along every path as the marked document does with its references
unfolded on the way. -/
theorem prepare_read_eq_unfolded {doc marked prepared : Document} {v2 : Bool} (hdoc : doc.WellFormed)
    (hmarked : doc.stamp v2 = .ok marked) (hrefs : marked.RefsPlain)
    (hprepared : doc.prepare v2 = .ok prepared) (path : List Slot) :
    prepared.read path = marked.readUnfolded path := by
  obtain ⟨x, rfl, hx⟩ := Expansion.prepared_of_prepare hdoc hmarked hprepared
  calc
    x.doc.read path =
        readPath x.doc.graph.plain (x.doc.graph.unfold marked.resolve?) path marked.root :=
      hx.read_eq _ path
    _ = marked.readUnfolded path :=
      (Expansion.faithful_steps (hdoc.stamp hmarked) hrefs hx.steps).reading path

def friends : Tree :=
  .object [("Person", .object [("friend", .object [("$ref", .text "#/Person")])])]

theorem prepare_read_eq_unfolded_friends :
    ∃ marked prepared, (Document.ofTree friends).WellFormed ∧
      (Document.ofTree friends).stamp true = .ok marked ∧ marked.RefsPlain ∧
      (Document.ofTree friends).prepare true = .ok prepared ∧
      (∀ path, prepared.read path = marked.readUnfolded path) ∧
      prepared.read [.key "Person", .key "friend", .key "friend", .key "friend"] =
        some (.object ["friend", "x-model-name", "x-original-ref"]) := by
  have hwell : (Document.ofTree friends).WellFormed := wellFormed_ofTree (by decide)
  have hrefs : ∀ marked, (Document.ofTree friends).stamp true = .ok marked → marked.RefsPlain := by
    rintro _ ⟨⟩ v ref h
    cases v with
    | scalar s => cases h
    | node id =>
      have hid : id < 3 := Graph.has_of_refText? h
      match id, hid with
      | 0, _ => cases h
      | 1, _ => cases h
      | 2, _ =>
        obtain rfl : "#/Person" = ref := Option.some.inj h
        exact ⟨.node 1, rfl, .cons rfl rfl .nil, rfl, rfl⟩
  obtain ⟨marked, hmarked⟩ : ∃ marked, (Document.ofTree friends).stamp true = .ok marked :=
    ⟨_, rfl⟩
  obtain ⟨prepared, hprepared, hread⟩ : ∃ prepared,
      (Document.ofTree friends).prepare true = .ok prepared ∧
        prepared.read [.key "Person", .key "friend", .key "friend", .key "friend"] =
          some (.object ["friend", "x-model-name", "x-original-ref"]) := ⟨_, rfl, rfl⟩
  exact ⟨marked, prepared, hwell, hmarked, hrefs marked hmarked, hprepared,
    prepare_read_eq_unfolded hwell hmarked (hrefs marked hmarked) hprepared, hread⟩

end ApiRecords
