import ApiRecords.Proofs.Expansion.Failure
import ApiRecords.Proofs.Reordering.Marks
import ApiRecords.Proofs.Reordering.Trees

/-!
Whether the order of keys matters to a prepared document. Where references are straight it does not:
documents that differ in it alone are both refused, or prepared to documents that are read alike. A
reference that points at another is given the marker of whichever definition was replaced first.
-/

namespace ApiRecords

/-! ### Straight documents -/

/-- On a way past no reference there is none. -/
theorem Graph.Follows.plain {g : Graph} {tokens : List String} {v w : Value}
    (h : g.Follows tokens v w) {before after : List String} {u : Value}
    (htokens : tokens = before ++ after) (hne : before ≠ []) (hu : before.foldlM g.step v = some u) :
    g.refText? u = none := by
  induction h generalizing before with
  | nil => exact absurd (List.append_eq_nil_iff.mp htokens.symm).1 hne
  | @cons token tokens v v' w hstep hplain _ ih =>
    cases before with
    | nil => exact absurd rfl hne
    | cons token' before =>
      rw [List.cons_append, List.cons.injEq] at htokens
      obtain ⟨rfl, htokens⟩ := htokens
      rw [List.foldlM_cons, hstep] at hu
      by_cases hlast : before = []
      · subst hlast
        obtain rfl : v' = u := Option.some.inj hu
        exact hplain
      · exact ih htokens hlast hu

namespace Document

variable {doc doc' marked marked' : Document} {v2 : Bool} {v w : Value} {ref : String}
  {R : Value → Value → Prop}

theorem RefsPlain.straight (h : doc.RefsPlain) : doc.Straight := by
  intro v ref href before after u htokens hne hu
  obtain ⟨target, hlead⟩ := h v ref href
  exact hlead.follows.plain htokens hne hu

/-- A document that corresponds to a straight one is straight. -/
theorem Straight.of_corresponds (h : doc.Straight) (hcorr : doc.graph.Corresponds doc'.graph R)
    (hroot : R doc.root doc'.root) (htotal : ∀ w, doc'.graph.Has w → ∃ v, R v w) :
    doc'.Straight := by
  intro w ref href before after u' htokens hne hu'
  obtain ⟨v, hvw⟩ := htotal w (Graph.has_of_refText? href)
  have hfollow := hcorr.follow hroot before
  rw [hu'] at hfollow
  generalize hu : before.foldlM doc.graph.step doc.root = a at hfollow
  cases hfollow with
  | @some u _ huu' =>
    rw [← hcorr.refText? huu']
    exact h v ref ((hcorr.refText? hvw).trans href) before after u htokens hne hu

/-- Every value of a tree stands together with one of each document that is read like it. -/
theorem Alike.total (h : doc.Alike doc') (htree : doc'.Treelike) (hw : doc'.graph.Has w) :
    ∃ v, doc.Together doc' v w := by
  cases w with
  | scalar s => exact ⟨.scalar s, .inl ⟨s, rfl, rfl⟩⟩
  | node k =>
    obtain ⟨path, hpath⟩ := htree.exists_path hw
    obtain ⟨v, hv⟩ := h.symm.exists_find hpath
    exact ⟨v, .inr ⟨path, hv, hpath⟩⟩

/-! ### Marked documents -/

theorem refText?_stamp (htree : doc.Treelike) (hdoc : doc.WellFormed)
    (hs : doc.stamp v2 = .ok marked) (v : Value) :
    marked.graph.refText? v = doc.graph.refText? v := by
  have hne : refKey ≠ modelNameKey := by decide
  rw [Graph.refText?_eq_at?, Graph.refText?_eq_at?, Graph.at?, Graph.at?]
  rcases htree.node?_stamp hdoc hs v with hsame | ⟨name, hmarked⟩
  · rw [hsame]
  · rw [hmarked]
    cases doc.graph.node? v with
    | none => rfl
    | some n => rw [Option.map_some, Option.bind_some, Option.bind_some, Node.at?_marked_of_ne hne]

/-- All that is found anew in a marked document is a mark. -/
theorem step_stamp (htree : doc.Treelike) (hdoc : doc.WellFormed) (hs : doc.stamp v2 = .ok marked)
    {token : String} (h : marked.graph.step v token = some w) :
    (∃ s, w = .scalar s) ∨ doc.graph.step v token = some w := by
  unfold Graph.step at h ⊢
  rcases htree.node?_stamp hdoc hs v with hsame | ⟨name, hmarked⟩
  · rw [hsame] at h
    exact .inr h
  · rw [hmarked] at h
    cases hn : doc.graph.node? v with
    | none => simp [hn] at h
    | some n =>
      rw [hn] at h
      cases n with
      | array items => exact .inr h
      | object members =>
        have hat : ((Node.object members).marked name).at? (.key token) = some w := h
        exact (Node.at?_marked hat).imp (fun hw => ⟨_, hw⟩) id

theorem follow_stamp (htree : doc.Treelike) (hdoc : doc.WellFormed)
    (hs : doc.stamp v2 = .ok marked) {tokens : List String}
    (h : tokens.foldlM marked.graph.step v = some w) :
    (∃ s, w = .scalar s) ∨ tokens.foldlM doc.graph.step v = some w := by
  induction tokens generalizing v with
  | nil => exact .inr h
  | cons token tokens ih =>
    rw [List.foldlM_cons] at h ⊢
    obtain ⟨u, hu, h⟩ := Option.bind_eq_some_iff.mp h
    rcases step_stamp htree hdoc hs hu with ⟨s, rfl⟩ | hstep
    · cases tokens with
      | nil => exact .inl ⟨s, (Option.some.inj h).symm⟩
      | cons token tokens => cases h
    · rw [hstep]
      exact ih h

theorem root_stamp (hs : doc.stamp v2 = .ok marked) : marked.root = doc.root := by
  obtain ⟨table, -, rfl⟩ := stamp_ok_iff.mp hs
  rfl

theorem prepare_of_stamp (hs : doc.stamp v2 = .ok marked) :
    doc.prepare v2 = marked.expand marked.nestingBound := by
  rw [prepare, hs]
  rfl

theorem Straight.stamp (h : doc.Straight) (htree : doc.Treelike) (hdoc : doc.WellFormed)
    (hs : doc.stamp v2 = .ok marked) : marked.Straight := by
  intro v ref href before after u htokens hne hu
  rw [refText?_stamp htree hdoc hs] at href ⊢
  rw [root_stamp hs] at hu
  rcases follow_stamp htree hdoc hs hu with ⟨s, rfl⟩ | hu
  · rfl
  · exact h v ref href before after u htokens hne hu

/-! ### Targets that correspond -/

theorem resolve?_alike (hcorr : doc.graph.Corresponds doc'.graph R) (hroot : R doc.root doc'.root)
    (ref : String) : Option.Rel R (doc.resolve? ref) (doc'.resolve? ref) := by
  rw [resolve?_eq, resolve?_eq]
  split
  · exact hcorr.follow hroot _
  · exact .none

theorem target?_alike (h : doc.Straight) (h' : doc'.Straight)
    (hcorr : doc.graph.Corresponds doc'.graph R) (hroot : R doc.root doc'.root)
    (href : doc.graph.refText? v = some ref) (href' : doc'.graph.refText? w = some ref) :
    Option.Rel R (doc.target? ref) (doc'.target? ref) := by
  have hresolve := resolve?_alike hcorr hroot ref
  rw [h.target?_eq href, h'.target?_eq href']
  generalize doc.resolve? ref = a, doc'.resolve? ref = b at hresolve ⊢
  cases hresolve with
  | none => exact .none
  | some hab =>
    rw [Option.filter_some, Option.filter_some, hcorr.isSome_object? hab]
    split
    · exact .some hab
    · exact .none

/-- Straight documents that correspond are read alike, each reference giving way to its target. -/
theorem readTargets_alike (hdoc : doc.WellFormed) (hdoc' : doc'.WellFormed) (h : doc.Straight)
    (h' : doc'.Straight) (hcorr : doc.graph.Corresponds doc'.graph R) (hroot : R doc.root doc'.root)
    (path : List Slot) : Option.Rel Shape.Alike (doc.readTargets path) (doc'.readTargets path) := by
  have htarget : ∀ v w ref, doc.graph.refText? v = some ref → doc'.graph.refText? w = some ref →
      Option.Rel R (doc.target? ref) (doc'.target? ref) :=
    fun v w ref href href' => target?_alike h h' hcorr hroot href href'
  exact readPath_alike (fun v w hvw => hcorr.unfold hdoc.graph hdoc'.graph htarget hvw)
    (hcorr.plain hroot) path

/-- Whether two documents are both refused, or made into documents that are read alike. -/
inductive ResultsAlike : Except Fault Document → Except Fault Document → Prop
  | ok {prepared prepared'} : prepared.Alike prepared' → ResultsAlike (.ok prepared) (.ok prepared')
  | error {e e'} : ResultsAlike (.error e) (.error e')

/-- Where both expansions end, they differ in nothing but the order of keys. -/
theorem expand_alike {depth depth' : Nat} (hdoc : doc.WellFormed) (hdoc' : doc'.WellFormed)
    (h : doc.Straight) (h' : doc'.Straight)
    (halike : ∀ path, Option.Rel Shape.Alike (doc.readTargets path) (doc'.readTargets path))
    (hends : doc.expand depth ≠ .error .endlessExpansion)
    (hends' : doc'.expand depth' ≠ .error .endlessExpansion) :
    ResultsAlike (doc.expand depth) (doc'.expand depth') := by
  have hbreaks : Breaks doc.readTargets ↔ Breaks doc'.readTargets :=
    ⟨.alike halike, .alike fun path => Shape.Alike.rel_symm (halike path)⟩
  have hok := h.exists_expand_iff hdoc hends
  have hok' := h'.exists_expand_iff hdoc' hends'
  rw [← hbreaks, ← hok] at hok'
  cases hrun : doc.expand depth with
  | ok prepared =>
    obtain ⟨prepared', hrun'⟩ := hok'.mpr ⟨prepared, hrun⟩
    rw [hrun']
    refine .ok fun path => ?_
    rw [(h.read_expand hdoc hrun).2, (h'.read_expand hdoc' hrun').2]
    exact halike path
  | error e =>
    cases hrun' : doc'.expand depth' with
    | error e' => exact .error
    | ok prepared' =>
      obtain ⟨prepared, hprepared⟩ := hok'.mp ⟨prepared', hrun'⟩
      rw [hrun] at hprepared
      cases hprepared

theorem Alike.resultsAlike (halike : doc.Alike doc') (hdoc : doc.WellFormed) (hdoc' : doc'.WellFormed)
    (htree : doc.Treelike) (htree' : doc'.Treelike) (h : doc.Straight)
    (hends : doc.prepare v2 ≠ .error .endlessExpansion)
    (hends' : doc'.prepare v2 ≠ .error .endlessExpansion) :
    ResultsAlike (doc.prepare v2) (doc'.prepare v2) := by
  have h' : doc'.Straight :=
    h.of_corresponds halike.corresponds (together_root doc doc') fun w => halike.total htree'
  cases hs : doc.stamp v2 with
  | error e =>
    cases hs' : doc'.stamp v2 with
    | ok marked' =>
      obtain ⟨marked, hmarked⟩ := halike.symm.stamp hs'
      rw [hs] at hmarked
      cases hmarked
    | error e' =>
      rw [prepare, prepare, hs, hs']
      exact .error
  | ok marked =>
    obtain ⟨marked', hs'⟩ := halike.stamp hs
    rw [prepare_of_stamp hs] at hends ⊢
    rw [prepare_of_stamp hs'] at hends' ⊢
    have hmarked := hdoc.stamp hs
    have hmarked' := hdoc'.stamp hs'
    have hstraight := h.stamp htree hdoc hs
    have hstraight' := h'.stamp htree' hdoc' hs'
    have hcorr := halike.corresponds_stamp hdoc hdoc' htree htree' hs hs'
    have hroot : doc.Together doc' marked.root marked'.root := by
      rw [root_stamp hs, root_stamp hs']
      exact together_root doc doc'
    exact expand_alike hmarked hmarked' hstraight hstraight'
      (readTargets_alike hmarked hmarked' hstraight hstraight' hcorr hroot) hends hends'

end Document

/-- Preparing a document does not depend on the order of its keys, where its references are straight
and its expansion ends in either order. -/
theorem prepare_alike {t u : Tree} {v2 : Bool} (ht : t.Proper) (hu : u.Proper)
    (hreordered : t.reordered u) (hstraight : (Document.ofTree t).Straight)
    (hends : (Document.ofTree t).prepare v2 ≠ .error .endlessExpansion)
    (hends' : (Document.ofTree u).prepare v2 ≠ .error .endlessExpansion) :
    Document.ResultsAlike ((Document.ofTree t).prepare v2) ((Document.ofTree u).prepare v2) :=
  (alike_ofTree ht hu hreordered).resultsAlike (wellFormed_ofTree ht.keys) (wellFormed_ofTree hu.keys)
    (Document.treelike_ofTree ht.acyclic ht.keys) (Document.treelike_ofTree hu.acyclic hu.keys)
    hstraight hends hends'

/-- Owners and their pets, each of which leads back to the other. -/
def ownersFirst : Tree :=
  .object [("Owner", .object [("pet", .object [("$ref", .text "#/Pet")])]),
    ("Pet", .object [("owner", .object [("$ref", .text "#/Owner")])])]

def petsFirst : Tree :=
  .object [("Pet", .object [("owner", .object [("$ref", .text "#/Owner")])]),
    ("Owner", .object [("pet", .object [("$ref", .text "#/Pet")])])]

theorem straight_ownersFirst : (Document.ofTree ownersFirst).Straight := by
  apply Document.RefsPlain.straight
  intro v ref h
  cases v with
  | scalar s => cases h
  | node id =>
    have hid : id < 5 := Graph.has_of_refText? h
    match id, hid with
    | 0, _ => cases h
    | 1, _ => cases h
    | 2, _ =>
      obtain rfl : "#/Pet" = ref := Option.some.inj h
      exact ⟨.node 3, rfl, .cons rfl rfl .nil, rfl, rfl⟩
    | 3, _ => cases h
    | 4, _ =>
      obtain rfl : "#/Owner" = ref := Option.some.inj h
      exact ⟨.node 1, rfl, .cons rfl rfl .nil, rfl, rfl⟩

theorem prepare_alike_owners :
    ownersFirst.Proper ∧ petsFirst.Proper ∧ ownersFirst.reordered petsFirst ∧
      (Document.ofTree ownersFirst).Straight ∧
      ∃ prepared prepared', (Document.ofTree ownersFirst).prepare true = .ok prepared ∧
        (Document.ofTree petsFirst).prepare true = .ok prepared' ∧ prepared.Alike prepared' ∧
        prepared.read [.key "Owner", .key "pet", .key "owner", .key "pet", .key "x-model-name"] =
          some (.scalar (.text "Pet")) := by
  have hproper : ownersFirst.Proper := ⟨rfl, by decide⟩
  have hproper' : petsFirst.Proper := ⟨rfl, by decide⟩
  have hreordered : ownersFirst.reordered petsFirst := by decide
  obtain ⟨prepared, hprepared, hread⟩ : ∃ prepared,
      (Document.ofTree ownersFirst).prepare true = .ok prepared ∧
        prepared.read [.key "Owner", .key "pet", .key "owner", .key "pet", .key "x-model-name"] =
          some (.scalar (.text "Pet")) := ⟨_, rfl, rfl⟩
  obtain ⟨prepared', hprepared'⟩ : ∃ prepared',
      (Document.ofTree petsFirst).prepare true = .ok prepared' := ⟨_, rfl⟩
  have h := prepare_alike hproper hproper' hreordered straight_ownersFirst
    (by rw [hprepared]; nofun) (by rw [hprepared']; nofun)
  rw [hprepared, hprepared'] at h
  cases h with
  | ok halike =>
    exact ⟨hproper, hproper', hreordered, straight_ownersFirst, prepared, prepared', hprepared,
      hprepared', halike, hread⟩

/-- A definition that is itself a reference, before and after one that uses it. -/
def aliasFirst : Tree :=
  .object [("components", .object [("schemas", .object [
    ("Alias", .object [("$ref", .text "#/components/schemas/Pet")]),
    ("Pet", .object [("properties", .object [("id", .object [])])]),
    ("User", .object [("properties", .object [
      ("p", .object [("$ref", .text "#/components/schemas/Alias")])])])])])]

def aliasLast : Tree :=
  .object [("components", .object [("schemas", .object [
    ("User", .object [("properties", .object [
      ("p", .object [("$ref", .text "#/components/schemas/Alias")])])]),
    ("Pet", .object [("properties", .object [("id", .object [])])]),
    ("Alias", .object [("$ref", .text "#/components/schemas/Pet")])])])]

theorem aliasFirst_not_alike : aliasFirst.Proper ∧ aliasLast.Proper ∧ aliasFirst.reordered aliasLast ∧
    ∃ prepared prepared', (Document.ofTree aliasFirst).prepare false = .ok prepared ∧
      (Document.ofTree aliasLast).prepare false = .ok prepared' ∧ ¬ prepared.Alike prepared' := by
  have hproper : aliasFirst.Proper := ⟨rfl, by decide⟩
  have hproper' : aliasLast.Proper := ⟨rfl, by decide⟩
  have hreordered : aliasFirst.reordered aliasLast := by decide
  obtain ⟨prepared, hprepared, hread⟩ : ∃ prepared,
      (Document.ofTree aliasFirst).prepare false = .ok prepared ∧
        prepared.read [.key "components", .key "schemas", .key "User", .key "properties", .key "p",
          .key "x-model-name"] = some (.scalar (.text "Alias")) := ⟨_, rfl, rfl⟩
  obtain ⟨prepared', hprepared', hread'⟩ : ∃ prepared',
      (Document.ofTree aliasLast).prepare false = .ok prepared' ∧
        prepared'.read [.key "components", .key "schemas", .key "User", .key "properties", .key "p",
          .key "x-model-name"] = some (.scalar (.text "Pet")) := ⟨_, rfl, rfl⟩
  refine ⟨hproper, hproper', hreordered, prepared, prepared', hprepared, hprepared', fun halike => ?_⟩
  have hrel := halike [.key "components", .key "schemas", .key "User", .key "properties", .key "p",
    .key "x-model-name"]
  rw [hread, hread'] at hrel
  cases hrel with
  | some hshape => exact absurd hshape.eq_of_scalar (by decide)

end ApiRecords
