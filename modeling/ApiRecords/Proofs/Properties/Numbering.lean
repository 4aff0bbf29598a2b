import ApiRecords.Proofs.Properties.Acyclic

/-!
What is found below a schema is the same wherever the schema stands, but for the keys of its unions:
these are numbered on from the unions found before it.
-/

namespace ApiRecords

/-- Unions that differ in nothing but their keys and where the schemas of their branches stand. -/
structure Union.Alike (u u' : Union) : Prop where
  propertyName : u'.propertyName = u.propertyName
  mapping : u'.mapping = u.mapping
  names : u'.branches.map (·.name) = u.branches.map (·.name)

/-- Leaves that are the name of one schema object, or the keys of unions that are alike. -/
inductive LeafAlike (unions unions' : List Union) : String → String → Prop
  | model (model : Tree) : LeafAlike unions unions' (entityName model) (entityName model)
  | union {u u' key key'} : u ∈ unions → u' ∈ unions' → u.key = some key → u'.key = some key' →
      u.Alike u' → LeafAlike unions unions' key key'

theorem LeafAlike.mono {unions unions' more more' : List Union} {name name' : String}
    (h : LeafAlike unions unions' name name') (hsub : unions ⊆ more) (hsub' : unions' ⊆ more') :
    LeafAlike more more' name name' := by
  cases h with
  | model m => exact .model m
  | union hu hu' hkey hkey' halike => exact .union (hsub hu) (hsub' hu') hkey hkey' halike

namespace Dependency

mutual

/-- Relations of one shape, with leaves that are alike. -/
inductive Alike (unions unions' : List Union) : Dependency → Dependency → Prop
  | leaf {name name'} : LeafAlike unions unions' name name' →
      Alike unions unions' (leaf name) (leaf name')
  | list {d d'} : Alike unions unions' d d' → Alike unions unions' (list d) (list d')
  | shape {members members'} : MembersAlike unions unions' members members' →
      Alike unions unions' (shape members) (shape members')

inductive MembersAlike (unions unions' : List Union) :
    List (String × Dependency) → List (String × Dependency) → Prop
  | nil : MembersAlike unions unions' [] []
  | cons {key d d' members members'} : Alike unions unions' d d' →
      MembersAlike unions unions' members members' →
      MembersAlike unions unions' ((key, d) :: members) ((key, d') :: members')

end

variable {unions unions' more more' : List Union}

mutual

theorem Alike.mono {d d' : Dependency} (hsub : unions ⊆ more) (hsub' : unions' ⊆ more') :
    Alike unions unions' d d' → Alike more more' d d'
  | .leaf h => .leaf (h.mono hsub hsub')
  | .list h => .list (h.mono hsub hsub')
  | .shape h => .shape (h.mono hsub hsub')

theorem MembersAlike.mono {members members' : List (String × Dependency)} (hsub : unions ⊆ more)
    (hsub' : unions' ⊆ more') :
    MembersAlike unions unions' members members' → MembersAlike more more' members members'
  | .nil => .nil
  | .cons h hs => .cons (h.mono hsub hsub') (hs.mono hsub hsub')

end

end Dependency

namespace Findings

/-- Findings whose relations are alike. -/
def Alike (found found' : Findings) : Prop :=
  Option.Rel (Dependency.Alike found.unions found'.unions) found.dependency found'.dependency

def Members.Alike (found found' : Members) : Prop :=
  Dependency.MembersAlike found.unions found'.unions found.members found'.members

theorem Alike.nothing : Alike .none .none := .none

theorem Alike.mono {found found' : Findings} {more more' : List Union} (h : found.Alike found')
    (hsub : found.unions ⊆ more) (hsub' : found'.unions ⊆ more') :
    Option.Rel (Dependency.Alike more more') found.dependency found'.dependency := by
  unfold Alike at h
  generalize found.dependency = a, found'.dependency = b at h
  cases h with
  | none => exact .none
  | some h => exact .some (h.mono hsub hsub')

theorem Alike.inList {found found' : Findings} (h : found.Alike found') :
    found.inList.Alike found'.inList := by
  unfold Alike Findings.inList at *
  generalize found.dependency = a, found'.dependency = b at h
  cases h with
  | none => exact .none
  | some h => exact .some (.list h)

theorem Members.Alike.cons {first first' : Findings} {rest rest' : Members} (key : String)
    (hfirst : first.Alike first') (hrest : rest.Alike rest') :
    (Members.cons key first rest).Alike (.cons key first' rest') := by
  have hrest := Dependency.MembersAlike.mono (List.subset_append_right first.unions rest.unions)
    (List.subset_append_right first'.unions rest'.unions) hrest
  unfold Members.Alike Findings.Alike Members.cons at *
  generalize first.dependency = a, first'.dependency = b at hfirst
  cases hfirst with
  | none => exact hrest
  | some h =>
    refine .cons ?_ hrest
    exact h.mono (List.subset_append_left _ rest.unions) (List.subset_append_left _ rest'.unions)

theorem Members.Alike.findings {found found' : Members} (h : found.Alike found') :
    (Findings.ofMembers found).Alike (.ofMembers found') := by
  unfold Members.Alike Findings.Alike Findings.ofMembers at *
  generalize found.members = ms, found'.members = ms' at h
  cases h with
  | nil => exact .none
  | cons h hs => exact .some (.shape (.cons h hs))

end Findings

theorem findMembers_alike {S : Value → Value → Prop}
    {find find' : Nat → Value → Except Fault Findings}
    (hfind : ∀ offset offset' v w, S v w →
      OutcomeRel Findings.Alike (find offset v) (find' offset' w))
    {members members' : List (String × Value)} (h : MembersRel S members members')
    (offset offset' : Nat) : OutcomeRel Findings.Members.Alike (findMembers find offset members)
      (findMembers find' offset' members') := by
  induction h generalizing offset offset' with
  | nil => exact .ok .nil
  | @cons m n _ _ hmn _ ih =>
    obtain ⟨key, v⟩ := m
    obtain ⟨_, w⟩ := n
    obtain ⟨rfl, hvw⟩ := hmn
    exact (hfind offset offset' v w hvw).bind fun first first' hfirst =>
      (ih _ _).bind fun rest rest' hrest => .ok (.cons key hfirst hrest)

theorem forall₂_zipIdx {α β : Type} {R : α → β → Prop} {as : List α} {bs : List β}
    (h : List.Forall₂ R as bs) (start : Nat) :
    List.Forall₂ (fun p q => p.2 = q.2 ∧ R p.1 q.1) (as.zipIdx start) (bs.zipIdx start) := by
  induction h generalizing start with
  | nil => exact .nil
  | cons hab _ ih => exact .cons ⟨rfl, hab⟩ (ih (start + 1))

theorem Node.Rel.children {R : Value → Value → Prop} {n n' : Node} (h : n.Rel R n') :
    MembersRel R n.children n'.children := by
  cases h with
  | object h => exact h
  | array h =>
    rw [Node.children, Node.children, MembersRel, List.forall₂_map_left_iff,
      List.forall₂_map_right_iff]
    exact (forall₂_zipIdx h 0).imp fun _ _ hpq => ⟨congrArg toString hpq.1, hpq.2⟩

namespace Graph

variable {g g' : Graph} {v w : Value} {path path' : List Nat}

theorem unionFindings_alike {R : Value → Value → Prop} (h : Mirrors R g g') (hvw : R v w)
    (number number' : Nat) :
    OutcomeRel Findings.Alike (g.unionFindings number v) (g'.unionFindings number' w) := by
  refine (h.union hvw).bind fun u u' hu => .ok (.some (.leaf ?_))
  have hnames : u.branches.map (·.name) = u'.branches.map (·.name) :=
    map_eq_map_iff_forall₂.mpr (hu.branches.imp fun _ _ hb => hb.name.symm)
  exact .union List.mem_cons_self List.mem_cons_self rfl rfl
    ⟨hu.propertyName, hu.mapping, hnames.symm⟩

namespace SameTree

variable (hg : g.WellFormed) (hg' : g'.WellFormed)

include hg hg'

/-- One level of the search finds alike where the search below it does. -/
theorem findNode {inner inner' : List Nat → Nat → Value → Except Fault Findings}
    (h : SameTree g g' path path' v w)
    (hinner : ∀ id id' a b offset offset', v = .node id → id ∉ path →
      SameTree g g' (id :: path) (id' :: path') a b →
      OutcomeRel Findings.Alike (inner (id :: path) offset a) (inner' (id' :: path') offset' b))
    (offset offset' : Nat) : OutcomeRel Findings.Alike (g.findNode inner path offset v)
      (g'.findNode inner' path' offset' w) := by
  have hm := mirrors_sameTree hg hg'
  have hnil := h.nil hg hg'
  unfold Graph.findNode
  rw [hm.kind hnil]
  cases g.kind v with
  | error e => exact .error e
  | ok kind =>
    rcases h.cases hg hg' with ⟨s, rfl, rfl⟩ | ⟨id, id', n, n', rfl, rfl, hn, hn', hrel⟩
    · cases kind <;> exact .ok .nothing
    · have hid : id ∉ path := h.clear.notMem
      have hid' : id' ∉ path' := h.clear'.notMem
      have hget : ∀ key, SameTree g g' (id :: path) (id' :: path') (g.get (.node id) key)
          (g'.get (.node id') key) :=
        get_rel (SameTree.scalar .null) (by rw [hn, hn']; exact .some hrel)
      have hopen : ∀ {x x' y y' : Except Fault Findings}, OutcomeRel Findings.Alike y y' →
          OutcomeRel Findings.Alike (if id ∈ path then x else y) (if id' ∈ path' then x' else y') :=
        fun hy => by rwa [if_neg hid, if_neg hid']
      cases kind with
      | opaqueValue => exact .ok .nothing
      | model =>
        refine .ok (.some (.leaf ?_))
        rw [hm.modelName hnil]
        exact .model _
      | discriminatedUnion => exact unionFindings_alike hm hnil _ _
      | object =>
        exact hopen (hinner _ _ _ _ _ _ rfl hid (hget "properties"))
      | array =>
        exact hopen ((hinner _ _ _ _ _ _ rfl hid (hget "items")).bind fun _ _ hfound =>
          .ok hfound.inList)
      | alternatives | mapping =>
        rw [hn, hn']
        refine hopen ((findMembers_alike (fun _ _ a b hab => ?_) hrel.children _ _).bind
          fun _ _ hfound => .ok hfound.findings)
        exact hinner _ _ _ _ _ _ rfl hid hab

theorem findFrom (h : SameTree g g' path path' v w) (offset offset' : Nat) :
    OutcomeRel Findings.Alike (g.findFrom g.size path offset v)
      (g'.findFrom g'.size path' offset' w) := by
  induction hcard : (g.closed path).card using Nat.strong_induction_on
    generalizing path path' v w offset offset' with
  | h card ih =>
    rw [findFrom_size g, findFrom_size g']
    refine h.findNode hg hg' (fun id id' a b offset offset' hv hid hab => ?_) offset offset'
    have hlt : id < g.size := (hv ▸ h.has : g.Has (.node id))
    exact ih _ (hcard ▸ closed_cons_card_lt hid hlt) hab _ _ rfl

end SameTree

end Graph

end ApiRecords
