import ApiRecords.Proofs.Extensions
import ApiRecords.Proofs.Properties.Spelling

/-!
One level of the search for what a schema refers to, as a search through what the kind of the schema leads
to. It finds the same in two graphs where the kind is the same, and the same is found below.
-/

namespace ApiRecords

/-! ### Findings in two graphs -/

namespace Findings

/-- Findings that say the same of models and unions, wherever the schemas stand. -/
structure Same (g g' : Graph) (found found' : Findings) : Prop where
  dependency : found'.dependency = found.dependency
  models : List.Forall₂ (fun v w => g'.modelName w = g.modelName v) found.models found'.models
  unions : found'.unions = found.unions

structure Members.Same (g g' : Graph) (found found' : Members) : Prop where
  members : found'.members = found.members
  models : List.Forall₂ (fun v w => g'.modelName w = g.modelName v) found.models found'.models
  unions : found'.unions = found.unions

variable {g g' : Graph} {found found' : Findings}

theorem Same.nothing : Same g g' .none .none := ⟨rfl, .nil, rfl⟩

theorem Same.of_extends (h : g.Extends g') (hg : g.WellFormed) (hmodels : ∀ m ∈ found.models, g.Has m) :
    Same g g' found found :=
  ⟨rfl, List.forall₂_same.mpr fun m hm => h.modelName hg (hmodels m hm), rfl⟩

/-- What is found below the one member that there is. -/
def Members.only (found : Members) : Findings where
  dependency := found.members.head?.map (·.2)
  models := found.models
  unions := found.unions

theorem Same.inList (h : Same g g' found found') : Same g g' found.inList found'.inList :=
  ⟨congrArg (·.map Dependency.list) h.dependency, h.models, h.unions⟩

theorem Members.Same.cons {first first' : Findings} {rest rest' : Members} (key : String)
    (hfirst : Findings.Same g g' first first') (hrest : Same g g' rest rest') :
    Same g g' (.cons key first rest) (.cons key first' rest') where
  members := by simp only [Members.cons, hfirst.dependency, hrest.members]
  models := List.rel_append hfirst.models hrest.models
  unions := by simp only [Members.cons, hfirst.unions, hrest.unions]

theorem only_cons (key : String) (found : Findings) : (Members.cons key found ⟨[], [], []⟩).only = found := by
  obtain ⟨dependency, models, unions⟩ := found
  cases dependency <;> simp [Members.only, Members.cons]

end Findings

section

variable {g g' : Graph} {find find' : Nat → Value → Except Fault Findings}
  {members members' : List (String × Value)}

theorem findMembers_same (h : MembersRel (fun v w => ∀ offset,
      OutcomeRel (Findings.Same g g') (find offset v) (find' offset w)) members members') (offset : Nat) :
    OutcomeRel (Findings.Members.Same g g') (findMembers find offset members)
      (findMembers find' offset members') := by
  induction h generalizing offset with
  | nil => exact .ok ⟨rfl, .nil, rfl⟩
  | @cons m n _ _ hmn _ ih =>
    obtain ⟨key, v⟩ := m
    obtain ⟨_, w⟩ := n
    obtain ⟨rfl, hvw⟩ := hmn
    refine (hvw offset).bind fun first first' hfirst => ?_
    rw [hfirst.unions]
    exact (ih _).bind fun rest rest' hrest => .ok (.cons key hfirst hrest)

/-- Members without findings can be left out. -/
theorem findMembers_filter (keep : String × Value → Bool)
    (h : ∀ m ∈ members, keep m = false → ∀ offset, find offset m.2 = .ok .none) (offset : Nat) :
    findMembers find offset (members.filter keep) = findMembers find offset members := by
  induction members generalizing offset with
  | nil => rfl
  | cons m members ih =>
    obtain ⟨hm, hrest⟩ := List.forall_mem_cons.mp h
    cases hkeep : keep m with
    | true =>
      rw [List.filter_cons_of_pos hkeep]
      simp only [findMembers, ih hrest]
    | false =>
      rw [List.filter_cons_of_neg (by simp [hkeep]), ih hrest, findMembers, hm hkeep]
      change _ = findMembers find offset members >>= fun rest => .ok rest
      cases findMembers find offset members <;> rfl

end

/-! ### One level of the search -/

namespace Kind

/-- Whether the search goes on below a schema of a kind. -/
def goesOn : Kind → Bool
  | object | array | alternatives | mapping => true
  | _ => false

/-- What is found at a schema of a kind, by what is found below it. -/
def gather : Kind → Findings.Members → Findings
  | object, found => found.only
  | array, found => found.only.inList
  | _, found => .ofMembers found

end Kind

theorem Findings.Members.Same.gather {g g' : Graph} {found found' : Members} (h : Same g g' found found')
    (kind : Kind) : Findings.Same g g' (kind.gather found) (kind.gather found') := by
  have honly : Findings.Same g g' found.only found'.only :=
    ⟨by simp only [only, h.members], h.models, h.unions⟩
  have hall : Findings.Same g g' (.ofMembers found) (.ofMembers found') :=
    ⟨by simp only [ofMembers, h.members], h.models, h.unions⟩
  cases kind with
  | object => exact honly
  | array => exact honly.inList
  | _ => exact hall

namespace Graph

variable {g g' : Graph} {v w : Value} {kind : Kind} {id : Nat} {path : List Nat} {offset : Nat}
  {inner inner' : List Nat → Nat → Value → Except Fault Findings}

theorem findFrom_scalar (g : Graph) (depth : Nat) (path : List Nat) (offset : Nat) (s : Scalar) :
    g.findFrom depth path offset (.scalar s) = .ok .none := by
  cases depth <;> rfl

/-- What the search goes on to below a value, by the kind of the value. -/
def searched (g : Graph) (v : Value) : List (String × Value) :=
  match g.kind v with
  | .ok .object => [("properties", g.get v "properties")]
  | .ok .array => [("items", g.get v "items")]
  | .ok .alternatives | .ok .mapping => ((g.node? v).map Node.children).getD []
  | _ => []

theorem leads_iff_searched : g.Leads v w ↔ ∃ key, (key, w) ∈ g.searched v := by
  constructor
  · rintro (hkind | hkind | ⟨hkind, hn, hw⟩)
    · exact ⟨"properties", by simp [searched, hkind]⟩
    · exact ⟨"items", by simp [searched, hkind]⟩
    · rename_i n key
      exact ⟨key, by rcases hkind with hkind | hkind <;> simpa [searched, hkind, hn] using hw⟩
  · rintro ⟨key, h⟩
    unfold searched at h
    split at h
    · rename_i hkind
      obtain ⟨-, rfl⟩ : key = "properties" ∧ w = _ := by simpa using h
      exact .properties hkind
    · rename_i hkind
      obtain ⟨-, rfl⟩ : key = "items" ∧ w = _ := by simpa using h
      exact .items hkind
    · rename_i hkind
      obtain ⟨n, hn⟩ := node?_of_kind hkind (by decide)
      exact .member (.inr hkind) hn (by simpa [hn] using h)
    · rename_i hkind
      obtain ⟨n, hn⟩ := node?_of_kind hkind (by decide)
      exact .member (.inl hkind) hn (by simpa [hn] using h)
    · cases h

theorem searched_of_not_goesOn (hkind : g.kind v = .ok kind) (hgoes : kind.goesOn = false) :
    g.searched v = [] := by
  rw [searched, hkind]
  cases kind with
  | object | array | alternatives | mapping => cases hgoes
  | model | discriminatedUnion | opaqueValue => rfl

theorem nodup_searched (hg : g.WellFormed) (v : Value) : ((g.searched v).map Prod.fst).Nodup := by
  have hchildren : ((((g.node? v).map Node.children).getD []).map Prod.fst).Nodup := by
    cases hn : g.node? v with
    | none => exact List.nodup_nil
    | some n => exact Node.nodup_children (hg.keys v n hn)
  unfold searched
  split
  · exact List.nodup_singleton _
  · exact List.nodup_singleton _
  · exact hchildren
  · exact hchildren
  · exact List.nodup_nil

theorem exists_node_of_object? {members : List (String × Value)} (h : g.object? v = some members) :
    ∃ id, v = .node id := by
  cases v with
  | scalar s => cases h
  | node id => exact ⟨id, rfl⟩

theorem findNode_unclassified {e : Fault} (hkind : g.kind v = .error e) :
    g.findNode inner path offset v = .error e := by
  rw [findNode, hkind]
  rfl

theorem findNode_seen (hkind : g.kind (.node id) = .ok kind) (hgoes : kind.goesOn) (hid : id ∈ path) :
    g.findNode inner path offset (.node id) = .ok .none := by
  unfold findNode
  rw [hkind]
  cases kind with
  | object | array | alternatives | mapping => exact if_pos hid
  | model | discriminatedUnion | opaqueValue => cases hgoes

/-- One level of a search that goes on. -/
theorem findNode_eq_gather (hkind : g.kind (.node id) = .ok kind) (hgoes : kind.goesOn) (hid : id ∉ path) :
    g.findNode inner path offset (.node id) =
      (findMembers (inner (id :: path)) offset (g.searched (.node id))).map kind.gather := by
  have hone (key : String) (w : Value) : findMembers (inner (id :: path)) offset [(key, w)] =
      (inner (id :: path) offset w).map fun found => .cons key found ⟨[], [], []⟩ := by
    rw [findMembers]
    cases inner (id :: path) offset w <;> rfl
  unfold findNode searched
  rw [hkind]
  cases kind with
  | object =>
    refine (if_neg hid).trans ?_
    rw [hone]
    cases inner (id :: path) offset _ with
    | error e => rfl
    | ok found => exact congrArg Except.ok (Findings.only_cons _ found).symm
  | array =>
    refine (if_neg hid).trans ?_
    rw [hone]
    cases inner (id :: path) offset _ with
    | error e => rfl
    | ok found => exact congrArg (Except.ok ·.inList) (Findings.only_cons _ found).symm
  | alternatives | mapping =>
    refine (if_neg hid).trans ?_
    cases findMembers (inner (id :: path)) offset (((g.node? (.node id)).map Node.children).getD []) <;> rfl
  | model | discriminatedUnion | opaqueValue => cases hgoes

/-- A search that does not go on depends on nothing around the value. -/
theorem findNode_eq_of_not_goesOn (hkind : g.kind v = .ok kind) (hgoes : kind.goesOn = false)
    {path' : List Nat} : g.findNode inner path offset v = g.findNode inner' path' offset v := by
  unfold findNode
  rw [hkind]
  cases kind with
  | object | array | alternatives | mapping => cases hgoes
  | model | discriminatedUnion | opaqueValue => cases v <;> rfl

/-- The search stops at a value, whatever is around it, or goes on below it. -/
theorem stops_or_goesOn (g : Graph) (v : Value) :
    (g.searched v = [] ∧ ∀ inner inner' path path' offset,
      g.findNode inner path offset v = g.findNode inner' path' offset v) ∨
      ∃ id kind, v = .node id ∧ g.kind (.node id) = .ok kind ∧ kind.goesOn := by
  cases hkind : g.kind v with
  | error e =>
    refine .inl ⟨by rw [searched, hkind], fun inner inner' path path' offset => ?_⟩
    rw [findNode_unclassified hkind, findNode_unclassified hkind]
  | ok kind =>
    cases hgoes : kind.goesOn with
    | false =>
      exact .inl ⟨searched_of_not_goesOn hkind hgoes, fun _ _ _ _ _ => findNode_eq_of_not_goesOn hkind hgoes⟩
    | true =>
      cases v with
      | scalar s =>
        cases hkind
        cases hgoes
      | node id => exact .inr ⟨id, kind, rfl, hkind, hgoes⟩

/-- One level of the search finds the same in two graphs where the kind is the same and the search below
does. -/
theorem findNode_same {path' : List Nat} {id' : Nat} (hext : g.Extends g') (hg : g.WellFormed)
    (hid : id ∉ path) (hid' : id' ∉ path') (hkind : g'.kind (.node id') = g.kind (.node id))
    (hname : g.kind (.node id) = .ok .model → g'.modelName (.node id') = g.modelName (.node id))
    (hunion : g.kind (.node id) = .ok .discriminatedUnion →
      OutcomeRel (Union.Rel fun v w => g.Has v ∧ w = v) (g.union (.node id)) (g'.union (.node id')))
    (hinner : OutcomeRel (Findings.Members.Same g g')
      (findMembers (inner (id :: path)) offset (g.searched (.node id)))
      (findMembers (inner' (id' :: path')) offset (g'.searched (.node id')))) :
    OutcomeRel (Findings.Same g g') (g.findNode inner path offset (.node id))
      (g'.findNode inner' path' offset (.node id')) := by
  cases hk : g.kind (.node id) with
  | error e =>
    rw [findNode_unclassified hk, findNode_unclassified (hkind.trans hk)]
    exact .error e
  | ok kind =>
    cases hgoes : kind.goesOn with
    | true =>
      rw [findNode_eq_gather hk hgoes hid, findNode_eq_gather (hkind.trans hk) hgoes hid']
      exact hinner.map fun found found' hfound => hfound.gather kind
    | false =>
      unfold findNode
      rw [hkind, hk]
      cases kind with
      | object | array | alternatives | mapping => cases hgoes
      | opaqueValue => exact .ok .nothing
      | model =>
        have hname := hname hk
        exact .ok ⟨by rw [hname], .cons hname .nil, rfl⟩
      | discriminatedUnion =>
        refine (hunion hk).bind fun u u' hu => ?_
        obtain rfl : u' = u := hu.eq_of_forall fun _ _ hvw => hvw.2
        refine .ok ⟨rfl, ?_, rfl⟩
        rw [List.forall₂_map_left_iff, List.forall₂_map_right_iff]
        exact hu.branches.imp fun b b' hb => by rw [hb.schema.2]; exact hext.modelName hg hb.schema.1

end Graph

end ApiRecords
