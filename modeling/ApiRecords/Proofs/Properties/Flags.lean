import ApiRecords.Proofs.Repeats

/-!
Schemas that have been flagged, against what they were. They are of the same kind and read alike but for the
flag. The search below them goes through other containers, and what stood under the key of the flag is out of
it.
-/

namespace ApiRecords

/-- The members with the value of a key put in place of another, where there is one. -/
def setMember {α : Type} (key : String) (v : α) (members : List (String × α)) : List (String × α) :=
  members.map fun m => if m.1 = key then (key, v) else m

theorem keys_setMember {α : Type} (key : String) (v : α) (members : List (String × α)) :
    (setMember key v members).map Prod.fst = members.map Prod.fst := by
  rw [setMember, List.map_map]
  refine List.map_congr_left fun m _ => ?_
  by_cases hm : m.1 = key <;> simp [hm]

theorem filter_setMember {α : Type} (key : String) (v : α) (members : List (String × α)) :
    (setMember key v members).filter (·.1 ≠ key) = members.filter (·.1 ≠ key) := by
  induction members with
  | nil => rfl
  | cons m members ih => by_cases hm : m.1 = key <;> simp_all [setMember]

theorem filter_putMember {α : Type} (key : String) (v : α) (members : List (String × α)) :
    (putMember key v members).filter (·.1 ≠ key) = members.filter (·.1 ≠ key) := by
  induction members with
  | nil => simp [putMember, putBy]
  | cons m members ih => by_cases hm : m.1 = key <;> simp_all [putMember, putBy]

/-- A value without findings, whether it is put to the members or over one of them, takes nothing but that
one away. -/
theorem findMembers_putMember {find : Nat → Value → Except Fault Findings} {members : List (String × Value)}
    {key : String} {v : Value} (hkeys : (members.map Prod.fst).Nodup)
    (hv : ∀ offset, find offset v = .ok .none) (offset : Nat) :
    findMembers find offset (putMember key v members) = findMembers find offset (setMember key v members) := by
  rw [← findMembers_filter (·.1 ≠ key), filter_putMember, ← filter_setMember key v,
    findMembers_filter]
  · intro m hm hkey offset
    obtain ⟨n, -, rfl⟩ := List.mem_map.mp hm
    split at hkey
    · simp [*]
    · simp_all
  · intro m hm hkey offset
    have hlookup := lookup_of_mem (nodup_putMember hkeys key v) hm
    rw [show m.1 = key by simpa using hkey, putMember, lookup_putBy_self] at hlookup
    exact Option.some.inj hlookup ▸ hv offset

/-! ### Flagged schemas -/

/-- A property without its flag. -/
def Property.unflagged (p : Property) : Property := { p with required := false }

namespace Graph

variable {g g₁ : Graph} {v u : Value} {required : Prop} {id : Nat} {path path' : List Nat}

theorem kind_of_object (h : (g.object? v).isSome) :
    g.kind v = (do return if ← g.standsForModel v then .model else g.shapeKind v) := by
  obtain ⟨members, hmembers⟩ := Option.isSome_iff_exists.mp h
  rw [kind, object?_iff.mp hmembers]

theorem Extends.findFrom_same (h : g.Extends g₁) (hg : g.WellFormed) (hv : g.Has v)
    (hpath : ∀ id < g.size, id ∈ path' ↔ id ∈ path) (offset : Nat) :
    OutcomeRel (Findings.Same g g₁) (g.findFrom g.size path offset v)
      (g₁.findFrom g₁.size path' offset v) := by
  rw [h.findFrom hg hv hpath]
  cases hfound : g.findFrom g.size path offset v with
  | error e => exact .error e
  | ok found => exact .ok (.of_extends h hg (hg.has_of_findFrom hv hfound))

namespace Flagged

variable (h : Flagged g g₁ required v u) (hext : g.Extends g₁) (hg : g.WellFormed) (hv : g.Has v)

include h hext hg hv

theorem alikeBut (hobject : (g.object? v).isSome) :
    AlikeBut (fun v w => g.Has v ∧ w = v) (· = "required") g g₁ v u where
  object := (h.isSome_object? hext hv hobject).trans hobject.symm
  member {key} hkey := by
    have hsame := (hext.mirrors hg).member? ⟨hv, rfl⟩ key
    cases h with
    | kept => exact hsame
    | @flagged members new _ hmembers _ hnode =>
      have hmember : g₁.member? (.node new) key = g₁.member? v key := by
        rw [member?, member?, object?_iff.mpr hnode, hext.object? hv, hmembers, Option.bind_some,
          Option.bind_some, lookup_putMember_of_ne hkey]
      rwa [hmember]

theorem modelName : g₁.modelName u = g.modelName v := by
  cases h with
  | kept => exact hext.modelName hg hv
  | flagged hreq hmembers hid hnode =>
    have halike := alikeBut (.flagged hreq hmembers hid hnode) hext hg hv (by simp [hmembers])
    exact halike.modelName (hext.mirrors hg) (by decide : modelNameKey ≠ "required")

theorem kind : g₁.kind u = g.kind v := by
  cases h with
  | kept => exact hext.kind hg hv
  | @flagged members new hreq hmembers hid hnode =>
    have halike := alikeBut (.flagged hreq hmembers hid hnode) hext hg hv (by simp [hmembers])
    have hm := hext.mirrors hg
    have hget : ∀ {key}, key ≠ "required" → g.Has (g.get v key) ∧ g₁.get (.node new) key = g.get v key :=
      fun hkey => halike.get hm hkey
    have hobject : (g₁.object? (.node new)).isSome := by simp [halike.object, hmembers]
    rw [kind_of_object hobject, kind_of_object (by simp [hmembers]),
      halike.standsForModel hm (by decide : modelNameKey ≠ "required") fun _ =>
        ⟨(by decide : identityKey ≠ "required"), (by decide : "properties" ≠ "required")⟩,
      halike.shapeKind hm (hm.array?_isSome (hget (by decide)))
        (fun _ => (by decide : "discriminator" ≠ "required"))
        fun s => (hm.scalar_iff (hget (by decide)) s).symm]

theorem union (hobject : (g.object? v).isSome) :
    OutcomeRel (Union.Rel fun v w => g.Has v ∧ w = v) (g.union v) (g₁.union u) :=
  (h.alikeBut hext hg hv hobject).union (hext.mirrors hg) (by decide : "discriminator" ≠ "required")
    (by decide : "oneOf" ≠ "required")

theorem property (spell : String → String) (unions : List (String × List Tree)) (key : String)
    (dependency : Option Dependency) :
    (g₁.property spell unions key u dependency).map Property.unflagged =
      (g.property spell unions key v dependency).map Property.unflagged := by
  cases h with
  | kept => rw [hext.property hg hv]
  | flagged hreq hmembers hid hnode =>
    have halike := alikeBut (.flagged hreq hmembers hid hnode) hext hg hv (by simp [hmembers])
    have hm := hext.mirrors hg
    rw [halike.property hm id (halike.relatedType hm id rfl rfl)]
    cases g.property spell unions key v dependency <;> rfl

end Flagged

/-! ### The search below a flagged schema -/

/-- Whether nothing of what is found below a schema depends on its being met again below itself, nor comes
from what stands under the key of the flag. -/
def FlagUnseen (g : Graph) (id : Nat) : Prop :=
  ∀ m ∈ g.searched (.node id), ∀ offset, g.findFrom g.size [id] offset m.2 =
    if m.1 = "required" then .ok .none else g.findFrom g.size [] offset m.2

theorem flagUnseen_of_not_reaches
    (h : ∀ m ∈ g.searched (.node id), m.1 ≠ "required" ∧ ¬ g.Reaches m.2 (.node id)) : g.FlagUnseen id := by
  intro m hm offset
  obtain ⟨hkey, hnot⟩ := h m hm
  rw [if_neg hkey]
  exact findFrom_of_not_reaches (by simp) hnot offset

namespace Flagged

variable {new : Nat} {members : List (String × Value)}

/-- The search goes on to the members of a flagged schema, with the flag in its place. -/
theorem findMembers_searched (h : Flagged g g₁ required v (.node new)) (hext : g.Extends g₁)
    (hg : g.WellFormed) (hmembers : g.object? v = some members)
    (hnode : g₁.node? (.node new) = some (.object (putMember "required" (.scalar (.bool true)) members)))
    {find : Nat → Value → Except Fault Findings}
    (hfind : ∀ offset, find offset (.scalar (.bool true)) = .ok .none) (offset : Nat) :
    findMembers find offset (g₁.searched (.node new)) =
      findMembers find offset (setMember "required" (.scalar (.bool true)) (g.searched v)) := by
  have hn := object?_iff.mp hmembers
  have hv := has_of_node? hn
  have hget : ∀ {key}, key ≠ "required" → g₁.get (.node new) key = g.get v key :=
    fun hkey => h.get_of_ne hext hv hkey
  unfold searched
  rw [h.kind hext hg hv]
  split
  · rw [hget (by decide)]
    rfl
  · rw [hget (by decide)]
    rfl
  · rw [hn, hnode]
    exact findMembers_putMember (hg.keys v _ hn) hfind offset
  · rw [hn, hnode]
    exact findMembers_putMember (hg.keys v _ hn) hfind offset
  · rfl

/-- Below properties that stand in a new container `id`, a schema refers to what it refers to anywhere,
flagged or not. -/
theorem findFrom_same (h : Flagged g g₁ required v u) (hext : g.Extends g₁) (hg : g.WellFormed)
    (hv : g.Has v) (hfresh : g.size ≤ id) (hapart : u ≠ .node id)
    (hunseen : required → (g.object? v).isSome → ∀ k, v = .node k → g.FlagUnseen k) (offset : Nat) :
    OutcomeRel (Findings.Same g g₁) (g.findFrom g.size [] offset v)
      (g₁.findFrom g₁.size [id] offset u) := by
  cases h with
  | kept =>
    refine hext.findFrom_same hg hv (fun k hk => ?_) offset
    simp [(Nat.lt_of_lt_of_le hk hfresh).ne]
  | @flagged members new hreq hmembers hnew hnode =>
    have h : Flagged g g₁ required v (.node new) := .flagged hreq hmembers hnew hnode
    obtain ⟨k, rfl⟩ := exists_node_of_object? hmembers
    have hobject : (g.object? (.node k)).isSome := by simp [hmembers]
    rw [findFrom_size g, findFrom_size g₁]
    refine findNode_same hext hg List.not_mem_nil (by simpa using hapart) (h.kind hext hg hv)
      (fun _ => h.modelName hext hg hv) (fun _ => h.union hext hg hv hobject) ?_
    rw [h.findMembers_searched hext hg hmembers hnode fun offset => findFrom_scalar ..]
    refine findMembers_same ?_ offset
    rw [setMember, MembersRel, List.forall₂_map_right_iff]
    refine List.forall₂_same.mpr fun m hm => ?_
    have hflag := hunseen hreq hobject k rfl m hm
    split_ifs at hflag ⊢ with hkey
    · refine ⟨hkey, fun offset => ?_⟩
      rw [hflag, findFrom_scalar]
      exact .ok .nothing
    · refine ⟨rfl, fun offset => ?_⟩
      rw [hflag]
      refine hext.findFrom_same hg (hg.has_of_leads (leads_iff_searched.mpr ⟨_, hm⟩)) (fun k hk => ?_) offset
      simp [(Nat.lt_of_lt_of_le hk hnew).ne, (Nat.lt_of_lt_of_le hk hfresh).ne]

/-- Where a flagged schema has the relations that it has anywhere, its flag is not seen. -/
theorem flagUnseen {k offset : Nat} {found found' : Findings} (h : Flagged g g₁ required (.node k) u)
    (hext : g.Extends g₁) (hg : g.WellFormed) (hfresh : g.size ≤ id) (hapart : u ≠ .node id)
    (hreq : required) (hobject : (g.object? (.node k)).isSome)
    (hfound : g.findFrom g.size [] offset (.node k) = .ok found)
    (hfound' : g₁.findFrom g₁.size [id] offset u = .ok found')
    (hsame : found'.dependency = found.dependency) : g.FlagUnseen k := by
  cases h with
  | kept hnot => simp [hnot hreq] at hobject
  | @flagged members new _ hmembers hnew hnode =>
    have h : Flagged g g₁ required (.node k) (.node new) := .flagged hreq hmembers hnew hnode
    have hkind := h.kind hext hg (has_of_node? (object?_iff.mp hmembers))
    rw [findFrom_size] at hfound hfound'
    rcases g.stops_or_goesOn (.node k) with ⟨hnil, -⟩ | ⟨_, kind, ⟨⟩, hk, hgoes⟩
    · intro m hm
      rw [hnil] at hm
      cases hm
    rw [findNode_eq_gather hk hgoes List.not_mem_nil] at hfound
    rw [findNode_eq_gather (hkind.trans hk) hgoes (by simpa using hapart),
      h.findMembers_searched hext hg hmembers hnode fun offset => findFrom_scalar ..] at hfound'
    obtain ⟨below, hbelow, rfl⟩ := (map_ok_iff _ _ _).mp hfound
    obtain ⟨below', hbelow', rfl⟩ := (map_ok_iff _ _ _).mp hfound'
    have hkeys := findMembers_sublist hbelow'
    rw [keys_setMember] at hkeys
    have hmembers := members_eq_of_gather hk hgoes (findMembers_sublist hbelow) hkeys hsame
    have htold := findMembers_told hbelow hbelow' (nodup_searched hg _) hmembers
      (Q := fun m _ => ∀ offset, g.findFrom g.size [k] offset m.2 =
        if m.1 = "required" then .ok .none else g.findFrom g.size [] offset m.2) ?_
    · rw [setMember, List.forall₂_map_right_iff] at htold
      exact List.forall₂_same.mp htold
    rw [setMember, List.forall₂_map_right_iff]
    refine List.forall₂_same.mpr fun m hm => ?_
    split_ifs with hkey
    · refine ⟨hkey, fun offset first first' hfirst hfirst' hsame => ?_⟩
      rw [findFrom_scalar] at hfirst'
      cases hfirst'
      have hnothing := findFrom_of_nothing hfirst hsame.symm
      obtain rfl := Except.ok.inj (hfirst.symm.trans (hnothing offset))
      exact ⟨rfl, hnothing⟩
    · refine ⟨rfl, fun offset first first' hfirst hfirst' hsame => ?_⟩
      have hhas := hg.has_of_leads (leads_iff_searched.mpr ⟨_, hm⟩)
      have hback : g₁.findFrom g₁.size [new, id] offset m.2 = g.findFrom g.size [] offset m.2 :=
        hext.findFrom hg hhas (fun j hj => by
          simp [(Nat.lt_of_lt_of_le hj hnew).ne, (Nat.lt_of_lt_of_le hj hfresh).ne]) offset
      rw [hback] at hfirst'
      have hpath : ∀ j, j ∈ [k] ↔ j = k ∨ j ∈ ([] : List Nat) := by simp
      have heq := findFrom_told hg hpath hfirst' hfirst hsame.symm
      have hfirst := hfirst.symm.trans ((heq offset).trans hfirst')
      exact ⟨by rw [Except.ok.inj hfirst], heq⟩

end Flagged

end Graph

/-! ### Properties, some of them flagged -/

namespace Graph

variable {g g₁ : Graph} {v properties required : Value} {members marked : List (String × Value)} {id : Nat}
  {key : String}

/-- Whether a property with a given schema comes to be flagged: it is listed, and the schema is a mapping. -/
def flags (g : Graph) (required : Value) (key : String) (v : Value) : Bool :=
  g.requires required key && (g.object? v).isSome

/-- The search classifies a mapping of properties as it does any schema. Whether none of the properties that
it does this by is flagged. -/
structure FlagsApart (g : Graph) (properties required : Value) : Prop where
  name : ¬ g.flags required modelNameKey (g.get properties modelNameKey)
  identity : (g.modelName properties).truthy →
    ¬ g.flags required identityKey (g.get properties identityKey) ∧
      ¬ g.flags required "properties" (g.get properties "properties")
  union : (g.array? (g.get properties "oneOf")).isSome →
    ¬ g.flags required "discriminator" (g.get properties "discriminator")

/-- Whether nothing that a mapping of properties refers to comes from flags, or from schemas that are flagged
being met again below themselves. -/
def FlagsUnseen (g : Graph) (properties required : Value) : Prop :=
  ∀ m ∈ g.searched properties, g.flags required m.1 m.2 → ∀ id, m.2 = .node id → g.FlagUnseen id

theorem array?_of_object (h : (g.object? v).isSome) : g.array? v = none := by
  obtain ⟨members, hmembers⟩ := Option.isSome_iff_exists.mp h
  rw [array?, object?_iff.mp hmembers]

namespace Marked

variable (h : Marked g required members g₁ id marked) (hmembers : g.object? properties = some members)

include h hmembers

/-- What stands under a key among the properties and among the marked ones. -/
theorem member? (key : String) :
    Option.Rel (fun v u => Flagged g g₁ (g.requires required key) v u ∧ u ≠ .node id)
      (g.member? properties key) (g₁.member? (.node id) key) := by
  rw [Graph.member?, Graph.member?, object?_iff.mpr h.node, hmembers, Option.bind_some, Option.bind_some]
  cases hv : members.lookup key with
  | none =>
    have hkeys : members.map Prod.fst = marked.map Prod.fst :=
      map_eq_map_iff_forall₂.mpr (h.flagged.imp fun _ _ hmn => hmn.1)
    have hnone : marked.lookup key = none := by
      rw [← Option.not_isSome_iff_eq_none, ← mem_keys_iff, ← hkeys, mem_keys_iff, hv]
      simp
    rw [hnone]
    exact .none
  | some v =>
    obtain ⟨u, hu, hflagged⟩ := h.lookup hv
    rw [hu]
    exact .some hflagged

theorem get (key : String) :
    Flagged g g₁ (g.requires required key) (g.get properties key) (g₁.get (.node id) key) ∧
      g₁.get (.node id) key ≠ .node id := by
  have hmember := h.member? hmembers key
  unfold Graph.get
  generalize g.member? properties key = a, g₁.member? (.node id) key = b at hmember
  cases hmember with
  | none => exact ⟨.kept fun _ => rfl, nofun⟩
  | some hflagged => exact hflagged

variable (hg : g.WellFormed)

include hg

theorem alikeBut : AlikeBut (fun v w => g.Has v ∧ w = v)
    (fun key => g.flags required key (g.get properties key)) g g₁ properties (.node id) where
  object := by simp [object?_iff.mpr h.node, hmembers]
  member {key} hoff := by
    have hmember := h.member? hmembers key
    have hhas := hg.has_get properties key
    unfold Graph.get at hoff hhas
    generalize g.member? properties key = a, g₁.member? (.node id) key = b at hmember hoff hhas
    cases hmember with
    | none => exact .none
    | some hflagged =>
      cases hflagged.1 with
      | kept => exact .some ⟨hhas, rfl⟩
      | flagged hreq hobject => simp [flags, hreq, hobject] at hoff

/-- A schema among the marked properties is that in the document, or both are mappings. -/
theorem get_cases (key : String) :
    (g.Has (g.get properties key) ∧ g₁.get (.node id) key = g.get properties key) ∨
      (g.object? (g.get properties key)).isSome ∧ (g₁.object? (g₁.get (.node id) key)).isSome := by
  have hhas := hg.has_get properties key
  obtain ⟨hflagged, -⟩ := h.get hmembers key
  generalize g.get properties key = v, g₁.get (.node id) key = u at hhas hflagged
  cases hflagged with
  | kept => exact .inl ⟨hhas, rfl⟩
  | flagged _ hobject _ hnode => exact .inr ⟨by simp [hobject], by simp [object?_iff.mpr hnode]⟩

theorem array?_isSome_get (key : String) :
    (g₁.array? (g₁.get (.node id) key)).isSome = (g.array? (g.get properties key)).isSome := by
  rcases h.get_cases hmembers hg key with hsame | ⟨hobject, hobject'⟩
  · exact (h.extended.mirrors hg).array?_isSome hsame
  · rw [array?_of_object hobject, array?_of_object hobject']

theorem get_eq_scalar_iff (key : String) (s : Scalar) :
    g₁.get (.node id) key = .scalar s ↔ g.get properties key = .scalar s := by
  rcases h.get_cases hmembers hg key with ⟨-, hsame⟩ | ⟨hobject, hobject'⟩
  · rw [hsame]
  · constructor
    · intro heq
      rw [heq] at hobject'
      cases hobject'
    · intro heq
      rw [heq] at hobject
      cases hobject

variable (hapart : g.FlagsApart properties required)

include hapart

theorem kind : g₁.kind (.node id) = g.kind properties := by
  have halike := h.alikeBut hmembers hg
  have hm := h.extended.mirrors hg
  rw [kind_of_object (by simp [object?_iff.mpr h.node]), kind_of_object (by simp [hmembers]),
    halike.standsForModel hm hapart.name hapart.identity,
    halike.shapeKind hm (h.array?_isSome_get hmembers hg "oneOf") hapart.union
      (h.get_eq_scalar_iff hmembers hg "type")]

theorem union (hkind : g.kind properties = .ok .discriminatedUnion) :
    OutcomeRel (Union.Rel fun v w => g.Has v ∧ w = v) (g.union properties) (g₁.union (.node id)) := by
  obtain ⟨_, items, -, hitems, -⟩ := kind_union hkind
  refine (h.alikeBut hmembers hg).union (h.extended.mirrors hg) (hapart.union (by simp [hitems])) ?_
  intro hflags
  have hobject := (Bool.and_eq_true_iff.mp hflags).2
  rw [array?_of_object hobject] at hitems
  cases hitems

/-- The search goes on to the marked properties as to those in the document. -/
theorem searched : List.Forall₂ (fun m n => m.1 = n.1 ∧ Flagged g g₁ (g.requires required m.1) m.2 n.2 ∧
    n.2 ≠ .node id) (g.searched properties) (g₁.searched (.node id)) := by
  have hone : ∀ key, List.Forall₂ (fun m n => m.1 = n.1 ∧ Flagged g g₁ (g.requires required m.1) m.2 n.2 ∧
      n.2 ≠ .node id) [(key, g.get properties key)] [(key, g₁.get (.node id) key)] :=
    fun key => .cons ⟨rfl, h.get hmembers key⟩ .nil
  unfold Graph.searched
  rw [h.kind hmembers hg hapart]
  split
  · exact hone "properties"
  · exact hone "items"
  · simpa [object?_iff.mp hmembers, h.node, Node.children] using h.flagged
  · simpa [object?_iff.mp hmembers, h.node, Node.children] using h.flagged
  · exact .nil

/-- Marked properties refer to what the properties in the document do. -/
theorem findings (hunseen : g.FlagsUnseen properties required) :
    OutcomeRel (Findings.Same g g₁) (g.findNode (fun _ => g.findFrom g.size []) [] 0 properties)
      (g₁.findings 0 (.node id)) := by
  obtain ⟨k, rfl⟩ := exists_node_of_object? hmembers
  have halike := h.alikeBut hmembers hg
  rw [Graph.findings, findFrom_size g₁]
  refine findNode_same h.extended hg List.not_mem_nil List.not_mem_nil (h.kind hmembers hg hapart)
    (fun _ => halike.modelName (h.extended.mirrors hg) hapart.name) (h.union hmembers hg hapart) ?_
  refine findMembers_same ?_ 0
  refine forall₂_imp_mem (h.searched hmembers hg hapart) fun m hm n _ hmn => ⟨hmn.1, fun offset => ?_⟩
  obtain ⟨-, hflagged, hapart⟩ := hmn
  refine hflagged.findFrom_same h.extended hg (hg.has_of_leads (leads_iff_searched.mpr ⟨_, hm⟩)) h.fresh
    hapart (fun hreq hobject k hk => hunseen m hm ?_ k hk) offset
  rw [flags, hreq, hobject]
  rfl

/-- Where marked properties have the relations that the properties in the document have, no flag is seen. -/
theorem flagsUnseen {found found' : Findings}
    (hfound : g.findNode (fun _ => g.findFrom g.size []) [] 0 properties = .ok found)
    (hfound' : g₁.findings 0 (.node id) = .ok found') (hsame : found'.dependency = found.dependency) :
    g.FlagsUnseen properties required := by
  obtain ⟨k, rfl⟩ := exists_node_of_object? hmembers
  have hkind := h.kind hmembers hg hapart
  rw [Graph.findings, findFrom_size g₁] at hfound'
  rcases g.stops_or_goesOn (.node k) with ⟨hnil, -⟩ | ⟨_, kind, ⟨⟩, hk, hgoes⟩
  · intro m hm
    rw [hnil] at hm
    cases hm
  rw [findNode_eq_gather hk hgoes List.not_mem_nil] at hfound
  rw [findNode_eq_gather (hkind.trans hk) hgoes List.not_mem_nil] at hfound'
  obtain ⟨below, hbelow, rfl⟩ := (map_ok_iff _ _ _).mp hfound
  obtain ⟨below', hbelow', rfl⟩ := (map_ok_iff _ _ _).mp hfound'
  have hsearched := h.searched hmembers hg hapart
  have hkeys : (g.searched (.node k)).map Prod.fst = (g₁.searched (.node id)).map Prod.fst :=
    map_eq_map_iff_forall₂.mpr (hsearched.imp fun _ _ hmn => hmn.1)
  have hmembers := members_eq_of_gather hk hgoes (findMembers_sublist hbelow)
    (hkeys ▸ findMembers_sublist hbelow') hsame
  have htold := findMembers_told hbelow hbelow' (nodup_searched hg _) hmembers
    (Q := fun m _ => g.flags required m.1 m.2 → ∀ j, m.2 = .node j → g.FlagUnseen j) ?_
  · exact fun m hm => (exists_of_forall₂ htold m hm).elim fun _ h => h
  refine forall₂_imp_mem hsearched fun m hm n _ hmn =>
    ⟨hmn.1, fun offset first first' hfirst hfirst' hsame => ?_⟩
  obtain ⟨-, hflagged, hapart⟩ := hmn
  have hhas := hg.has_of_leads (leads_iff_searched.mpr ⟨_, hm⟩)
  have hunseen : g.flags required m.1 m.2 → ∀ j, m.2 = .node j → g.FlagUnseen j := by
    intro hflags j hj
    obtain ⟨hreq, hobject⟩ := Bool.and_eq_true_iff.mp hflags
    rw [hj] at hflagged hobject hfirst
    exact hflagged.flagUnseen h.extended hg h.fresh hapart hreq hobject hfirst hfirst' hsame
  have hrel := hflagged.findFrom_same h.extended hg hhas h.fresh hapart
    (fun hreq hobject j hj => hunseen (Bool.and_eq_true_iff.mpr ⟨hreq, hobject⟩) j hj) offset
  rw [hfirst, hfirst'] at hrel
  exact ⟨hrel.of_ok.unions, hunseen⟩

end Marked

end Graph

end ApiRecords
