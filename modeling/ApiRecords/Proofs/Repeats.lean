import ApiRecords.Proofs.Levels

/-!
Schemas that are met again below themselves. What is found below a value differs with the containers above
it just when its relations do, and does not where none of these can be reached.
-/

namespace ApiRecords

/-! ### Members told by their relations -/

section

variable {find find' : Nat → Value → Except Fault Findings} {members members' : List (String × Value)}
  {offset : Nat} {found found' : Findings.Members}

theorem Findings.Members.cons_members_inj {key : String} {first first' : Findings} {rest rest' : Members}
    (hrest : key ∉ rest.members.map Prod.fst) (hrest' : key ∉ rest'.members.map Prod.fst)
    (h : (cons key first' rest').members = (cons key first rest).members) :
    first'.dependency = first.dependency ∧ rest'.members = rest.members := by
  unfold cons at h
  cases hfirst : first.dependency with
  | none =>
    cases hfirst' : first'.dependency with
    | none => simpa [hfirst, hfirst'] using h
    | some d =>
      simp only [hfirst, hfirst', Option.map_some, Option.map_none, Option.toList_some, Option.toList_none,
        List.nil_append, List.singleton_append] at h
      simp [← h] at hrest
  | some d =>
    cases hfirst' : first'.dependency with
    | none =>
      simp only [hfirst, hfirst', Option.map_some, Option.map_none, Option.toList_some, Option.toList_none,
        List.nil_append, List.singleton_append] at h
      simp [h] at hrest'
    | some d' => simpa [hfirst, hfirst'] using h

/-- Where members have the same relations, so has each of them. `Q` is what this says of a member, which is
asked to have the same unions then: those after it are numbered from there on. -/
theorem findMembers_told {Q : String × Value → String × Value → Prop}
    (h : findMembers find offset members = .ok found) (h' : findMembers find' offset members' = .ok found')
    (hkeys : (members.map Prod.fst).Nodup) (hsame : found'.members = found.members)
    (hpairs : List.Forall₂ (fun m n => m.1 = n.1 ∧ ∀ offset first first', find offset m.2 = .ok first →
      find' offset n.2 = .ok first' → first'.dependency = first.dependency →
        first'.unions = first.unions ∧ Q m n) members members') :
    List.Forall₂ Q members members' := by
  induction hpairs generalizing offset found found' with
  | nil => exact .nil
  | @cons m n rest rest' hmn hrest ih =>
    obtain ⟨key, v⟩ := m
    obtain ⟨_, w⟩ := n
    obtain ⟨rfl, hmn⟩ := hmn
    simp only [findMembers, bind_ok_iff, pure_ok_iff] at h h'
    obtain ⟨first, hfirst, others, hothers, rfl⟩ := h
    obtain ⟨first', hfirst', others', hothers', rfl⟩ := h'
    rw [List.map_cons, List.nodup_cons] at hkeys
    have hkeys' : rest.map Prod.fst = rest'.map Prod.fst :=
      map_eq_map_iff_forall₂.mpr (hrest.imp fun _ _ hmn => hmn.1)
    have hnot : key ∉ others.members.map Prod.fst := fun hmem =>
      hkeys.1 ((findMembers_sublist hothers).subset hmem)
    have hnot' : key ∉ others'.members.map Prod.fst := fun hmem =>
      hkeys.1 (hkeys' ▸ (findMembers_sublist hothers').subset hmem)
    obtain ⟨hdependency, hothersSame⟩ := Findings.Members.cons_members_inj hnot hnot' hsame
    obtain ⟨hunions, hQ⟩ := hmn offset first first' hfirst hfirst' hdependency
    rw [hunions] at hothers'
    exact .cons hQ (ih hothers hothers' hkeys.2 hothersSame)

/-- Members without relations have none each. -/
theorem findMembers_nothing (h : findMembers find offset members = .ok found) (hnone : found.members = []) :
    ∀ m ∈ members, ∃ offset first, find offset m.2 = .ok first ∧ first.dependency = none := by
  induction members generalizing offset found with
  | nil => nofun
  | cons m rest ih =>
    simp only [findMembers, bind_ok_iff, pure_ok_iff] at h
    obtain ⟨first, hfirst, others, hothers, rfl⟩ := h
    obtain ⟨hdependency, hrest⟩ : first.dependency = none ∧ others.members = [] := by
      cases hd : first.dependency <;> simp [Findings.Members.cons, hd] at hnone ⊢
      exact hnone
    exact List.forall_mem_cons.mpr ⟨⟨offset, first, hfirst, hdependency⟩, ih hothers hrest⟩

end

namespace Graph

variable {g : Graph} {v w : Value} {kind : Kind} {id : Nat} {path path' : List Nat} {offset : Nat}
  {found found' : Findings}

theorem members_of_one {key : String} {members : List (String × Dependency)}
    (h : (members.map Prod.fst).Sublist [key]) :
    members = (members.head?.map (·.2)).toList.map (key, ·) := by
  rcases List.sublist_singleton.mp h with hnil | hone
  · rw [List.map_eq_nil_iff.mp hnil]
    rfl
  · obtain ⟨m, rfl, rfl⟩ := List.map_eq_singleton_iff.mp hone
    rfl

/-- The relations of a schema of a kind that goes on tell those of what it leads to. -/
theorem members_eq_of_gather (hkind : g.kind v = .ok kind) (hgoes : kind.goesOn)
    {found found' : Findings.Members}
    (hkeys : (found.members.map Prod.fst).Sublist ((g.searched v).map Prod.fst))
    (hkeys' : (found'.members.map Prod.fst).Sublist ((g.searched v).map Prod.fst))
    (h : (kind.gather found').dependency = (kind.gather found).dependency) :
    found'.members = found.members := by
  unfold searched at hkeys hkeys'
  rw [hkind] at hkeys hkeys'
  cases kind with
  | object =>
    rw [members_of_one hkeys, members_of_one hkeys']
    exact congrArg (·.toList.map ("properties", ·)) h
  | array =>
    have h : found'.members.head?.map (·.2) = found.members.head?.map (·.2) :=
      Option.map_injective (fun _ _ hlist => Dependency.list.inj hlist) h
    rw [members_of_one hkeys, members_of_one hkeys', h]
  | alternatives | mapping =>
    simp only [Kind.gather, Findings.ofMembers] at h
    generalize found.members = ms, found'.members = ms' at h
    cases ms <;> cases ms' <;> simp_all
  | model | discriminatedUnion | opaqueValue => cases hgoes

theorem gather_nothing (kind : Kind) : kind.gather ⟨[], [], []⟩ = .none := by
  cases kind <;> rfl

theorem dependency_of_kind (hkind : g.kind v = .ok kind) (hgoes : kind.goesOn = false)
    {inner : List Nat → Nat → Value → Except Fault Findings} (h : g.findNode inner path offset v = .ok found)
    (hnone : found.dependency = none) : kind = .opaqueValue := by
  unfold findNode at h
  rw [hkind] at h
  cases kind with
  | object | array | alternatives | mapping => cases hgoes
  | opaqueValue => rfl
  | model =>
    cases v with
    | scalar s => cases hkind
    | node id =>
      cases h
      cases hnone
  | discriminatedUnion =>
    cases v with
    | scalar s => cases hkind
    | node id =>
      obtain ⟨u, -, hfound⟩ := (bind_ok_iff _ _ _).mp (show g.unionFindings (offset + 1) _ = _ from h)
      cases (pure_ok_iff _ _).mp hfound
      cases hnone

/-- A value without relations has no findings at all, however many unions were found before it. -/
theorem findFrom_of_nothing (h : g.findFrom g.size path offset v = .ok found)
    (hnone : found.dependency = none) (offset' : Nat) : g.findFrom g.size path offset' v = .ok .none := by
  induction path, v using calls_induction (g := g) generalizing offset offset' found with
  | h path v ih =>
    cases v with
    | scalar s => exact findFrom_scalar ..
    | node id =>
      rw [findFrom_size] at h ⊢
      cases hkind : g.kind (.node id) with
      | error e =>
        rw [findNode_unclassified hkind] at h
        cases h
      | ok kind =>
        cases hgoes : kind.goesOn with
        | false =>
          obtain rfl := dependency_of_kind hkind hgoes h hnone
          rw [findNode, hkind]
          rfl
        | true =>
          by_cases hid : id ∈ path
          · exact findNode_seen hkind hgoes hid
          · rw [findNode_eq_gather hkind hgoes hid] at h ⊢
            obtain ⟨below, hbelow, rfl⟩ := (map_ok_iff _ _ _).mp h
            have hmembers : (⟨[], [], []⟩ : Findings.Members).members = below.members := by
              refine members_eq_of_gather hkind hgoes (findMembers_sublist hbelow) (List.nil_sublist _) ?_
              rw [gather_nothing, hnone]
              rfl
            have hnothing : ∀ m ∈ g.searched (.node id), false = false → ∀ offset,
                g.findFrom g.size (id :: path) offset m.2 = .ok .none := fun m hm _ => by
              obtain ⟨offset, first, hfirst, hdependency⟩ := findMembers_nothing hbelow hmembers.symm m hm
              exact ih id m.2 (.below hid (leads_iff_searched.mpr ⟨_, hm⟩)) hfirst hdependency
            rw [← findMembers_filter (fun _ => false) hnothing, List.filter_false]
            exact congrArg Except.ok (gather_nothing kind)

/-- With one more container above a value, the search finds the same as without it where the relations are
the same. -/
theorem findFrom_told (hg : g.WellFormed) (hpath : ∀ k, k ∈ path' ↔ k = id ∨ k ∈ path)
    (h : g.findFrom g.size path offset v = .ok found) (h' : g.findFrom g.size path' offset v = .ok found')
    (hsame : found'.dependency = found.dependency) (offset' : Nat) :
    g.findFrom g.size path' offset' v = g.findFrom g.size path offset' v := by
  induction path, v using calls_induction (g := g) generalizing path' offset found found' offset' with
  | h path v ih =>
    rw [findFrom_size] at h h' ⊢
    rcases g.stops_or_goesOn v with ⟨-, hstops⟩ | ⟨k, kind, rfl, hkind, hgoes⟩
    · exact hstops ..
    by_cases hk' : k ∈ path'
    · rw [findNode_seen hkind hgoes hk'] at h' ⊢
      cases h'
      have hnothing := findFrom_of_nothing (by rwa [← findFrom_size] at h) hsame.symm offset'
      rw [findFrom_size] at hnothing
      exact hnothing.symm
    · have hk : k ∉ path := fun hk => hk' ((hpath k).mpr (.inr hk))
      rw [findNode_eq_gather hkind hgoes hk] at h ⊢
      rw [findNode_eq_gather hkind hgoes hk'] at h' ⊢
      obtain ⟨below, hbelow, rfl⟩ := (map_ok_iff _ _ _).mp h
      obtain ⟨below', hbelow', rfl⟩ := (map_ok_iff _ _ _).mp h'
      have hmembers := members_eq_of_gather hkind hgoes (findMembers_sublist hbelow)
        (findMembers_sublist hbelow') hsame
      have hpath : ∀ j, j ∈ k :: path' ↔ j = id ∨ j ∈ k :: path := fun j => by
        simp only [List.mem_cons, hpath]
        exact or_left_comm
      have htold := findMembers_told hbelow hbelow' (nodup_searched hg _) hmembers
        (Q := fun m n => ∀ offset, g.findFrom g.size (k :: path') offset n.2 =
          g.findFrom g.size (k :: path) offset m.2)
        (List.forall₂_same.mpr fun m hm => ⟨rfl, fun offset first first' hfirst hfirst' hsame => by
          have heq := ih k m.2 (.below hk (leads_iff_searched.mpr ⟨_, hm⟩)) hpath hfirst hfirst' hsame
          have hfirst' := hfirst'.symm.trans ((heq offset).trans hfirst)
          exact ⟨by rw [Except.ok.inj hfirst'], heq⟩⟩)
      rw [findMembers_congr fun m hm => List.forall₂_same.mp htold m hm]

/-- What cannot be reached from a value may as well be above it. -/
theorem findFrom_of_not_reaches (hpath : ∀ k, k ∈ path' ↔ k = id ∨ k ∈ path)
    (hnot : ¬ g.Reaches v (.node id)) (offset : Nat) :
    g.findFrom g.size path' offset v = g.findFrom g.size path offset v := by
  induction path, v using calls_induction (g := g) generalizing path' offset with
  | h path v ih =>
    rw [findFrom_size]
    rcases g.stops_or_goesOn v with ⟨-, hstops⟩ | ⟨k, kind, rfl, hkind, hgoes⟩
    · exact hstops ..
    have hne : k ≠ id := by
      rintro rfl
      exact hnot .refl
    by_cases hk : k ∈ path
    · rw [findNode_seen hkind hgoes hk, findNode_seen hkind hgoes ((hpath k).mpr (.inr hk))]
    · have hk' : k ∉ path' := by simp [hpath, hne, hk]
      rw [findNode_eq_gather hkind hgoes hk, findNode_eq_gather hkind hgoes hk']
      refine congrArg (Except.map kind.gather) (findMembers_congr fun m hm offset => ?_)
      have hleads := leads_iff_searched.mpr ⟨_, hm⟩
      refine ih k m.2 (.below hk hleads) (fun j => ?_) (fun hreach => hnot (.head hleads hreach)) offset
      simp only [List.mem_cons, hpath]
      exact or_left_comm

/-- What values lead to only each other reach. -/
theorem mem_of_reaches {vs : List Value} (hclosed : ∀ u ∈ vs, ∀ m ∈ g.searched u, m.2 ∈ vs) (hv : v ∈ vs)
    (h : g.Reaches v w) : w ∈ vs := by
  induction h with
  | refl => exact hv
  | tail _ hleads ih =>
    obtain ⟨key, hmem⟩ := leads_iff_searched.mp hleads
    exact hclosed _ ih _ hmem

end Graph

end ApiRecords
