import ApiRecords.Proofs.Properties.Acyclic

/-!
The properties of a model with the required ones flagged, in a graph of their own. The schema of a
property is read out as before, but for its flag.
-/

namespace ApiRecords

namespace Graph

variable {g g' g₁ g₁' : Graph} {v w u u' : Value} {members : List (String × Value)}

/-- Whether a list of required properties has a key. -/
def requires (g : Graph) (required : Value) (key : String) : Bool :=
  ((g.array? required).getD []).contains (.scalar (.text key))

theorem Extends.object? (h : g.Extends g') (hv : g.Has v) : g'.object? v = g.object? v := by
  rw [Graph.object?, h.node v hv, Graph.object?]

/-- A schema as it stands among the properties of a survey: as it was, or, if it is to be flagged, as a
new container with the flag. -/
inductive Flagged (g g₁ : Graph) (required : Prop) (v : Value) : Value → Prop
  | kept : (required → g.object? v = none) → Flagged g g₁ required v v
  | flagged {members id} : required → g.object? v = some members → g.size ≤ id →
      g₁.node? (.node id) = some (.object (putMember "required" (.scalar (.bool true)) members)) →
      Flagged g g₁ required v (.node id)

namespace Flagged

variable {required required' : Prop}

theorem extend (h : Flagged g g₁ required v u) (hext : g₁.Extends g') : Flagged g g' required v u := by
  cases h with
  | kept hnot => exact .kept hnot
  | flagged hreq hobject hnew hnode =>
    exact .flagged hreq hobject hnew (by rw [hext.node _ (has_of_node? hnode), hnode])

theorem rebase {g₀ : Graph} (h : Flagged g g₁ required v u) (hext : g₀.Extends g) (hv : g₀.Has v) :
    Flagged g₀ g₁ required v u := by
  cases h with
  | kept hnot => exact .kept fun hreq => hext.object? hv ▸ hnot hreq
  | flagged hreq hobject hnew hnode =>
    exact .flagged hreq (hext.object? hv ▸ hobject) (Nat.le_trans hext.size hnew) hnode

theorem has (h : Flagged g g₁ required v u) (hext : g.Extends g₁) (hv : g.Has v) : g₁.Has u := by
  cases h with
  | kept => exact has_of_size hv hext.size
  | flagged _ _ _ hnode => exact has_of_node? hnode

theorem isSome_object? (h : Flagged g g₁ required v u) (hext : g.Extends g₁) (hv : g.Has v)
    (hobject : (g.object? v).isSome) : (g₁.object? u).isSome := by
  cases h with
  | kept => rwa [hext.object? hv]
  | flagged _ _ _ hnode => rw [object?_iff.mpr hnode, Option.isSome_some]

/-- Schemas that are read out as one tree, and are flagged alike, are still read out as one. -/
theorem sameTree (h : Flagged g g₁ required v u) (h' : Flagged g' g₁' required' w u')
    (hg : g.WellFormed) (hg' : g'.WellFormed) (hext : g.Extends g₁) (hext' : g'.Extends g₁')
    (hsame : SameTree g g' [] [] v w) (hrequired : required ↔ required') {path path' : List Nat}
    (hpath : ∀ k ∈ path, g.size ≤ k ∧ u ≠ .node k)
    (hpath' : ∀ k ∈ path', g'.size ≤ k ∧ u' ≠ .node k) : SameTree g₁ g₁' path path' u u' := by
  have hobject := (mirrors_sameTree hg hg').object? hsame
  have hnew := fun k hk => (hpath k hk).1
  have hnew' := fun k hk => (hpath' k hk).1
  cases h with
  | kept hnot =>
    cases h' with
    | kept => exact hsame.extend hg hg' hext hext' hnew hnew'
    | flagged hreq hmembers =>
      rw [hnot (hrequired.mpr hreq), hmembers] at hobject
      cases hobject
  | flagged hreq hmembers hid hnode =>
    cases h' with
    | kept hnot =>
      rw [hmembers, hnot (hrequired.mp hreq)] at hobject
      cases hobject
    | flagged _ hmembers' hid' hnode' =>
      rw [hmembers, hmembers'] at hobject
      cases hobject with
      | some hrel =>
        refine SameTree.added hg hg' hext hext' hnode hnode' hid hid'
          (.object (hrel.putMember "required" (SameTree.scalar _))) ?_ ?_ hnew hnew'
        · exact fun hmem => (hpath _ hmem).2 rfl
        · exact fun hmem => (hpath' _ hmem).2 rfl

end Flagged

theorem WellFormed.add_object (hg : g.WellFormed) (hkeys : (members.map Prod.fst).Nodup)
    (hvalues : ∀ m ∈ members, g.Has m.2) : (g.add (.object members)).1.WellFormed := by
  refine hg.add hkeys fun slot w hat => ?_
  cases slot with
  | index i => cases hat
  | key k => exact hvalues (k, w) (mem_of_lookup hat)

theorem withRequiredFlag_flagged (hg : g.WellFormed) (v : Value) {required : Prop} (h : required) :
    g.Extends (g.withRequiredFlag v).1 ∧ (g.withRequiredFlag v).1.WellFormed ∧
      Flagged g (g.withRequiredFlag v).1 required v (g.withRequiredFlag v).2 := by
  unfold withRequiredFlag
  cases hmembers : g.object? v with
  | none => exact ⟨.refl g, hg, .kept fun _ => hmembers⟩
  | some members =>
    have hnode := object?_iff.mp hmembers
    have hkeys := nodup_putMember (hg.keys v _ hnode) "required" (.scalar (.bool true))
    refine ⟨extends_add g _, hg.add_object hkeys fun m hm => ?_,
      .flagged h hmembers (Nat.le_refl _) (node?_add_new g _)⟩
    rcases mem_putBy hm with hflag | hm
    · exact hflag ▸ trivial
    · exact hg.has_of_mem_values hnode (List.mem_map_of_mem hm)

/-- The properties are flagged one after the other, each in what the ones before have left. -/
theorem flagRequired_flagged {g₀ : Graph} (names : List Value) (hext : g₀.Extends g)
    (hg : g.WellFormed) (hmembers : ∀ m ∈ members, g₀.Has m.2) :
    g.Extends (flagRequired names g members).1 ∧ (flagRequired names g members).1.WellFormed ∧
      List.Forall₂ (fun m n => m.1 = n.1 ∧
        Flagged g₀ (flagRequired names g members).1 (.scalar (.text m.1) ∈ names) m.2 n.2)
        members (flagRequired names g members).2 := by
  induction members generalizing g with
  | nil => exact ⟨.refl g, hg, .nil⟩
  | cons m members ih =>
    obtain ⟨hm, hrest⟩ := List.forall_mem_cons.mp hmembers
    obtain ⟨g', u, heq, hext', hg', hflagged⟩ : ∃ g' u,
        (if names.contains (.scalar (.text m.1)) then g.withRequiredFlag m.2 else (g, m.2)) = (g', u) ∧
          g.Extends g' ∧ g'.WellFormed ∧ Flagged g₀ g' (.scalar (.text m.1) ∈ names) m.2 u := by
      by_cases hmem : .scalar (.text m.1) ∈ names
      · obtain ⟨hext', hg', hflagged⟩ := withRequiredFlag_flagged hg m.2 hmem
        exact ⟨_, _, if_pos (by simpa using hmem), hext', hg', hflagged.rebase hext hm⟩
      · exact ⟨g, m.2, if_neg (by simpa using hmem), .refl g, hg, .kept fun h => absurd h hmem⟩
    obtain ⟨hext'', hg'', hall⟩ := ih (hext.trans hext') hg' hrest
    rw [flagRequired, heq]
    exact ⟨hext'.trans hext'', hg'', .cons ⟨rfl, hflagged.extend hext''⟩ hall⟩

/-- What a survey goes through: the properties, in the order in which they stand, in a new container of
their own. -/
structure Marked (g : Graph) (required : Value) (members : List (String × Value)) (g₁ : Graph)
    (id : Nat) (marked : List (String × Value)) : Prop where
  extended : g.Extends g₁
  wellFormed : g₁.WellFormed
  node : g₁.node? (.node id) = some (.object marked)
  fresh : g.size ≤ id
  flagged : List.Forall₂ (fun m n => m.1 = n.1 ∧ Flagged g g₁ (g.requires required m.1) m.2 n.2 ∧
    n.2 ≠ .node id) members marked

theorem markRequired_marked (hg : g.WellFormed) {properties required : Value}
    (hmembers : g.object? properties = some members)
    (h : g.markRequired properties required = .ok (g₁, w)) :
    ∃ id marked, w = .node id ∧ Marked g required members g₁ id marked := by
  have hnode := object?_iff.mp hmembers
  have hvalues : ∀ m ∈ members, g.Has m.2 :=
    fun m hm => hg.has_of_mem_values hnode (List.mem_map_of_mem hm)
  have hkeys : (members.map Prod.fst).Nodup := hg.keys _ _ hnode
  have hold : ∀ (g : Graph) w, g.Has w → w ≠ .node g.size := by
    rintro g _ hw rfl
    exact Nat.lt_irrefl _ hw
  unfold markRequired at h
  rw [hmembers] at h
  cases hnames : g.array? required with
  | none =>
    rw [hnames] at h
    simp only [pairs, hmembers, bind_ok_iff, Except.ok.injEq, pure_ok_iff, exists_eq_left'] at h
    obtain ⟨rfl, rfl⟩ := Prod.mk.inj h
    refine ⟨_, members, rfl, extends_add g _, hg.add_object hkeys hvalues, node?_add_new g _,
      Nat.le_refl _, List.forall₂_same.mpr fun m hm => ⟨rfl, .kept ?_, hold g _ (hvalues m hm)⟩⟩
    simp [requires, hnames]
  | some names =>
    rw [hnames] at h
    obtain ⟨hext, hg', hall⟩ := flagRequired_flagged names (.refl g) hg hvalues
    have h : (flagRequired names g members).1.add (.object (flagRequired names g members).2) =
        (g₁, w) := Except.ok.inj h
    generalize flagRequired names g members = r at h hext hg' hall
    obtain ⟨rfl, rfl⟩ := Prod.mk.inj h
    have hadd := extends_add r.1 (.object r.2)
    have hrequires : ∀ key, g.requires required key ↔ .scalar (.text key) ∈ names := fun key => by
      simp [requires, hnames]
    have hall := (List.forall₂_and_left _ _).mpr ⟨hvalues, hall⟩
    have hkeys' : members.map Prod.fst = r.2.map Prod.fst :=
      map_eq_map_iff_forall₂.mpr (hall.imp fun _ _ h => h.2.1)
    have hvalues' : ∀ m ∈ r.2, r.1.Has m.2 := fun m hm => by
      obtain ⟨_, hv, -, hflagged⟩ := exists_of_forall₂ hall.flip m hm
      exact hflagged.has hext hv
    refine ⟨_, r.2, rfl, hext.trans hadd, hg'.add_object (hkeys' ▸ hkeys) hvalues', node?_add_new r.1 _,
      hext.size, hall.imp fun m n hmn => ?_⟩
    obtain ⟨hv, hkey, hflagged⟩ := hmn
    rw [hrequires]
    exact ⟨hkey, hflagged.extend hadd, hold r.1 _ (hflagged.has hext hv)⟩

namespace Marked

variable {required : Value} {marked : List (String × Value)} {id : Nat} {key : String}

theorem nodup_keys (h : Marked g required members g₁ id marked) : (marked.map Prod.fst).Nodup :=
  h.wellFormed.keys _ _ h.node

theorem lookup (h : Marked g required members g₁ id marked) (hv : members.lookup key = some v) :
    ∃ u, marked.lookup key = some u ∧ Flagged g g₁ (g.requires required key) v u ∧ u ≠ .node id :=
  lookup_of_forall₂
    (R := fun key v u => Flagged g g₁ (g.requires required key) v u ∧ u ≠ .node id) h.flagged hv

/-- Schemas that are mappings are so with the flag too. -/
theorem isSome_object? (h : Marked g required members g₁ id marked) (hvalues : ∀ m ∈ members, g.Has m.2)
    (hmapped : ∀ m ∈ members, (g.object? m.2).isSome) : ∀ m ∈ marked, (g₁.object? m.2).isSome := by
  intro n hn
  have hall := (List.forall₂_and_left _ _).mpr ⟨hvalues, h.flagged⟩
  have hall := (List.forall₂_and_left _ _).mpr ⟨hmapped, hall⟩
  obtain ⟨m, hobject, hhas, -, hflagged, -⟩ := exists_of_forall₂ hall.flip n hn
  exact hflagged.isSome_object? h.extended hhas hobject

end Marked

end Graph

end ApiRecords
