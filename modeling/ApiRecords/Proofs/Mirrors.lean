import ApiRecords.Model.Blueprint
import ApiRecords.Proofs.Containers
import ApiRecords.Proofs.Unions

/-!
What is read off a schema depends only on what stands in it: off values that correspond, in two graphs,
the same is read.
-/

namespace ApiRecords

/-! ### Results that correspond -/

/-- Both the same failure, or results that `R` relates. -/
inductive OutcomeRel {ε α β : Type} (R : α → β → Prop) : Except ε α → Except ε β → Prop
  | ok {a b} : R a b → OutcomeRel R (.ok a) (.ok b)
  | error (e) : OutcomeRel R (.error e) (.error e)

namespace OutcomeRel

variable {ε α β γ δ : Type} {R : α → β → Prop} {x : Except ε α} {y : Except ε β}

theorem bind {S : γ → δ → Prop} {f : α → Except ε γ} {f' : β → Except ε δ} (h : OutcomeRel R x y)
    (hnext : ∀ a b, R a b → OutcomeRel S (f a) (f' b)) : OutcomeRel S (x >>= f) (y >>= f') := by
  cases h with
  | ok hab => exact hnext _ _ hab
  | error e => exact .error e

theorem map {S : γ → δ → Prop} {f : α → γ} {f' : β → δ} (h : OutcomeRel R x y)
    (hnext : ∀ a b, R a b → S (f a) (f' b)) : OutcomeRel S (x.map f) (y.map f') := by
  cases h with
  | ok hab => exact .ok (hnext _ _ hab)
  | error e => exact .error e

theorem bind_eq {f : α → Except ε γ} {f' : β → Except ε γ} (h : OutcomeRel R x y)
    (hnext : ∀ a b, R a b → f' b = f a) : y >>= f' = x >>= f := by
  cases h with
  | ok hab => exact hnext _ _ hab
  | error e => rfl

theorem eq_of_forall {y : Except ε α} {R : α → α → Prop} (h : OutcomeRel R x y)
    (hR : ∀ a b, R a b → b = a) : y = x := by
  cases h with
  | ok hab => rw [hR _ _ hab]
  | error e => rfl

theorem of_ok {a : α} {b : β} (h : OutcomeRel R (.ok a : Except ε α) (.ok b)) : R a b := by
  cases h with
  | ok hab => exact hab

theorem refl (x : Except ε α) : OutcomeRel Eq x x := by
  cases x with
  | ok a => exact .ok rfl
  | error e => exact .error e

theorem map_eq_iff {f : α → γ} {f' : β → γ} :
    OutcomeRel (fun a b => f' b = f a) x y ↔ y.map f' = x.map f := by
  constructor
  · rintro (⟨hab⟩ | _)
    · exact congrArg Except.ok hab
    · rfl
  · intro h
    cases x with
    | error e =>
      obtain rfl := map_error_iff.mp h
      exact .error e
    | ok a =>
      obtain ⟨b, rfl, hb⟩ := (map_ok_iff _ _ _).mp h
      exact .ok hb

end OutcomeRel

theorem mapM_rel {ε α β γ δ : Type} {R : α → β → Prop} {S : γ → δ → Prop} {f : α → Except ε γ}
    {f' : β → Except ε δ} {as : List α} {bs : List β} (h : List.Forall₂ R as bs)
    (hf : ∀ a b, R a b → OutcomeRel S (f a) (f' b)) :
    OutcomeRel (List.Forall₂ S) (as.mapM f) (bs.mapM f') := by
  induction h with
  | nil => exact .ok .nil
  | cons hab _ ih =>
    rw [List.mapM_cons, List.mapM_cons]
    exact (hf _ _ hab).bind fun c d hcd => ih.bind fun cs ds hcds => .ok (.cons hcd hcds)

theorem mapM_eq_of_rel {ε α β γ : Type} {R : α → β → Prop} {f : α → Except ε γ} {f' : β → Except ε γ}
    {as : List α} {bs : List β} (h : List.Forall₂ R as bs) (hf : ∀ a b, R a b → f' b = f a) :
    bs.mapM f' = as.mapM f := by
  induction h with
  | nil => rfl
  | cons hab _ ih => rw [List.mapM_cons, List.mapM_cons, hf _ _ hab, ih]

theorem foldlM_eq_of_rel {ε α β γ : Type} {R : α → β → Prop} {step : γ → α → Except ε γ}
    {step' : γ → β → Except ε γ} {as : List α} {bs : List β} (h : List.Forall₂ R as bs)
    (hstep : ∀ c a b, R a b → step' c b = step c a) (c : γ) :
    bs.foldlM step' c = as.foldlM step c := by
  induction h generalizing c with
  | nil => rfl
  | cons hab _ ih => simp only [List.foldlM_cons, hstep _ _ _ hab, ih]

/-- Branches that differ in nothing but where their schemas stand. -/
structure Branch.Rel (R : Value → Value → Prop) (b b' : Branch) : Prop where
  name : b'.name = b.name
  entityName : b'.entityName = b.entityName
  ref : b'.ref = b.ref
  schema : R b.schema b'.schema

theorem Branch.Rel.eq_of_forall {R : Value → Value → Prop} {b b' : Branch} (h : b.Rel R b')
    (hR : ∀ v w, R v w → w = v) : b' = b := by
  obtain ⟨hname, hentity, href, hschema⟩ := h
  have hschema := hR _ _ hschema
  cases b
  cases b'
  simp_all

structure Union.Rel (R : Value → Value → Prop) (u u' : Union) : Prop where
  key : u'.key = u.key
  propertyName : u'.propertyName = u.propertyName
  mapping : u'.mapping = u.mapping
  branches : List.Forall₂ (Branch.Rel R) u.branches u'.branches

theorem Union.Rel.eq_of_forall {R : Value → Value → Prop} {u u' : Union} (h : u.Rel R u')
    (hR : ∀ v w, R v w → w = v) : u' = u := by
  obtain ⟨hkey, hproperty, hmapping, hbranches⟩ := h
  have hbranches : u.branches = u'.branches := by
    rw [← List.forall₂_eq_eq_eq]
    exact hbranches.imp fun _ _ hb => (hb.eq_of_forall hR).symm
  cases u
  cases u'
  simp_all

theorem entryTarget_rel {R : Value → Value → Prop} {bs bs' : List Branch}
    (h : List.Forall₂ (Branch.Rel R) bs bs') (key : String) (ref : Tree) :
    entryTarget bs' key ref = entryTarget bs key ref := by
  have hfilter : List.Forall₂ (Branch.Rel R) (bs.filter fun b => b.ref.eq ref)
      (bs'.filter fun b => b.ref.eq ref) := by
    induction h with
    | nil => exact .nil
    | cons hb _ ih =>
      rw [List.filter_cons, List.filter_cons, hb.ref]
      split
      · exact .cons hb ih
      · exact ih
  unfold entryTarget
  generalize (bs.filter fun b => b.ref.eq ref) = found,
    (bs'.filter fun b => b.ref.eq ref) = found' at hfilter
  cases hfilter with
  | nil => rfl
  | cons hb hrest =>
    cases hrest with
    | nil => exact congrArg Except.ok hb.entityName
    | cons _ hrest => simp only [List.length_cons, hrest.length_eq]

theorem forall₂_isEmpty {α β : Type} {R : α → β → Prop} {as : List α} {bs : List β}
    (h : List.Forall₂ R as bs) : bs.isEmpty = as.isEmpty := by
  cases h <;> rfl

theorem Node.Rel.isEmpty {R : Value → Value → Prop} {n n' : Node} (h : n.Rel R n') :
    n'.isEmpty = n.isEmpty := by
  cases h with
  | array h => exact forall₂_isEmpty h
  | object h => exact forall₂_isEmpty h

namespace Graph

section

variable {R : Value → Value → Prop} {g g' : Graph} {v w : Value}

theorem object?_rel (h : Option.Rel (Node.Rel R) (g.node? v) (g'.node? w)) :
    Option.Rel (MembersRel R) (g.object? v) (g'.object? w) := by
  unfold Graph.object?
  generalize g.node? v = a, g'.node? w = b at h
  cases h with
  | none => exact .none
  | some hn =>
    cases hn with
    | array _ => exact .none
    | object hmembers => exact .some hmembers

theorem member?_rel (h : Option.Rel (Node.Rel R) (g.node? v) (g'.node? w)) (key : String) :
    Option.Rel R (g.member? v key) (g'.member? w key) := by
  have hobject := object?_rel h
  unfold Graph.member?
  generalize g.object? v = a, g'.object? w = b at hobject
  cases hobject with
  | none => exact .none
  | some hmembers => exact hmembers.lookup key

theorem get_rel (hnull : R .null .null) (h : Option.Rel (Node.Rel R) (g.node? v) (g'.node? w))
    (key : String) : R (g.get v key) (g'.get w key) := by
  have hmember := member?_rel h key
  unfold Graph.get
  generalize g.member? v key = a, g'.member? w key = b at hmember
  cases hmember with
  | none => exact hnull
  | some hab => exact hab

end

/-- Whether values of two graphs that `R` relates hold values that it relates, and read as the same
tree. -/
structure Mirrors (R : Value → Value → Prop) (g g' : Graph) : Prop where
  literal : ∀ s, R (.scalar s) (.scalar s)
  scalar_iff : ∀ {v w}, R v w → ∀ s, v = .scalar s ↔ w = .scalar s
  node : ∀ {v w}, R v w → Option.Rel (Node.Rel R) (g.node? v) (g'.node? w)
  tree : ∀ {v w}, R v w → g'.tree w = g.tree v

/-- Whether values of two graphs are mappings alike: what `R` relates stands under each key, but under those
that are off. -/
structure AlikeBut (R : Value → Value → Prop) (off : String → Prop) (g g' : Graph) (v w : Value) : Prop where
  object : (g'.object? w).isSome = (g.object? v).isSome
  member : ∀ {key}, ¬ off key → Option.Rel R (g.member? v key) (g'.member? w key)

/-- A graph that keeps some values, and what they hold, is read alike at them. -/
theorem Mirrors.of_kept {kept : Value → Prop} (hscalar : ∀ s, kept (.scalar s))
    (htree : ∀ {v}, kept v → g'.tree v = g.tree v) (hnode : ∀ v, kept v → g'.node? v = g.node? v)
    (hvalues : ∀ v n, kept v → g.node? v = some n → ∀ w ∈ n.values, kept w) :
    Mirrors (fun v w => kept v ∧ w = v) g g' where
  literal s := ⟨hscalar s, rfl⟩
  scalar_iff hvw s := by rw [hvw.2]
  tree := by
    rintro v _ ⟨hv, rfl⟩
    exact htree hv
  node := by
    rintro v _ ⟨hv, rfl⟩
    rw [hnode _ hv]
    cases hn : g.node? _ with
    | none => exact .none
    | some n =>
      have hrel : n.Rel (· = ·) n := .refl (fun _ => rfl) n
      exact .some (hrel.imp fun a ha b _ hab => ⟨hvalues _ n hv hn a ha, hab.symm⟩)

theorem Mirrors.refl (g : Graph) : Mirrors (· = ·) g g where
  literal _ := rfl
  scalar_iff h s := by rw [h]
  tree h := by rw [h]
  node {v w} h := by
    rw [h]
    cases g.node? w with
    | none => exact .none
    | some n => exact .some (.refl (fun _ => rfl) n)

namespace Mirrors

variable {R : Value → Value → Prop} {g g' : Graph} {v w : Value} (h : Mirrors R g g') (hvw : R v w)

include h hvw

/-! ### Members and items -/

theorem object? : Option.Rel (MembersRel R) (g.object? v) (g'.object? w) :=
  object?_rel (h.node hvw)

theorem array? : Option.Rel (List.Forall₂ R) (g.array? v) (g'.array? w) := by
  have hnode := h.node hvw
  unfold Graph.array?
  generalize g.node? v = a, g'.node? w = b at hnode
  cases hnode with
  | none => exact .none
  | some hn =>
    cases hn with
    | array hitems => exact .some hitems
    | object _ => exact .none

theorem object?_isSome : (g'.object? w).isSome = (g.object? v).isSome := by
  have hobject := h.object? hvw
  generalize g.object? v = a, g'.object? w = b at hobject
  cases hobject <;> rfl

theorem array?_isSome : (g'.array? w).isSome = (g.array? v).isSome := by
  have harray := h.array? hvw
  generalize g.array? v = a, g'.array? w = b at harray
  cases harray <;> rfl

theorem array?_getD : List.Forall₂ R ((g.array? v).getD []) ((g'.array? w).getD []) := by
  have harray := h.array? hvw
  generalize g.array? v = a, g'.array? w = b at harray
  cases harray with
  | none => exact .nil
  | some hitems => exact hitems

theorem object?_getD : MembersRel R ((g.object? v).getD []) ((g'.object? w).getD []) := by
  have hobject := h.object? hvw
  generalize g.object? v = a, g'.object? w = b at hobject
  cases hobject with
  | none => exact .nil
  | some hmembers => exact hmembers

theorem member? (key : String) : Option.Rel R (g.member? v key) (g'.member? w key) :=
  member?_rel (h.node hvw) key

theorem get (key : String) : R (g.get v key) (g'.get w key) :=
  get_rel (h.literal _) (h.node hvw) key

theorem get_eq_scalar (key : String) (s : Scalar) :
    (g'.get w key = .scalar s) = (g.get v key = .scalar s) :=
  propext (h.scalar_iff (h.get hvw key) s).symm

theorem truthy : g'.truthy w = g.truthy v := by
  cases v with
  | scalar s =>
    obtain rfl := (h.scalar_iff hvw s).mp rfl
    rfl
  | node i =>
    cases w with
    | scalar s => cases (h.scalar_iff hvw s).mpr rfl
    | node j =>
      have hnode := h.node hvw
      unfold Graph.truthy
      generalize g.node? (.node i) = a, g'.node? (.node j) = b at hnode
      cases hnode with
      | none => rfl
      | some hn => exact congrArg (! ·) hn.isEmpty

/-! ### Trees -/

theorem map_tree_member? (key : String) :
    (g'.member? w key).map g'.tree = (g.member? v key).map g.tree := by
  have hmember := h.member? hvw key
  generalize g.member? v key = a, g'.member? w key = b at hmember
  cases hmember with
  | none => rfl
  | some hab => exact congrArg some (h.tree hab)

omit hvw in
theorem map_tree {vs ws : List Value} (hvs : List.Forall₂ R vs ws) :
    ws.map g'.tree = vs.map g.tree :=
  (map_eq_map_iff_forall₂.mpr (hvs.imp fun _ _ hvw => (h.tree hvw).symm)).symm

theorem elements : OutcomeRel (List.Forall₂ R) (g.elements v) (g'.elements w) := by
  have hliterals : ∀ ss : List Scalar, List.Forall₂ R (ss.map .scalar) (ss.map .scalar) := by
    intro ss
    rw [List.forall₂_map_left_iff, List.forall₂_map_right_iff]
    exact List.forall₂_same.mpr fun s _ => h.literal s
  cases v with
  | scalar s =>
    obtain rfl := (h.scalar_iff hvw s).mp rfl
    cases s with
    | text s => exact .ok (by simpa using hliterals (s.toList.map fun c => .text (String.singleton c)))
    | _ => exact .error _
  | node i =>
    cases w with
    | scalar s => cases (h.scalar_iff hvw s).mpr rfl
    | node j =>
      have hnode := h.node hvw
      unfold Graph.elements
      generalize g.node? (.node i) = a, g'.node? (.node j) = b at hnode
      cases hnode with
      | none => exact .error _
      | some hn =>
        cases hn with
        | array hitems => exact .ok hitems
        | @object ms ns hmembers =>
          refine .ok ?_
          have hkeys := hliterals ((ms.map Prod.fst).map .text)
          conv at hkeys => arg 3; rw [hmembers.keys]
          simpa using hkeys

theorem listed : g'.listed w = g.listed v := by
  unfold Graph.listed
  rw [h.truthy hvw]
  split
  · refine (h.elements hvw).bind_eq fun vs ws hvs => ?_
    rw [h.map_tree hvs]
  · rfl

/-! ### Markers -/

theorem alikeBut : AlikeBut R (fun _ => False) g g' v w where
  object := h.object?_isSome hvw
  member _ := h.member? hvw _

end Mirrors

section

variable {R : Value → Value → Prop} {off : String → Prop} {g g' : Graph} {v w : Value} {key : String}

namespace AlikeBut

variable (halike : AlikeBut R off g g' v w) (h : Mirrors R g g')

include halike h

theorem get (hkey : ¬ off key) : R (g.get v key) (g'.get w key) := by
  have hmember := halike.member hkey
  unfold Graph.get
  generalize g.member? v key = a, g'.member? w key = b at hmember
  cases hmember with
  | none => exact h.literal _
  | some hab => exact hab

theorem get_eq_scalar (hkey : ¬ off key) (s : Scalar) :
    (g'.get w key = .scalar s) = (g.get v key = .scalar s) :=
  propext (h.scalar_iff (halike.get h hkey) s).symm

theorem modelName (hname : ¬ off modelNameKey) : g'.modelName w = g.modelName v :=
  h.tree (halike.get h hname)

theorem identity (hgiven : ¬ off identityKey) (hproperties : ¬ off "properties") :
    g'.identity w = g.identity v := by
  have hobject := halike.object
  have hproperties := h.object? (halike.get h hproperties)
  unfold Graph.identity
  simp only [h.truthy (halike.get h hgiven), h.tree (halike.get h hgiven)]
  generalize g.object? v = a, g'.object? w = b at hobject
  cases a with
  | none =>
    obtain rfl := Option.not_isSome_iff_eq_none.mp (Bool.eq_false_iff.mp hobject)
    rfl
  | some _ =>
    obtain ⟨_, rfl⟩ := Option.isSome_iff_exists.mp hobject
    generalize g.object? (g.get v "properties") = a, g'.object? (g'.get w "properties") = b
      at hproperties
    cases hproperties with
    | none => rfl
    | @some ms ns hmembers =>
      have hlookup : ∀ key, (ns.lookup key).isSome = (ms.lookup key).isSome := fun key => by
        rw [Bool.eq_iff_iff, ← mem_keys_iff, ← mem_keys_iff, hmembers.keys]
      simp only [hlookup]

theorem standsForModel (hname : ¬ off modelNameKey)
    (hidentity : (g.modelName v).truthy → ¬ off identityKey ∧ ¬ off "properties") :
    g'.standsForModel w = g.standsForModel v := by
  rw [Graph.standsForModel, Graph.standsForModel, halike.modelName h hname]
  split
  · rename_i htruthy
    obtain ⟨hgiven, hproperties⟩ := hidentity htruthy
    rw [halike.identity h hgiven hproperties]
  · rfl

theorem shapeKind (honeOf : (g'.array? (g'.get w "oneOf")).isSome = (g.array? (g.get v "oneOf")).isSome)
    (hdiscriminator : (g.array? (g.get v "oneOf")).isSome → ¬ off "discriminator")
    (htype : ∀ s, g'.get w "type" = .scalar s ↔ g.get v "type" = .scalar s) :
    g'.shapeKind w = g.shapeKind v := by
  rw [Graph.shapeKind, Graph.shapeKind, honeOf]
  split
  · rename_i hlist
    rw [h.truthy (halike.get h (hdiscriminator hlist))]
  · simp only [htype]

end AlikeBut

end

namespace Mirrors

variable {R : Value → Value → Prop} {g g' : Graph} {v w : Value} (h : Mirrors R g g') (hvw : R v w)

include h hvw

theorem modelName : g'.modelName w = g.modelName v := (h.alikeBut hvw).modelName h not_false

theorem identity : g'.identity w = g.identity v := (h.alikeBut hvw).identity h not_false not_false

theorem reference : g'.reference w = g.reference v := by
  have hobject := h.object? hvw
  unfold Graph.reference
  generalize g.object? v = a, g'.object? w = b at hobject
  cases hobject with
  | none => rfl
  | some _ =>
    dsimp only
    rw [h.truthy (h.get hvw refKey), h.truthy (h.get hvw clientRefKey)]
    refine congrArg Except.ok ?_
    split
    · exact h.tree (h.get hvw _)
    · split <;> exact h.tree (h.get hvw _)

theorem kind : g'.kind w = g.kind v := by
  have halike := h.alikeBut hvw
  have hstandsFor := halike.standsForModel h not_false fun _ => ⟨not_false, not_false⟩
  have hshape := halike.shapeKind h (h.array?_isSome (h.get hvw _)) (fun _ => not_false) fun s =>
    (h.scalar_iff (h.get hvw _) s).symm
  have hnode := h.node hvw
  unfold Graph.kind
  rw [hstandsFor, hshape]
  generalize g.node? v = a, g'.node? w = b at hnode
  cases hnode with
  | none => rfl
  | some hn => cases hn <;> rfl

/-! ### Unions -/

theorem branch (property : Tree) (index : Nat) :
    OutcomeRel (Branch.Rel R) (g.branch property index v) (g'.branch property index w) := by
  simp only [Graph.branch, h.modelName hvw, h.identity hvw, h.reference hvw]
  cases (g.modelName v).truthy with
  | false => exact .error _
  | true =>
    cases g.identity v with
    | error e => exact .error e
    | ok identity =>
      cases hfound : identity.isFound with
      | false =>
        simp only [bind, Except.bind, hfound]
        exact .error _
      | true =>
        simp only [bind, Except.bind, hfound]
        cases g.reference v with
        | error e => exact .error e
        | ok ref => exact .ok ⟨rfl, rfl, rfl, hvw⟩

omit hvw in
theorem branches (property : Tree) (index : Nat) {vs ws : List Value} (hvs : List.Forall₂ R vs ws) :
    OutcomeRel (List.Forall₂ (Branch.Rel R)) (g.branches property index vs)
      (g'.branches property index ws) := by
  induction hvs generalizing index with
  | nil => exact .ok .nil
  | cons hvw _ ih =>
    exact (h.branch hvw property index).bind fun b b' hb =>
      (ih (index + 1)).bind fun bs bs' hbs => .ok (.cons hb hbs)

theorem unionMapping {bs bs' : List Branch} (hbs : List.Forall₂ (Branch.Rel R) bs bs') :
    g'.unionMapping w bs' = g.unionMapping v bs := by
  have hobject := h.object? hvw
  unfold Graph.unionMapping
  rw [h.truthy hvw]
  split
  · generalize g.object? v = a, g'.object? w = b at hobject
    cases hobject with
    | none => rfl
    | some hentries =>
      refine mapM_eq_of_rel hentries fun m n hmn => ?_
      obtain ⟨key, a⟩ := m
      obtain ⟨_, b⟩ := n
      obtain ⟨rfl, hab⟩ := hmn
      dsimp only
      rw [h.tree hab, entryTarget_rel hbs]
  · exact foldlM_eq_of_rel hbs (fun _ b b' hb => by rw [hb.name, hb.entityName]) []

/-! ### Types -/

omit hvw in
theorem alternativeNames {vs ws : List Value} (hvs : List.Forall₂ R vs ws) :
    g'.alternativeNames ws = g.alternativeNames vs := by
  induction hvs with
  | nil => rfl
  | cons hvw _ ih =>
    have hobject := h.object? hvw
    unfold Graph.alternativeNames
    rw [h.reference hvw, h.modelName hvw, ih]
    generalize g.object? _ = a, g'.object? _ = b at hobject
    cases hobject <;> rfl

theorem arrayType : g'.arrayType w = g.arrayType v := by
  unfold Graph.arrayType
  rw [h.tree (h.get hvw "type"), h.listed (h.get hvw "enum")]

omit hvw in
theorem objectType (spell : String → String) {ms ns : List (String × Value)}
    (hmembers : MembersRel R ms ns) : g'.objectType spell ns = g.objectType spell ms := by
  unfold Graph.objectType
  refine congrArg (· >>= _) (mapM_eq_of_rel hmembers fun m n hmn => ?_)
  obtain ⟨key, a⟩ := m
  obtain ⟨_, b⟩ := n
  obtain ⟨rfl, hab⟩ := hmn
  dsimp only
  rw [h.tree (h.get hab "type"), h.listed (h.get hab "enum")]

/-! ### Properties -/

theorem givenName? (index : Nat) : Constant.givenName? g' w index = Constant.givenName? g v index := by
  have hnode := h.node hvw
  have htruthy := h.truthy hvw
  unfold Constant.givenName?
  generalize g.node? v = a, g'.node? w = b at hnode
  cases hnode with
  | none =>
    cases v with
    | scalar s =>
      obtain rfl := (h.scalar_iff hvw s).mp rfl
      cases s <;> rfl
    | node i =>
      cases w with
      | scalar s => cases (h.scalar_iff hvw s).mpr rfl
      | node j => simp only [htruthy]
  | some hn =>
    cases hn with
    | @array as bs hitems =>
      have hitem := forall₂_getElem? hitems index
      dsimp only
      generalize as[index]? = a, bs[index]? = b at hitem
      cases hitem with
      | none => rfl
      | some hab => exact congrArg (Except.ok ∘ some) (h.tree hab)
    | object hmembers => simp only [hmembers.length_eq]

theorem ofValues (property : String) (index : Nat) (values : List Tree) :
    Constant.ofValues g' property w index values = Constant.ofValues g property v index values := by
  induction values generalizing index with
  | nil => rfl
  | cons value values ih => simp only [Constant.ofValues, h.givenName? hvw, ih]

theorem ofListed (property : String) (values : Option (List Tree)) :
    Constant.ofListed g' property w values = Constant.ofListed g property v values := by
  cases values with
  | none => rfl
  | some values => simp only [Constant.ofListed, h.ofValues hvw]

end Mirrors

section

variable {R : Value → Value → Prop} {off : String → Prop} {g g' : Graph} {v w : Value} {key : String}
  {spell : String → String} {unions unions' : List (String × List Tree)}

/-! ### Mappings that are alike -/

namespace AlikeBut

variable (halike : AlikeBut R off g g' v w) (h : Mirrors R g g')

include halike

theorem require (hkey : ¬ off key) : OutcomeRel R (g.require v key) (g'.require w key) := by
  have hobject := halike.object
  have hmember := halike.member hkey
  unfold Graph.require
  unfold Graph.member? at hmember
  generalize g.object? v = a, g'.object? w = b at hobject hmember
  cases a with
  | none =>
    obtain rfl := Option.not_isSome_iff_eq_none.mp (Bool.eq_false_iff.mp hobject)
    exact .error _
  | some ms =>
    obtain ⟨ns, rfl⟩ := Option.isSome_iff_exists.mp hobject
    rw [Option.bind_some, Option.bind_some] at hmember
    dsimp only
    generalize ms.lookup key = a, ns.lookup key = b at hmember
    cases hmember with
    | none => exact .error _
    | some hab => exact .ok hab

include h

theorem union (hdiscriminator : ¬ off "discriminator") (honeOf : ¬ off "oneOf") :
    OutcomeRel (Union.Rel R) (g.union v) (g'.union w) := by
  unfold Graph.union
  refine (halike.require hdiscriminator).bind fun d d' hd => ?_
  rw [h.tree hd, h.map_tree_member? hd]
  have hobject := h.object? hd
  generalize g.object? d = a, g'.object? d' = b at hobject
  cases hobject with
  | none => exact .error _
  | some _ =>
    refine (halike.require honeOf).bind fun o o' ho => ?_
    refine (h.elements ho).bind fun vs ws hvs => ?_
    refine (h.branches _ 0 hvs).bind fun bs bs' hbs => ?_
    rw [h.unionMapping (h.get hd "mapping") hbs]
    cases g.unionMapping (g.get d "mapping") bs with
    | error e => exact .error e
    | ok mapping => exact .ok ⟨rfl, rfl, rfl, hbs⟩

/-! What a property is said to be depends on the members of its schema, each of which is read by a key of its
own, and on the flag. -/

variable (hoff : ∀ {key}, key ≠ "required" → ¬ off key)

include hoff

theorem plainType (spell : String → String) : g'.plainType spell w = g.plainType spell v := by
  have hget : ∀ {key}, key ≠ "required" → R (g.get v key) (g'.get w key) :=
    fun hkey => halike.get h (hoff hkey)
  have htype := fun s => halike.get_eq_scalar h (hoff (by decide : "type" ≠ "required")) s
  have hitems := hget (by decide : "items" ≠ "required")
  have hproperties := h.object?_getD (hget (by decide : "properties" ≠ "required"))
  unfold Graph.plainType
  simp only [htype, h.object?_isSome hitems, h.truthy (h.get hitems "type"), h.arrayType hitems,
    h.objectType spell hproperties, forall₂_isEmpty hproperties]

/-- The related type, the relations and unions being such that they describe one type. -/
theorem relatedType {dependency dependency' : Tree} (htruthy : dependency'.truthy = dependency.truthy)
    (htype : TypeExpr.ofTree spell unions' dependency' = TypeExpr.ofTree spell unions dependency) :
    g'.relatedType spell unions' w dependency' = g.relatedType spell unions v dependency := by
  have honeOf := halike.get h (hoff (by decide : "oneOf" ≠ "required"))
  unfold Graph.relatedType Graph.relatedExpr
  rw [h.alternativeNames (h.array?_getD honeOf), htruthy, htype, halike.plainType h hoff]

theorem property {dependency dependency' : Option Dependency}
    (hrelated : g'.relatedType spell unions' w ((dependency'.map Dependency.toTree).getD .null) =
      g.relatedType spell unions v ((dependency.map Dependency.toTree).getD .null)) :
    g'.property spell unions' key w dependency' = (g.property spell unions key v dependency).map
      fun p => { p with required := g'.get w "required" = .scalar (.bool true) } := by
  have hget : ∀ {key}, key ≠ "required" → R (g.get v key) (g'.get w key) :=
    fun hkey => halike.get h (hoff hkey)
  have henum := hget (by decide : "enum" ≠ "required")
  unfold Graph.property
  simp only [hrelated, h.listed henum, h.tree henum, map_bind_outcome, map_pure_outcome,
    h.ofListed (hget (by decide : "x-enum-key-attributes" ≠ "required")),
    h.tree (hget (by decide : "type" ≠ "required")),
    h.tree (hget (by decide : "default" ≠ "required")),
    h.tree (hget (by decide : "x-attribute-as" ≠ "required"))]

end AlikeBut

/-- A property is flagged as its schema is. -/
theorem map_property_required (v : Value) (dependency : Option Dependency) :
    ((g.property spell unions key v dependency).map fun p =>
      { p with required := g.get v "required" = .scalar (.bool true) }) =
      g.property spell unions key v dependency := by
  unfold Graph.property
  simp only [map_bind_outcome, map_pure_outcome]

namespace Mirrors

variable (h : Mirrors R g g') (hvw : R v w)

include h hvw

theorem union : OutcomeRel (Union.Rel R) (g.union v) (g'.union w) :=
  (h.alikeBut hvw).union h not_false not_false

/-- The related type, the relations and unions being such that they describe one type. -/
theorem relatedType {dependency dependency' : Tree} (htruthy : dependency'.truthy = dependency.truthy)
    (htype : TypeExpr.ofTree spell unions' dependency' = TypeExpr.ofTree spell unions dependency) :
    g'.relatedType spell unions' w dependency' = g.relatedType spell unions v dependency :=
  (h.alikeBut hvw).relatedType h (fun _ => not_false) htruthy htype

theorem property {dependency dependency' : Option Dependency}
    (hrelated : g'.relatedType spell unions' w ((dependency'.map Dependency.toTree).getD .null) =
      g.relatedType spell unions v ((dependency.map Dependency.toTree).getD .null)) :
    g'.property spell unions' key w dependency' = g.property spell unions key v dependency := by
  rw [(h.alikeBut hvw).property h (fun _ => not_false) hrelated]
  simp only [h.get_eq_scalar hvw]
  exact map_property_required v dependency

end Mirrors

end

end Graph

end ApiRecords
