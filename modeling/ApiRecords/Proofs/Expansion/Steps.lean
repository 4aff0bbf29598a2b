import ApiRecords.Proofs.Loading
import ApiRecords.Proofs.Outcome
import Mathlib.Logic.Relation

/-!
The expansion of a document one step at a time. A step counts a container as entered, finds the
target of a reference, or puts a copy in the place of one. References stay what they are until they
are replaced, and no copy is one.
-/

namespace ApiRecords

/-- The text of a value that is one. -/
def Value.text? : Value → Option String
  | .scalar (.text s) => some s
  | _ => none

namespace Graph

variable {g : Graph} {id : Nat} {slot : Slot} {u v w : Value} {n : Node} {ref : String}

theorem refText?_eq_members (g : Graph) (v : Value) :
    g.refText? v = ((g.members v).lookup refKey).bind Value.text? := by
  unfold refText? member? members
  cases g.object? v with
  | none => rfl
  | some members =>
    simp only [Option.bind_some, Option.getD_some]
    cases members.lookup refKey with
    | none => rfl
    | some w =>
      cases w with
      | node id => rfl
      | scalar s => cases s <;> rfl

theorem refText?_eq_at? (g : Graph) (v : Value) :
    g.refText? v = (g.at? v (.key refKey)).bind Value.text? := by
  rw [refText?_eq_members]
  unfold members object? at?
  cases g.node? v with
  | none => rfl
  | some n => cases n <;> rfl

theorem refText?_of_not_has (h : ¬ g.Has v) : g.refText? v = none := by
  rw [refText?_eq_at?]
  cases hat : g.at? v (.key refKey) with
  | none => rfl
  | some w => exact absurd (has_of_at? hat) h

theorem refText?_new (g : Graph) : g.refText? (.node g.size) = none :=
  refText?_of_not_has (Nat.lt_irrefl _)

theorem has_of_refText? (h : g.refText? v = some ref) : g.Has v := by
  rw [refText?_eq_at?] at h
  obtain ⟨w, hw, -⟩ := Option.bind_eq_some_iff.mp h
  exact has_of_at? hw

theorem has_of_object? (h : (g.object? v).isSome) : g.Has v := by
  unfold object? at h
  cases hn : g.node? v with
  | none => simp [hn] at h
  | some n => exact has_of_node? hn

theorem text?_of_refText? (h : g.refText? v = some ref) : v.text? = none := by
  cases v with
  | node id => rfl
  | scalar s => cases h

theorem at?_of_mem_members (hg : g.WellFormed) {m : String × Value} (h : m ∈ g.members v) :
    g.at? v (.key m.1) = some m.2 := by
  unfold members object? at h
  unfold at?
  cases hn : g.node? v with
  | none => simp [hn] at h
  | some n =>
    cases n with
    | array items => simp [hn] at h
    | object members => exact lookup_of_mem (hg.keys v _ hn) (by simpa [hn] using h)

theorem nodup_members (hg : g.WellFormed) (v : Value) : ((g.members v).map Prod.fst).Nodup := by
  unfold members object?
  cases hn : g.node? v with
  | none => simp
  | some n =>
    cases n with
    | array items => simp
    | object members => exact hg.keys v _ hn

/-- A graft in the place of a reference makes and unmakes no other. -/
theorem refText?_graft (hat : g.at? (.node id) slot = some u) (hu : g.refText? u = some ref)
    (hn : (n.at? (.key refKey)).bind Value.text? = none) (v : Value) :
    (g.graft id slot n).1.refText? v = g.refText? v := by
  obtain ⟨m, hm, hslot⟩ := Option.bind_eq_some_iff.mp hat
  rw [refText?_eq_at?, refText?_eq_at?]
  by_cases hself : v = .node id
  · subst hself
    simp only [at?, node?_graft_self hm, hm, Option.bind_some]
    by_cases hkey : slot = .key refKey
    · subst hkey
      rw [Node.at?_set_self hslot, hslot]
      simpa [Value.text?] using (text?_of_refText? hu).symm
    · rw [Node.at?_set_of_ne (Ne.symm hkey)]
  · by_cases hnew : v = .node g.size
    · subst hnew
      have hnone : g.node? (.node g.size) = none := by simp [node?, size]
      simp [at?, node?_graft_new (has_of_node? hm), hnone, hn]
    · simp only [at?, node?_graft_of_ne hself hnew]

end Graph

/-! ### Targets -/

namespace Document

variable {doc : Document} {v target : Value} {first ref : String} {hops : Nat} {seen : List String}

theorem object?_of_refText? (h : doc.graph.refText? v = some ref) :
    ∃ members, doc.graph.object? v = some members := by
  cases hobject : doc.graph.object? v with
  | none => simp [Graph.refText?, Graph.member?, hobject] at h
  | some members => exact ⟨members, rfl⟩

theorem chase_of_notMapping (h : doc.graph.object? v = none) :
    doc.chase first hops seen v = .error .notMapping := by
  unfold chase
  rw [h]
  rfl

theorem chase_of_plain {members : List (String × Value)} (h : doc.graph.object? v = some members)
    (hplain : doc.graph.refText? v = none) : doc.chase first hops seen v = .ok v := by
  unfold chase
  rw [h, hplain]
  rfl

theorem chase_of_ref (h : doc.graph.refText? v = some ref) :
    doc.chase first hops seen v =
      if ref ∈ seen then .error (.spec (.circularChain first))
      else match hops with
        | 0 => .error (.spec (.circularChain first))
        | hops + 1 =>
          (doc.resolve ref).mapError .spec >>= doc.chase first hops (ref :: seen) := by
  obtain ⟨members, hmembers⟩ := object?_of_refText? h
  conv => lhs; unfold chase
  rw [hmembers, h]
  by_cases hseen : ref ∈ seen
  · simp only [hseen, if_true]
    rfl
  · simp only [hseen, if_false]
    cases hops <;> rfl

/-- One reference of a chain: it is followed, unless the chain ends here. -/
theorem chase_cases (doc : Document) (first : String) (hops : Nat) (seen : List String) (v : Value) :
    (∃ e ≠ .endlessExpansion, doc.chase first hops seen v = .error e) ∨
      ((doc.graph.object? v).isSome ∧ doc.graph.refText? v = none ∧
        doc.chase first hops seen v = .ok v) ∨
      ∃ hops' ref, hops = hops' + 1 ∧ doc.chase first hops seen v =
        (doc.resolve ref).mapError .spec >>= doc.chase first hops' (ref :: seen) := by
  cases hobject : doc.graph.object? v with
  | none => exact .inl ⟨.notMapping, nofun, chase_of_notMapping hobject⟩
  | some members =>
    cases href : doc.graph.refText? v with
    | none => exact .inr (.inl ⟨rfl, rfl, chase_of_plain hobject href⟩)
    | some ref =>
      rw [chase_of_ref href]
      split
      · exact .inl ⟨.spec (.circularChain first), nofun, rfl⟩
      · cases hops with
        | zero => exact .inl ⟨.spec (.circularChain first), nofun, rfl⟩
        | succ hops => exact .inr (.inr ⟨hops, ref, rfl, rfl⟩)

theorem chase_ok (h : doc.chase first hops seen v = .ok target) :
    (doc.graph.object? target).isSome ∧ doc.graph.refText? target = none := by
  induction hops using Nat.strongRecOn generalizing seen v with
  | ind hops ih =>
    obtain ⟨e, -, heq⟩ | ⟨hobject, hplain, heq⟩ | ⟨hops', ref, rfl, heq⟩ :=
      chase_cases doc first hops seen v
    · cases heq.symm.trans h
    · cases heq.symm.trans h
      exact ⟨hobject, hplain⟩
    · obtain ⟨w, -, hw⟩ := (bind_ok_iff _ _ _).mp (heq.symm.trans h)
      exact ih hops' (Nat.lt_succ_self _) hw

theorem target_ok {ref : String} (h : doc.target ref = .ok target) :
    (doc.graph.object? target).isSome ∧ doc.graph.refText? target = none := by
  simp only [Document.target, bind_ok_iff] at h
  obtain ⟨v, -, h⟩ := h
  split at h
  · exact chase_ok h
  · simp at h

theorem chase_ne_endless (first : String) (hops : Nat)
    (seen : List String) : doc.chase first hops seen v ≠ .error .endlessExpansion := by
  induction hops using Nat.strongRecOn generalizing seen v with
  | ind hops ih =>
    obtain ⟨e, hne, heq⟩ | ⟨-, -, heq⟩ | ⟨hops', ref, rfl, heq⟩ := chase_cases doc first hops seen v
    · rw [heq]
      exact fun he => hne (Except.error.inj he)
    · rw [heq]
      nofun
    · rw [heq]
      cases doc.resolve ref with
      | error e => nofun
      | ok w => exact ih hops' (Nat.lt_succ_self _) _

theorem target_ne_endless (doc : Document) (ref : String) :
    doc.target ref ≠ .error .endlessExpansion := by
  unfold target
  cases doc.resolve ref with
  | error e => nofun
  | ok v =>
    cases h : doc.graph.object? v with
    | none => simp [h, Except.mapError, bind, Except.bind]; nofun
    | some members => simpa [h, Except.mapError, bind, Except.bind] using chase_ne_endless ref _ _

/-! ### Marks -/

/-- A mark changes neither which containers there are nor where their values lead. -/
theorem WellFormed.stamp {marked : Document} {v2 : Bool} (h : doc.WellFormed)
    (hs : doc.stamp v2 = .ok marked) : marked.WellFormed := by
  simp only [Document.stamp, bind_ok_iff, pure_ok_iff] at hs
  obtain ⟨definitions, -, rfl⟩ := hs
  apply List.foldlRecOn definitions _ (motive := fun g => Document.WellFormed ⟨g, doc.root⟩) h
  intro g hg definition _
  obtain ⟨name, v⟩ := definition
  dsimp only
  split
  · split
    · exact hg
    · exact ⟨hg.graph.setSlot _ _ trivial, Graph.has_of_size hg.root (by simp)⟩
  · exact hg

end Document

namespace Graph

/-- The values of which only references may give way to others. -/
def Kept (g : Graph) (v w : Value) : Prop := g.refText? v = none → w = v

theorem Kept.refl (g : Graph) (v : Value) : g.Kept v v := fun _ => rfl

theorem Kept.trans {g : Graph} {u v w : Value} (h : g.Kept u v) (h' : g.Kept v w) : g.Kept u w := by
  intro hu
  obtain rfl := h hu
  exact h' hu

end Graph

namespace Expansion

variable {ref : String} {target v : Value} {t b t' b' : List (String × Value)}

/-! ### Copies -/

theorem lookup_merged_refKey : (merged ref t b).lookup refKey = t.lookup refKey := by
  have hne : refKey ≠ keptRefKey := by decide
  rw [merged, lookup_putMember_of_ne hne, lookup_putMembers]
  intro m hm
  simpa using (List.mem_filter.mp hm).2

theorem nodup_merged (h : (t.map Prod.fst).Nodup) : ((merged ref t b).map Prod.fst).Nodup :=
  nodup_putMember (nodup_putMembers h) _ _

theorem mem_merged {m : String × Value} (h : m ∈ merged ref t b) :
    m.2 = .scalar (.text ref) ∨ ∃ m', (m' ∈ t ∨ m' ∈ b) ∧ m'.2 = m.2 := by
  cases mem_putBy h with
  | inl h => exact .inl h
  | inr h =>
    cases mem_putMembers h with
    | inl h => exact .inr ⟨m, .inl h, rfl⟩
    | inr h =>
      obtain ⟨m', hm', heq⟩ := h
      exact .inr ⟨m', .inr (List.mem_of_mem_filter hm'), heq⟩

theorem membersRel_merged {R : Value → Value → Prop} (hscalar : ∀ s, R (.scalar s) (.scalar s))
    (ht : MembersRel R t t') (hb : MembersRel R b b') :
    MembersRel R (merged ref t b) (merged ref t' b') :=
  (ht.putMembers (hb.filterKeys fun key => key ≠ refKey)).putMember keptRefKey (hscalar _)

/-! ### Steps -/

inductive Step : Expansion → Expansion → Prop
  | mark {x id} : id < x.doc.graph.size → Step x (x.mark id)
  | find {x v ref target} : x.doc.graph.refText? v = some ref → x.targets.lookup ref = none →
      x.doc.target ref = .ok target → Step x { x with targets := (ref, target) :: x.targets }
  | replace {x id slot v ref target} : x.doc.graph.at? (.node id) slot = some v →
      x.doc.graph.refText? v = some ref → x.targets.lookup ref = some target →
      Step x (x.replaceRef id slot ref target v).2

abbrev Steps : Expansion → Expansion → Prop := Relation.ReflTransGen Step

/-- What holds of every state in the expansion of a document. -/
structure Valid (origin : Document) (x : Expansion) : Prop where
  wellFormed : x.doc.graph.WellFormed
  root : x.doc.root = origin.root
  size : origin.graph.size ≤ x.doc.graph.size
  refText? : ∀ v, x.doc.graph.refText? v = origin.graph.refText? v
  entered : ∀ id ∈ x.entered, id < x.doc.graph.size
  target : ∀ ref target, x.targets.lookup ref = some target →
    x.doc.graph.Has target ∧ origin.graph.refText? target = none
  found : ∀ ref target, x.targets.lookup ref = some target → ∃ v, origin.graph.refText? v = some ref

variable {origin : Document} {x x' y : Expansion} {id : Nat} {slot : Slot}

theorem valid_start (h : origin.WellFormed) : Valid origin ⟨origin, [], []⟩ where
  wellFormed := h.graph
  root := rfl
  size := Nat.le_refl _
  refText? _ := rfl
  entered _ h := by simp at h
  target _ _ h := by simp at h
  found _ _ h := by simp at h

theorem graph_replaceRef (x : Expansion) (id : Nat) (slot : Slot) (ref : String) (target v : Value) :
    (x.replaceRef id slot ref target v).2.doc.graph =
      (x.doc.graph.graft id slot (.object (x.copyMembers ref target v))).1 := rfl

@[simp] theorem size_replaceRef (x : Expansion) (id : Nat) (slot : Slot) (ref : String)
    (target v : Value) :
    (x.replaceRef id slot ref target v).2.doc.graph.size = x.doc.graph.size + 1 := by
  rw [graph_replaceRef, Graph.size_graft]

theorem has_replaceRef (x : Expansion) (id : Nat) (slot : Slot) (ref : String) (target v : Value) :
    (x.replaceRef id slot ref target v).2.doc.graph.Has (.node x.doc.graph.size) := by
  rw [Graph.Has, size_replaceRef]
  exact Nat.lt_succ_self _

theorem text?_copyMembers (h : x.doc.graph.refText? target = none) :
    ((Node.object (x.copyMembers ref target v)).at? (.key refKey)).bind Value.text? = none := by
  rw [copyMembers, Node.at?, lookup_merged_refKey, ← Graph.refText?_eq_members, h]

theorem has_copyMembers (hg : x.doc.graph.WellFormed) {w : Value}
    (h : (Node.object (x.copyMembers ref target v)).at? slot = some w) : x.doc.graph.Has w := by
  cases slot with
  | index i => simp [Node.at?] at h
  | key k =>
    cases mem_merged (mem_of_lookup h) with
    | inl h => rw [show w = _ from h]; trivial
    | inr h =>
      obtain ⟨m, hm' | hm', rfl⟩ := h
      · exact hg.values _ _ _ (Graph.at?_of_mem_members hg hm')
      · exact hg.values _ _ _ (Graph.at?_of_mem_members hg hm')

theorem Valid.step (h : Valid origin x) (hs : Step x x') : Valid origin x' := by
  cases hs with
  | @mark id hid =>
    exact { h with entered := fun j hj => (List.mem_cons.mp hj).elim (fun e => e ▸ hid) (h.entered j) }
  | @find v ref target href hnone htarget =>
    obtain ⟨hobject, hplain⟩ := Document.target_ok htarget
    refine { h with target := fun r t hr => ?_, found := fun r t hr => ?_ }
    · cases lookup_cons_cases hr with
      | inl heq =>
        obtain ⟨rfl, rfl⟩ := heq
        exact ⟨Graph.has_of_object? hobject, (h.refText? t).symm.trans hplain⟩
      | inr hr => exact h.target r t hr
    · cases lookup_cons_cases hr with
      | inl heq =>
        obtain ⟨rfl, rfl⟩ := heq
        exact ⟨v, (h.refText? v).symm.trans href⟩
      | inr hr => exact h.found r t hr
  | @replace id slot v ref target hat href hlookup =>
    have hplain : x.doc.graph.refText? target = none :=
      (h.refText? target).trans (h.target ref target hlookup).2
    exact {
      wellFormed := h.wellFormed.graft id slot
        (nodup_merged (Graph.nodup_members h.wellFormed target)) fun _ _ => has_copyMembers h.wellFormed
      root := h.root
      size := by
        rw [size_replaceRef]
        exact Nat.le_succ_of_le h.size
      refText? := fun w => (Graph.refText?_graft hat href (text?_copyMembers hplain) w).trans (h.refText? w)
      entered := by
        intro j hj
        rw [size_replaceRef]
        exact Nat.lt_succ_of_lt (h.entered j hj)
      target := by
        intro r t hr
        exact ⟨Graph.has_graft (h.target r t hr).1 id slot _, (h.target r t hr).2⟩
      found := h.found }

theorem Valid.steps (h : Valid origin x) (hs : Steps x x') : Valid origin x' := by
  induction hs with
  | refl => exact h
  | tail _ hstep ih => exact ih.step hstep

/-- What a step leaves of the containers there are: all but references in their slots. -/
theorem Step.node? (hs : Step x x') {n : Node} (hn : x.doc.graph.node? v = some n) :
    ∃ n', x'.doc.graph.node? v = some n' ∧ n.Rel x.doc.graph.Kept n' := by
  cases hs with
  | mark hid => exact ⟨n, hn, .refl (Graph.Kept.refl _) n⟩
  | find href hnone htarget => exact ⟨n, hn, .refl (Graph.Kept.refl _) n⟩
  | @replace id slot w ref target hat href hlookup =>
    have hkept : x.doc.graph.Kept w (.node x.doc.graph.size) := fun h => by simp [href] at h
    exact Graph.rel_graft (Graph.Kept.refl _) hat hkept _ hn

theorem Valid.kept (h : Valid origin x) : x.doc.graph.Kept = origin.graph.Kept := by
  funext v w
  simp only [Graph.Kept, h.refText?]

theorem Valid.node?_steps (h : Valid origin x) (hs : Steps x x') {n : Node}
    (hn : x.doc.graph.node? v = some n) :
    ∃ n', x'.doc.graph.node? v = some n' ∧ n.Rel origin.graph.Kept n' := by
  induction hs with
  | refl => exact ⟨n, hn, .refl (Graph.Kept.refl _) n⟩
  | tail hsteps hstep ih =>
    obtain ⟨m, hm, hrel⟩ := ih
    obtain ⟨m', hm', hrel'⟩ := hstep.node? hm
    rw [(h.steps hsteps).kept] at hrel'
    exact ⟨m', hm', hrel.trans (fun _ _ _ h h' => h.trans h') hrel'⟩

end Expansion

end ApiRecords
