import ApiRecords.Proofs.Expansion.Chains

/-!
How chains of references end. Following one has an end without any bound on its length: at a mapping that is
no reference, at something that cannot be followed, or at a reference that was followed before. The last is
the case of the chains that go on for ever, and of no others.
-/

namespace ApiRecords

namespace Document

/-- Following a chain of references as far as it takes, without a bound. `seen` are the references followed
so far. -/
inductive Ends (doc : Document) (first : String) :
    List String → Value → Except Fault Value → Prop
  | notMapping {seen v} : doc.graph.object? v = none → Ends doc first seen v (.error .notMapping)
  | plain {seen v} : (doc.graph.object? v).isSome → doc.graph.refText? v = none →
      Ends doc first seen v (.ok v)
  | again {seen v ref} : doc.graph.refText? v = some ref → ref ∈ seen →
      Ends doc first seen v (.error (.spec (.circularChain first)))
  | unresolved {seen v ref fault} : doc.graph.refText? v = some ref → ref ∉ seen →
      doc.resolve ref = .error fault → Ends doc first seen v (.error (.spec fault))
  | hop {seen v ref w r} : doc.graph.refText? v = some ref → ref ∉ seen → doc.resolve ref = .ok w →
      Ends doc first (ref :: seen) w r → Ends doc first seen v r

/-- A chain of references that goes on for ever. -/
def Endless (doc : Document) (v : Value) : Prop :=
  ∃ chain : Nat → Value, chain 0 = v ∧ ∀ n, doc.Hop (chain n) (chain (n + 1))

variable {doc : Document} {u v w : Value} {first ref : String} {hops : Nat} {seen : List String}
  {r : Except Fault Value}

/-! ### Endless chains -/

theorem Endless.hop (h : doc.Endless w) (hhop : doc.Hop v w) : doc.Endless v := by
  obtain ⟨chain, rfl, hchain⟩ := h
  refine ⟨fun n => n.casesOn v chain, rfl, fun n => ?_⟩
  cases n with
  | zero => exact hhop
  | succ n => exact hchain n

theorem Endless.tail (h : doc.Endless v) (hhop : doc.Hop v w) : doc.Endless w := by
  obtain ⟨chain, rfl, hhops⟩ := h
  obtain rfl := hhop.unique (hhops 0)
  exact ⟨fun n => chain (n + 1), rfl, fun n => hhops (n + 1)⟩

theorem Endless.exists_hop (h : doc.Endless v) : ∃ w, doc.Hop v w := by
  obtain ⟨chain, rfl, hhops⟩ := h
  exact ⟨chain 1, hhops 0⟩

/-- A chain that goes on from all that it comes to is endless. -/
theorem endless_of_exists_hop (h : ∀ w, doc.Chain v w → ∃ u, doc.Hop w u) : doc.Endless v := by
  choose next hnext using fun w : { w // doc.Chain v w } => h w.1 w.2
  let step : { w // doc.Chain v w } → { w // doc.Chain v w } := fun w => ⟨next w, w.2.tail (hnext w)⟩
  refine ⟨fun n => (step^[n] ⟨v, .refl⟩).1, rfl, fun n => ?_⟩
  dsimp only
  rw [Function.iterate_succ_apply']
  exact hnext _

/-! ### Following to the end -/

/-- Following a chain has an end, and it is not for want of hops that it ends. -/
theorem Following.ends (h : doc.Following first hops seen v) :
    doc.Ends first seen v (doc.chase first hops seen v) := by
  induction hops using Nat.strong_induction_on generalizing seen v with
  | h hops ih =>
    cases hobject : doc.graph.object? v with
    | none =>
      rw [chase_of_notMapping hobject]
      exact .notMapping hobject
    | some members =>
      cases href : doc.graph.refText? v with
      | none =>
        rw [chase_of_plain hobject href]
        exact .plain (by rw [hobject]; rfl) href
      | some ref =>
        rw [chase_of_ref href]
        by_cases hseen : ref ∈ seen
        · rw [if_pos hseen]
          exact .again href hseen
        · obtain ⟨left, rfl⟩ := h.exists_left href hseen
          rw [if_neg hseen]
          cases hresolve : doc.resolve ref with
          | error fault => exact .unresolved href hseen hresolve
          | ok w =>
            exact .hop href hseen hresolve (ih left (Nat.lt_succ_self left) (h.step href hseen hresolve))

/-- No fault of looking up a reference is taken for a circular chain. -/
theorem resolve_ne_circularChain (doc : Document) (ref first : String) :
    doc.resolve ref ≠ .error (.circularChain first) := by
  unfold resolve
  split
  · nofun
  · split <;> nofun

/-- A chain that goes on for ever comes to a reference that was followed before. -/
theorem Ends.eq_circularChain (h : doc.Ends first seen v r) (hendless : doc.Endless v) :
    r = .error (.spec (.circularChain first)) := by
  induction h with
  | @notMapping _ v hobject =>
    obtain ⟨u, hhop⟩ := hendless.exists_hop
    exact absurd hhop (not_hop_of_object? hobject)
  | @plain _ v _ hplain =>
    obtain ⟨u, ref, href, -⟩ := hendless.exists_hop
    cases hplain.symm.trans href
  | again => rfl
  | @unresolved _ v ref fault href _ hresolve =>
    obtain ⟨u, ref', href', hresolve'⟩ := hendless.exists_hop
    obtain rfl := Option.some.inj (href.symm.trans href')
    cases hresolve.symm.trans hresolve'
  | @hop _ v ref w _ href _ hresolve _ ih => exact ih (hendless.tail ⟨ref, href, hresolve⟩)

/-- A chain found circular goes on for ever, where it leads on from all that was followed. -/
theorem Ends.endless (h : doc.Ends first seen v (.error (.spec (.circularChain first))))
    (hbehind : ∀ ref ∈ seen, ∃ u, doc.resolve ref = .ok u ∧ doc.Chain u v) : doc.Endless v := by
  generalize hr : Except.error (Fault.spec (.circularChain first)) = r at h
  induction h with
  | notMapping => cases hr
  | plain => cases hr
  | @again seen v ref href hseen =>
    obtain ⟨u, hresolve, hchain⟩ := hbehind ref hseen
    have hcycle : Relation.TransGen doc.Hop v v :=
      Relation.TransGen.head' ⟨ref, href, hresolve⟩ hchain
    exact endless_of_exists_hop fun w hw => Chain.hop_of_cycle hw hcycle
  | @unresolved _ v ref fault _ _ hresolve =>
    obtain rfl : SpecFault.circularChain first = fault := Fault.spec.inj (Except.error.inj hr)
    exact absurd hresolve (resolve_ne_circularChain doc ref first)
  | @hop seen v ref w _ href _ hresolve _ ih =>
    refine (ih (List.forall_mem_cons.mpr ⟨⟨w, hresolve, .refl⟩, fun ref' href' => ?_⟩) hr).hop
      ⟨ref, href, hresolve⟩
    obtain ⟨u, hu, hchain⟩ := hbehind ref' href'
    exact ⟨u, hu, hchain.tail ⟨ref, href, hresolve⟩⟩

/-- A chain that ends is one that leads to where it ends. -/
theorem Ends.chain {t : Value} (h : doc.Ends first seen v (.ok t)) :
    doc.Chain v t ∧ (doc.graph.object? t).isSome ∧ doc.graph.refText? t = none := by
  generalize hr : Except.ok t = r at h
  induction h with
  | notMapping => cases hr
  | @plain _ v hobject hplain =>
    obtain rfl := Except.ok.inj hr
    exact ⟨.refl, hobject, hplain⟩
  | again => cases hr
  | unresolved => cases hr
  | @hop _ v ref w _ href _ hresolve _ ih =>
    obtain ⟨hchain, hend⟩ := ih hr
    exact ⟨.head ⟨ref, href, hresolve⟩ hchain, hend⟩

theorem Ends.unique {r' : Except Fault Value} (h : doc.Ends first seen v r)
    (h' : doc.Ends first seen v r') : r = r' := by
  induction h with
  | notMapping hobject => cases h' <;> simp_all [Graph.refText?, Graph.member?]
  | plain hobject hplain => cases h' <;> simp_all
  | again href hseen => cases h' <;> simp_all [Graph.refText?, Graph.member?]
  | unresolved href hseen hresolve => cases h' <;> simp_all [Graph.refText?, Graph.member?]
  | hop href hseen hresolve _ ih => cases h' <;> simp_all [Graph.refText?, Graph.member?]

theorem target_eq_chase (hresolve : doc.resolve ref = .ok u) (hobject : (doc.graph.object? u).isSome) :
    doc.target ref = doc.chase ref doc.graph.size [ref] u := by
  obtain ⟨members, hmembers⟩ := Option.isSome_iff_exists.mp hobject
  unfold target
  rw [hresolve]
  simp only [Except.mapError, bind, Except.bind, hmembers]

theorem ends_target (hresolve : doc.resolve ref = .ok u) (hobject : (doc.graph.object? u).isSome) :
    doc.Ends ref [ref] u (doc.target ref) :=
  target_eq_chase hresolve hobject ▸ (following_start hresolve).ends

/-- A reference that does not lead to a mapping is refused, and as no circular chain. -/
theorem target_cases (doc : Document) (ref : String) :
    (∃ fault, doc.target ref = .error (.spec fault) ∧ fault ≠ .circularChain ref) ∨
      ∃ u, doc.resolve ref = .ok u ∧ (doc.graph.object? u).isSome := by
  unfold target
  cases hresolve : doc.resolve ref with
  | error fault =>
    exact .inl ⟨fault, rfl, fun h => resolve_ne_circularChain doc ref ref (h ▸ hresolve)⟩
  | ok u =>
    cases hobject : doc.graph.object? u with
    | none =>
      simp only [Except.mapError, bind, Except.bind, hobject]
      exact .inl ⟨.notSchema ref, rfl, nofun⟩
    | some members => exact .inr ⟨u, rfl, by rw [hobject]; rfl⟩

theorem object?_of_hop (h : doc.Hop v w) : (doc.graph.object? v).isSome := by
  obtain ⟨ref, href, -⟩ := h
  obtain ⟨members, hmembers⟩ := object?_of_refText? href
  rw [hmembers]
  rfl

/-- The target of a reference is the mapping that its chain ends at. -/
theorem target_ok_iff (href : doc.graph.refText? v = some ref) {t : Value} :
    doc.target ref = .ok t ↔
      doc.Chain v t ∧ (doc.graph.object? t).isSome ∧ doc.graph.refText? t = none := by
  constructor
  · intro htarget
    rcases target_cases doc ref with ⟨fault, hfault, -⟩ | ⟨u, hresolve, hobject⟩
    · cases hfault.symm.trans htarget
    · obtain ⟨hchain, hend⟩ := (htarget ▸ ends_target hresolve hobject).chain
      exact ⟨.head ⟨ref, href, hresolve⟩ hchain, hend⟩
  · rintro ⟨hchain, hobject, hplain⟩
    have hend : ∀ w, ¬ doc.Hop t w := by
      rintro w ⟨ref', href', -⟩
      cases hplain.symm.trans href'
    rcases hchain.cases_head with rfl | ⟨u, hhop, hchain⟩
    · cases hplain.symm.trans href
    · obtain ⟨ref', href', hresolve⟩ := hhop
      obtain rfl := Option.some.inj (href.symm.trans href')
      have hmapping : (doc.graph.object? u).isSome := by
        rcases hchain.cases_head with rfl | ⟨_, hhop, -⟩
        · exact hobject
        · exact object?_of_hop hhop
      obtain ⟨hops, seen, -, hchase⟩ := (following_start hresolve).chain hchain hend
      obtain ⟨members, hmembers⟩ := Option.isSome_iff_exists.mp hobject
      rw [target_eq_chase hresolve hmapping, hchase, chase_of_plain hmembers hplain]

/-- A reference is refused for its circular chain exactly if the chain goes on for ever. -/
theorem target_circular_iff (href : doc.graph.refText? v = some ref) :
    doc.target ref = .error (.spec (.circularChain ref)) ↔ doc.Endless v := by
  constructor
  · intro htarget
    rcases target_cases doc ref with ⟨fault, hfault, hne⟩ | ⟨u, hresolve, hobject⟩
    · exact absurd (Fault.spec.inj (Except.error.inj (hfault.symm.trans htarget))) hne
    · refine (Ends.endless (htarget ▸ ends_target hresolve hobject) ?_).hop ⟨ref, href, hresolve⟩
      intro ref' href'
      obtain rfl := List.mem_singleton.mp href'
      exact ⟨u, hresolve, .refl⟩
  · intro hendless
    obtain ⟨u, ref', href', hresolve⟩ := hendless.exists_hop
    obtain rfl := Option.some.inj (href.symm.trans href')
    have hrest : doc.Endless u := hendless.tail ⟨ref, href, hresolve⟩
    obtain ⟨w, hhop⟩ := hrest.exists_hop
    exact (ends_target hresolve (object?_of_hop hhop)).eq_circularChain hrest

end Document

/-! ### References settled for the first time -/

namespace Expansion

variable {x : Expansion} {v : Value} {ref : String}

/-- The target found for a reference is kept for the next ones. -/
def found (x : Expansion) (ref : String) (target : Value) : Expansion :=
  { x with targets := (ref, target) :: x.targets }

theorem settle_of_new (href : x.doc.graph.refText? v = some ref) (hnew : x.targets.lookup ref = none)
    (id : Nat) (slot : Slot) :
    x.settle id slot v =
      (x.doc.target ref).map fun target => (x.found ref target).replaceRef id slot ref target v := by
  simp only [settle, targetOf, href, hnew]
  cases x.doc.target ref <;> rfl

/-- A reference that is met for the first time, at any stage. Following its chain has an end, whatever the
document. If the chain leads by mappings to one that is no reference, then this and nothing else takes the
reference's place; and the chain is refused as circular exactly if it goes on for ever. -/
theorem settle_new_iff (href : x.doc.graph.refText? v = some ref) (hnew : x.targets.lookup ref = none)
    (id : Nat) (slot : Slot) :
    (∀ u, x.doc.resolve ref = .ok u → (x.doc.graph.object? u).isSome →
      ∀ r, x.doc.Ends ref [ref] u r ↔ x.doc.target ref = r) ∧
    (∀ result, x.settle id slot v = .ok result ↔
      ∃ t, x.doc.Chain v t ∧ (x.doc.graph.object? t).isSome ∧ x.doc.graph.refText? t = none ∧
        result = (x.found ref t).replaceRef id slot ref t v) ∧
    (x.settle id slot v = .error (.spec (.circularChain ref)) ↔ x.doc.Endless v) := by
  refine ⟨fun u hresolve hobject r => ⟨fun h => ?_, fun h => ?_⟩, fun result => ?_, ?_⟩
  · exact (Document.ends_target hresolve hobject).unique h
  · exact h ▸ Document.ends_target hresolve hobject
  · rw [settle_of_new href hnew, map_ok_iff]
    simp only [Document.target_ok_iff href, and_assoc, eq_comm]
  · rw [settle_of_new href hnew, map_error_iff, Document.target_circular_iff href]

/-- An alias of an alias, and one of two definitions that are nothing but each other. -/
def aliases : Document :=
  let ref (target : String) : Tree := .object [("$ref", .text target)]
  .ofTree (.object [
    ("Nickname", ref "#/Title"), ("Title", ref "#/Name"), ("Name", .object [("type", .text "string")]),
    ("Outer", ref "#/Chicken"), ("Chicken", ref "#/Egg"), ("Egg", ref "#/Chicken")])

theorem settle_new_iff_aliases :
    let x : Expansion := ⟨aliases, [], []⟩
    (aliases.graph.refText? (.node 1) = some "#/Title" ∧ aliases.graph.refText? (.node 4) = some "#/Chicken" ∧
      x.targets.lookup "#/Title" = none ∧ x.targets.lookup "#/Chicken" = none) ∧
    x.settle 0 (.key "Nickname") (.node 1) =
      .ok ((x.found "#/Title" (.node 3)).replaceRef 0 (.key "Nickname") "#/Title" (.node 3) (.node 1)) ∧
    aliases.Endless (.node 4) ∧
    aliases.Ends "#/Chicken" ["#/Chicken"] (.node 5) (.error (.spec (.circularChain "#/Chicken"))) := by
  intro x
  obtain ⟨-, hsettle, -⟩ :=
    @settle_new_iff x (.node 1) "#/Title" rfl rfl 0 (.key "Nickname")
  obtain ⟨hends, -, hcircular⟩ :=
    @settle_new_iff x (.node 4) "#/Chicken" rfl rfl 0 (.key "Outer")
  have hchain : aliases.Chain (.node 1) (.node 3) :=
    .head ⟨"#/Title", rfl, rfl⟩ (.head ⟨"#/Name", rfl, rfl⟩ .refl)
  exact ⟨⟨rfl, rfl, rfl, rfl⟩, (hsettle _).mpr ⟨_, hchain, rfl, rfl, rfl⟩, hcircular.mp rfl,
    (hends _ rfl rfl _).mpr rfl⟩

end Expansion

end ApiRecords
