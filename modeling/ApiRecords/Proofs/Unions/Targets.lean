import ApiRecords.Proofs.Unions.Resolution
import Mathlib.Algebra.BigOperators.Group.List.Basic
import Mathlib.Algebra.Ring.Nat

/-!
Which alternatives the values of the property select. What is checked is that each entry of a mapping
refers to one alternative: whether each alternative has one entry is a matter of their numbers.
-/

namespace ApiRecords

/-! ### Counting both ways -/

section

variable {α β : Type}

theorem countP_eq_sum (p : α → Bool) (as : List α) :
    as.countP p = (as.map fun a => if p a then 1 else 0).sum := by
  induction as with
  | nil => rfl
  | cons a as ih => rw [List.countP_cons, List.map_cons, List.sum_cons, ih, Nat.add_comm]

theorem sum_countP_comm (rel : α → β → Bool) (as : List α) (bs : List β) :
    (as.map fun a => bs.countP (rel a)).sum = (bs.map fun b => as.countP (rel · b)).sum := by
  induction as with
  | nil => simp
  | cons a as ih =>
    rw [List.map_cons, List.sum_cons, ih, countP_eq_sum (rel a) bs, ← List.sum_map_add]
    simp only [List.countP_cons, Nat.add_comm]

theorem all_one_iff {ns : List Nat} :
    (∀ n ∈ ns, n = 1) ↔ ns.sum = ns.length ∧ ∀ n ∈ ns, n ≠ 0 := by
  induction ns with
  | nil => simp
  | cons n ns ih =>
    simp only [List.forall_mem_cons, ih, List.sum_cons, List.length_cons]
    constructor
    · rintro ⟨rfl, hsum, hne⟩
      exact ⟨by omega, by omega, hne⟩
    · rintro ⟨hsum, hn, hne⟩
      have hle : ns.length ≤ ns.sum :=
        List.length_le_sum_of_one_le ns fun m hm => Nat.one_le_iff_ne_zero.mpr (hne m hm)
      exact ⟨by omega, by omega, hne⟩

/-- Where each of `bs` belongs to one of `as`, one of them belongs to each of `as` just when there are as
many, and none of `as` is left out. -/
theorem countP_one_iff {rel : α → β → Bool} {as : List α} {bs : List β}
    (h : ∀ b ∈ bs, as.countP (rel · b) = 1) :
    (∀ a ∈ as, bs.countP (rel a) = 1) ↔
      bs.length = as.length ∧ ∀ a ∈ as, bs.countP (rel a) ≠ 0 := by
  have hsum : (as.map fun a => bs.countP (rel a)).sum = bs.length := by
    rw [sum_countP_comm, List.map_congr_left h, List.map_const', List.sum_replicate_nat, Nat.mul_one]
  have hiff := @all_one_iff (as.map fun a => bs.countP (rel a))
  simpa only [List.forall_mem_map, List.length_map, hsum] using hiff

end

namespace Graph

variable {g : Graph} {v : Value} {items : List Value} {branches : List Branch}

theorem entries_of_unionMapping {mapping : Value} {targets : List (Scalar × String)}
    (htruthy : g.truthy mapping) (h : g.unionMapping mapping branches = .ok targets) :
    ∃ entries, g.object? mapping = some entries := by
  cases hobject : g.object? mapping with
  | none => simp [unionMapping, htruthy, hobject] at h
  | some entries => exact ⟨entries, rfl⟩

/-- Without entries no branch is lost, as long as names that count as the same key are shown alike. -/
theorem mem_values_unionMapping {mapping : Value} {targets : List (Scalar × String)}
    (hnot : ¬ g.truthy mapping) (hshown : ShownAlike (branches.map (·.name)))
    (hentities : ∀ b ∈ branches, b.entityName = entityName b.name)
    (h : g.unionMapping mapping branches = .ok targets) :
    ∀ b ∈ branches, b.entityName ∈ targets.map (·.2) := by
  rw [unionMapping, if_neg hnot] at h
  -- Each entry belongs to the first branch with its key. Later ones only bring the same value again.
  suffices hboth : (∀ m ∈ targets, ∃ b ∈ branches, b.name = .scalar m.1 ∧ m.2 = b.entityName) ∧
      ∀ b ∈ branches, b.entityName ∈ targets.map (·.2) from hboth.2
  induction branches using List.reverseRecOn generalizing targets with
  | nil =>
    obtain rfl := Except.ok.inj h
    simp
  | append_singleton before b ih =>
    simp only [List.foldlM_append, List.foldlM_cons, List.foldlM_nil, bind_ok_iff, pure_ok_iff] at h
    obtain ⟨acc, hacc, _, ⟨key, hkey, rfl⟩, rfl⟩ := h
    have hname : b.name = .scalar key := key?_eq_ok hkey
    have hmem : ∀ c ∈ before, c ∈ before ++ [b] := fun c hc => List.mem_append_left _ hc
    have hlast : b ∈ before ++ [b] := List.mem_append_right _ (List.mem_singleton_self b)
    have hnames : ∀ t ∈ before.map (·.name), t ∈ (before ++ [b]).map (·.name) :=
      fun _ ht => List.map_subset _ hmem ht
    obtain ⟨howned, hvalues⟩ := ih (fun s hs t ht => hshown s (hnames s hs) t (hnames t ht))
      (fun c hc => hentities c (hmem c hc)) hacc
    have hkept : ∀ m ∈ acc, Scalar.same m.1 key → m.2 = b.entityName := by
      intro m hm hsame
      obtain ⟨c, hc, hcname, hcvalue⟩ := howned m hm
      have hshow : c.name.display = b.name.display :=
        hshown _ (List.mem_map_of_mem (hmem c hc)) _ (List.mem_map_of_mem hlast)
          (by simpa [hcname, hname, Tree.same] using hsame)
      rw [hcvalue, hentities c (hmem c hc), hentities b hlast, entityName, entityName, hshow]
    rw [putBy_of_kept hkept]
    split
    · rename_i hany
      obtain ⟨m, hm, hsame⟩ := List.any_eq_true.mp hany
      refine ⟨fun m hm => ?_, fun c hc => ?_⟩
      · obtain ⟨c, hc, hcname, hcvalue⟩ := howned m hm
        exact ⟨c, hmem c hc, hcname, hcvalue⟩
      · rcases List.mem_append.mp hc with hc | hc
        · exact hvalues c hc
        · rw [List.mem_singleton.mp hc, ← hkept m hm hsame]
          exact List.mem_map_of_mem hm
    · refine ⟨fun m hm => ?_, fun c hc => ?_⟩
      · rcases List.mem_append.mp hm with hm | hm
        · obtain ⟨c, hc, hcname, hcvalue⟩ := howned m hm
          exact ⟨c, hmem c hc, hcname, hcvalue⟩
        · rw [List.mem_singleton.mp hm]
          exact ⟨b, hlast, hname, rfl⟩
      · rw [List.map_append]
        rcases List.mem_append.mp hc with hc | hc
        · exact List.mem_append_left _ (hvalues c hc)
        · rw [List.mem_singleton.mp hc]
          exact List.mem_append_right _ (List.mem_singleton_self _)

/-- How many entries of a mapping refer to a schema. -/
def entryCount (g : Graph) (entries : List (String × Value)) (w : Value) : Nat :=
  entries.countP fun e => g.refersTo (g.tree e.2) w

/-- Each entry selects the one alternative that it refers to. An alternative is selected just when it, or
another one with the name of its model, has an entry, and each of them has one entry just when none is
without and there are as many entries as alternatives. Without entries each alternative is selected, as
long as names that count as the same key are shown alike, as texts are. -/
theorem union_selects {u : Union} (h : g.union v = .ok u) :
    ∃ items, g.elements (g.get v "oneOf") = .ok items ∧ u.branches = items.map g.branchOf ∧
      (g.truthy (g.get (g.get v "discriminator") "mapping") →
        ∃ entries, g.object? (g.get (g.get v "discriminator") "mapping") = some entries ∧
          List.Forall₂ (g.Selects items) entries u.mapping ∧
          (∀ w ∈ items, entityName (g.modelName w) ∈ u.mapping.map (·.2) ↔
            ∃ w' ∈ items, entityName (g.modelName w') = entityName (g.modelName w) ∧
              g.entryCount entries w' ≠ 0) ∧
          ((∀ w ∈ items, g.entryCount entries w = 1) ↔
            entries.length = items.length ∧ ∀ w ∈ items, g.entryCount entries w ≠ 0)) ∧
      (¬ g.truthy (g.get (g.get v "discriminator") "mapping") →
        ShownAlike (items.map g.modelName) →
          ∀ w ∈ items, entityName (g.modelName w) ∈ u.mapping.map (·.2)) := by
  obtain ⟨_, items, -, hitems, hbranches, hmapping⟩ := union_ok h
  obtain ⟨-, hbranches⟩ := branches_ok_iff.mp hbranches
  rw [hbranches] at hmapping
  refine ⟨items, hitems, hbranches, fun htruthy => ?_, fun hnot hshown => ?_⟩
  · obtain ⟨entries, hentries⟩ := entries_of_unionMapping htruthy hmapping
    have htargets := (unionMapping_selects_iff htruthy hentries).mp hmapping
    refine ⟨entries, hentries, htargets, fun w hw => ⟨fun hvalue => ?_, ?_⟩, ?_⟩
    · obtain ⟨m, hm, hvalue⟩ := List.mem_map.mp hvalue
      obtain ⟨e, he, -, w', hfilter, htarget⟩ := exists_mem_of_forall₂ htargets.flip m hm
      have hw' : w' ∈ items ∧ g.refersTo (g.tree e.2) w' :=
        List.mem_filter.mp (hfilter ▸ List.mem_singleton_self w')
      exact ⟨w', hw'.1, htarget.symm.trans hvalue,
        Nat.ne_of_gt (List.countP_pos_iff.mpr ⟨e, he, hw'.2⟩)⟩
    · rintro ⟨w', hw', hsame, hcount⟩
      obtain ⟨e, he, href⟩ := List.countP_pos_iff.mp (Nat.pos_of_ne_zero hcount)
      obtain ⟨m, hm, -, w'', hfilter, htarget⟩ := exists_mem_of_forall₂ htargets e he
      have hone : w' ∈ [w''] := hfilter ▸ List.mem_filter.mpr ⟨hw', href⟩
      rw [← hsame, List.mem_singleton.mp hone, ← htarget]
      exact List.mem_map_of_mem hm
    · have hone : ∀ e ∈ entries, items.countP (g.refersTo (g.tree e.2) ·) = 1 := fun e he => by
        obtain ⟨m, -, w, hfilter, -⟩ := exists_of_forall₂ htargets e he
        rw [List.countP_eq_length_filter, hfilter, List.length_singleton]
      exact countP_one_iff hone
  · intro w hw
    refine mem_values_unionMapping hnot ?_ (fun b hb => ?_) hmapping (g.branchOf w)
      (List.mem_map_of_mem hw)
    · rw [List.map_map]
      exact hshown
    · obtain ⟨w, -, rfl⟩ := List.mem_map.mp hb
      rfl

end Graph

theorem union_selects_pets : ∃ u entries, petsOnce.graph.union petsOnce.root = .ok u ∧
    u.branches = [Value.node 2, .node 5].map petsOnce.graph.branchOf ∧
      ∀ w ∈ [Value.node 2, .node 5], petsOnce.graph.entryCount entries w = 1 := by
  obtain ⟨u, hu⟩ : ∃ u, petsOnce.graph.union petsOnce.root = .ok u := ⟨_, rfl⟩
  obtain ⟨items, hitems, hbranches, hentries, -⟩ := Graph.union_selects hu
  obtain ⟨entries, hobject, -, -, hcounts⟩ := hentries (by decide)
  obtain rfl : [.node 2, .node 5] = items := Except.ok.inj hitems
  refine ⟨u, entries, hu, hbranches, hcounts.mpr ?_⟩
  obtain rfl := Option.some.inj hobject
  exact ⟨rfl, by decide⟩

def petsTwice : Document := petsBy [
  ("cat", .text "#/components/schemas/Cat"), ("kitten", .text "#/components/schemas/Cat")]

/-- Two models whose markers are the same number as keys, and shown differently. -/
def numberedPets : Document := .ofTree (.object [
  ("oneOf", .array [
    .object [("x-model-name", .int 1), ("properties", .object [("id", .object [])])],
    .object [("x-model-name", .bool true), ("properties", .object [("id", .object [])])]]),
  ("discriminator", .object [("propertyName", .text "kind")])])

/-- Both entries select the cat, and no value selects the dog. Without entries, the second of two markers
that are the same takes the place of the first. -/
theorem lost_branches :
    (∃ items entries u, petsTwice.graph.union petsTwice.root = .ok u ∧
      petsTwice.graph.array? (petsTwice.graph.get petsTwice.root "oneOf") = some items ∧
      petsTwice.graph.object? (petsTwice.graph.get
        (petsTwice.graph.get petsTwice.root "discriminator") "mapping") = some entries ∧
      u.branches.map (·.entityName) = ["CatSchema", "DogSchema"] ∧
      u.mapping = [(.text "cat", "CatSchema"), (.text "kitten", "CatSchema")] ∧
      items.map (petsTwice.graph.entryCount entries) = [2, 0]) ∧
    ∃ u, numberedPets.graph.union numberedPets.root = .ok u ∧
      u.branches.map (·.entityName) = ["1Schema", "TrueSchema"] ∧
      u.mapping = [(.int 1, "TrueSchema")] :=
  ⟨⟨_, _, _, rfl, rfl, rfl, rfl, rfl, by decide⟩, _, rfl, rfl, rfl⟩

end ApiRecords
