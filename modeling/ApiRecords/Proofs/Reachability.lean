import ApiRecords.Proofs.Unions
import Mathlib.Data.Finset.Card
import Mathlib.Logic.Relation

/-!
The models and unions found below a schema against those that can be reached from it. The search
follows paths through different containers only, and each way that leads somewhere can be cut down to
such a path.
-/

namespace ApiRecords

namespace Graph

/-- The values that the search goes on to. Models and unions lead nowhere. -/
inductive Leads (g : Graph) : Value → Value → Prop
  | properties {v} : g.kind v = .ok .object → Leads g v (g.get v "properties")
  | items {v} : g.kind v = .ok .array → Leads g v (g.get v "items")
  | member {v n key w} : g.kind v = .ok .mapping ∨ g.kind v = .ok .alternatives →
      g.node? v = some n → (key, w) ∈ n.children → Leads g v w

def Reaches (g : Graph) : Value → Value → Prop := Relation.ReflTransGen g.Leads

/-- The calls that the search makes for a value below a path: those for what it leads to. -/
inductive Calls (g : Graph) : List Nat × Value → List Nat × Value → Prop
  | below {path id w} : id ∉ path → g.Leads (.node id) w → Calls g (id :: path, w) (path, .node id)

variable {g : Graph} {path : List Nat} {offset : Nat} {v w : Value}
  {inner inner' : List Nat → Nat → Value → Except Fault Findings} {found : Findings} {e : Fault}

theorem node?_of_kind {kind : Kind} (h : g.kind v = .ok kind) (hne : kind ≠ .opaqueValue) :
    ∃ n, g.node? v = some n := by
  cases hn : g.node? v with
  | none => simp [Graph.kind, hn, hne.symm] at h
  | some n => exact ⟨n, rfl⟩

theorem Leads.kind (h : g.Leads v w) :
    ∃ kind, g.kind v = .ok kind ∧ kind ∉ [.model, .discriminatedUnion, .opaqueValue] := by
  cases h with
  | properties h => exact ⟨_, h, by decide⟩
  | items h => exact ⟨_, h, by decide⟩
  | member h => exact h.elim (fun h => ⟨_, h, by decide⟩) fun h => ⟨_, h, by decide⟩

theorem Leads.exists_node (h : g.Leads v w) : ∃ id, id < g.size ∧ v = .node id := by
  obtain ⟨kind, hkind, hnot⟩ := h.kind
  obtain ⟨n, hn⟩ := node?_of_kind hkind fun heq => hnot (by simp [heq])
  cases v with
  | scalar s => cases hn
  | node id => exact ⟨id, lt_size_of_node? hn, rfl⟩

/-! ### The search ends -/

/-- The containers that are not open. -/
def closed (g : Graph) (path : List Nat) : Finset Nat := (Finset.range g.size).filter (· ∉ path)

theorem closed_cons_card_lt {id : Nat} (hid : id ∉ path) (hlt : id < g.size) :
    (g.closed (id :: path)).card < (g.closed path).card := by
  apply Finset.card_lt_card
  refine ⟨?_, fun hsub => ?_⟩
  · intro k hk
    simp only [closed, Finset.mem_filter, List.mem_cons, not_or] at hk ⊢
    exact ⟨hk.1, hk.2.2⟩
  · have hmem : id ∈ g.closed path := by simp [closed, hid, hlt]
    simpa [closed] using hsub hmem

theorem closed_card_le (g : Graph) (path : List Nat) : (g.closed path).card ≤ g.size := by
  simpa [closed] using (Finset.range g.size).card_filter_le (· ∉ path)

theorem Calls.card_lt {c c' : List Nat × Value} (h : g.Calls c' c) :
    (g.closed c'.1).card < (g.closed c.1).card := by
  obtain ⟨hid, hleads⟩ := h
  obtain ⟨_, hlt, ⟨⟩⟩ := hleads.exists_node
  exact closed_cons_card_lt hid hlt

theorem wellFounded_calls (g : Graph) : WellFounded g.Calls :=
  Subrelation.wf Calls.card_lt (measure fun c : List Nat × Value => (g.closed c.1).card).wf

theorem findMembers_congr {find find' : Nat → Value → Except Fault Findings}
    {members : List (String × Value)}
    (h : ∀ m ∈ members, ∀ offset, find offset m.2 = find' offset m.2) :
    findMembers find offset members = findMembers find' offset members := by
  induction members generalizing offset with
  | nil => rfl
  | cons m rest ih =>
    obtain ⟨hm, hrest⟩ := List.forall_mem_cons.mp h
    simp only [findMembers, hm, ih hrest]

/-- What one level of the search does with the results below it, one case for each kind of value. -/
inductive Level (g : Graph) (path : List Nat) (offset : Nat) :
    Value → ((List Nat → Nat → Value → Except Fault Findings) → Except Fault Findings) → Prop
  | unclassified {v : Value} {e : Fault} : g.kind v = .error e → Level g path offset v fun _ => .error e
  | opaqueValue {v : Value} : g.kind v = .ok .opaqueValue → Level g path offset v fun _ => .ok .none
  | model {v : Value} : g.kind v = .ok .model → Level g path offset v fun _ =>
      .ok ⟨some (.leaf (entityName (g.modelName v))), [v], []⟩
  | union {v : Value} : g.kind v = .ok .discriminatedUnion → Level g path offset v fun _ =>
      g.unionFindings (offset + 1) v
  | seen {id : Nat} : id ∈ path → Level g path offset (.node id) fun _ => .ok .none
  | object {id : Nat} : id ∉ path → g.kind (.node id) = .ok .object →
      Level g path offset (.node id) fun inner =>
        inner (id :: path) offset (g.get (.node id) "properties")
  | array {id : Nat} : id ∉ path → g.kind (.node id) = .ok .array →
      Level g path offset (.node id) fun inner =>
        return (← inner (id :: path) offset (g.get (.node id) "items")).inList
  | members {id : Nat} {n : Node} : id ∉ path →
      g.kind (.node id) = .ok .mapping ∨ g.kind (.node id) = .ok .alternatives →
      g.node? (.node id) = some n → Level g path offset (.node id) fun inner =>
        return .ofMembers (← findMembers (inner (id :: path)) offset n.children)

theorem findNode_level (g : Graph) (path : List Nat) (offset : Nat) (v : Value) :
    ∃ f, (∀ inner, g.findNode inner path offset v = f inner) ∧ Level g path offset v f := by
  unfold findNode
  cases hkind : g.kind v with
  | error e => exact ⟨_, fun _ => rfl, .unclassified hkind⟩
  | ok kind =>
    cases v with
    | scalar s =>
      obtain rfl : kind = .opaqueValue := (Except.ok.inj hkind).symm
      exact ⟨_, fun _ => rfl, .opaqueValue hkind⟩
    | node id =>
      cases kind with
      | opaqueValue => exact ⟨_, fun _ => rfl, .opaqueValue hkind⟩
      | model => exact ⟨_, fun _ => rfl, .model hkind⟩
      | discriminatedUnion => exact ⟨_, fun _ => rfl, .union hkind⟩
      | object =>
        by_cases hid : id ∈ path
        · exact ⟨_, fun _ => if_pos hid, .seen hid⟩
        · exact ⟨_, fun _ => if_neg hid, .object hid hkind⟩
      | array =>
        by_cases hid : id ∈ path
        · exact ⟨_, fun _ => if_pos hid, .seen hid⟩
        · exact ⟨_, fun _ => if_neg hid, .array hid hkind⟩
      | alternatives | mapping =>
        by_cases hid : id ∈ path
        · exact ⟨_, fun _ => if_pos hid, .seen hid⟩
        · obtain ⟨n, hn⟩ := node?_of_kind hkind (by decide)
          refine ⟨_, fun _ => (if_neg hid).trans ?_, .members hid (by simp [hkind]) hn⟩
          rw [hn]
          rfl

/-- One level of the search depends on the calls that it makes. -/
theorem findNode_congr
    (h : ∀ id w, g.Calls (id :: path, w) (path, v) →
      ∀ offset, inner (id :: path) offset w = inner' (id :: path) offset w) :
    g.findNode inner path offset v = g.findNode inner' path offset v := by
  obtain ⟨f, hf, hlevel⟩ := findNode_level g path offset v
  rw [hf, hf]
  cases hlevel with
  | unclassified | opaqueValue | model | union | seen => rfl
  | object hid hkind => exact h _ _ (.below hid (.properties hkind)) _
  | array hid hkind => simp only [h _ _ (.below hid (.items hkind))]
  | members hid hkind hn =>
    dsimp only
    rw [findMembers_congr fun m hm => h _ _ (.below hid (.member hkind hn hm))]

theorem findFrom_eq {depth depth' : Nat} (hdepth : (g.closed path).card ≤ depth)
    (hdepth' : (g.closed path).card ≤ depth') :
    g.findFrom depth path offset v = g.findFrom depth' path offset v := by
  induction depth generalizing depth' path offset v with
  | zero =>
    cases depth' with
    | zero => rfl
    | succ depth' =>
      exact findNode_congr fun id w hcall => absurd hcall.card_lt (by simp; omega)
  | succ depth ih =>
    cases depth' with
    | zero => exact findNode_congr fun id w hcall => absurd hcall.card_lt (by simp; omega)
    | succ depth' =>
      refine findNode_congr fun id w hcall offset => ih ?_ ?_
      · have := hcall.card_lt
        simp only at this
        omega
      · have := hcall.card_lt
        simp only at this
        omega

/-- The bound on the depth is none: each level of the search is that of a search without it. -/
theorem findFrom_size (g : Graph) : g.findFrom g.size = g.findNode (g.findFrom g.size) := by
  funext path offset v
  have hcard := g.closed_card_le path
  exact (findFrom_eq hcard (Nat.le_succ_of_le hcard)).trans rfl

/-! ### What is found can be reached -/

theorem findMembers_error {find : Nat → Value → Except Fault Findings}
    {members : List (String × Value)} (h : findMembers find offset members = .error e) :
    ∃ m ∈ members, ∃ offset, find offset m.2 = .error e := by
  induction members generalizing offset with
  | nil => cases h
  | cons m rest ih =>
    simp only [findMembers, bind_error_iff, pure_ne_error, and_false, exists_false, or_false] at h
    rcases h with hfirst | ⟨first, -, hrest⟩
    · exact ⟨m, List.mem_cons_self, offset, hfirst⟩
    · obtain ⟨m', hm', herror⟩ := ih hrest
      exact ⟨m', List.mem_cons_of_mem _ hm', herror⟩

theorem findMembers_models {find : Nat → Value → Except Fault Findings}
    {members : List (String × Value)} {found : Findings.Members}
    (h : findMembers find offset members = .ok found) :
    (∀ m ∈ members, ∃ offset first, find offset m.2 = .ok first ∧ first.models ⊆ found.models) ∧
      ∀ v ∈ found.models, ∃ m ∈ members, ∃ offset first,
        find offset m.2 = .ok first ∧ v ∈ first.models := by
  induction members generalizing offset found with
  | nil =>
    cases h
    exact ⟨fun _ hm => absurd hm List.not_mem_nil, fun _ hv => absurd hv List.not_mem_nil⟩
  | cons m rest ih =>
    simp only [findMembers, bind_ok_iff, pure_ok_iff] at h
    obtain ⟨first, hfirst, others, hothers, rfl⟩ := h
    obtain ⟨hall, honly⟩ := ih hothers
    constructor
    · intro m' hm'
      rcases List.mem_cons.mp hm' with rfl | hm'
      · exact ⟨offset, first, hfirst, List.subset_append_left _ _⟩
      · obtain ⟨offset', first', hfirst', hsub⟩ := hall m' hm'
        exact ⟨offset', first', hfirst', fun v hv => List.mem_append_right _ (hsub hv)⟩
    · intro v hv
      rcases List.mem_append.mp hv with hv | hv
      · exact ⟨m, List.mem_cons_self, offset, first, hfirst, hv⟩
      · obtain ⟨m', hm', hfound⟩ := honly v hv
        exact ⟨m', List.mem_cons_of_mem _ hm', hfound⟩

theorem unionFindings_models {number : Nat} (h : g.unionFindings number v = .ok found) :
    ∃ u, g.union v = .ok u ∧ found.models = u.branches.map (·.schema) := by
  simp only [unionFindings, bind_ok_iff, pure_ok_iff] at h
  obtain ⟨u, hu, rfl⟩ := h
  exact ⟨u, hu, rfl⟩

theorem findNode_error (h : g.findNode inner path offset v = .error e) :
    g.kind v = .error e ∨ g.kind v = .ok .discriminatedUnion ∧ g.union v = .error e ∨
      ∃ id w offset', g.Calls (id :: path, w) (path, v) ∧ inner (id :: path) offset' w = .error e := by
  obtain ⟨f, hf, hlevel⟩ := findNode_level g path offset v
  rw [hf] at h
  cases hlevel with
  | unclassified hkind =>
    cases h
    exact .inl hkind
  | opaqueValue | model | seen => cases h
  | union hkind =>
    simp only [unionFindings, bind_error_iff, pure_ne_error, and_false, exists_false, or_false] at h
    exact .inr (.inl ⟨hkind, h⟩)
  | object hid hkind => exact .inr (.inr ⟨_, _, _, .below hid (.properties hkind), h⟩)
  | array hid hkind =>
    simp only [bind_error_iff, pure_ne_error, and_false, exists_false, or_false] at h
    exact .inr (.inr ⟨_, _, _, .below hid (.items hkind), h⟩)
  | members hid hkind hn =>
    simp only [bind_error_iff, pure_ne_error, and_false, exists_false, or_false] at h
    obtain ⟨m, hm, offset', herror⟩ := findMembers_error h
    exact .inr (.inr ⟨_, _, _, .below hid (.member hkind hn hm), herror⟩)

theorem findNode_models {m : Value} (h : g.findNode inner path offset v = .ok found)
    (hm : m ∈ found.models) :
    g.kind v = .ok .model ∧ m = v ∨
      (g.kind v = .ok .discriminatedUnion ∧
        ∃ u, g.union v = .ok u ∧ m ∈ u.branches.map (·.schema)) ∨
      ∃ id w offset' below, g.Calls (id :: path, w) (path, v) ∧
        inner (id :: path) offset' w = .ok below ∧ m ∈ below.models := by
  obtain ⟨f, hf, hlevel⟩ := findNode_level g path offset v
  rw [hf] at h
  cases hlevel with
  | unclassified => cases h
  | opaqueValue | seen =>
    cases h
    exact absurd hm List.not_mem_nil
  | model hkind =>
    cases h
    exact .inl ⟨hkind, List.mem_singleton.mp hm⟩
  | union hkind =>
    obtain ⟨u, hu, hmodels⟩ := unionFindings_models h
    exact .inr (.inl ⟨hkind, u, hu, hmodels ▸ hm⟩)
  | object hid hkind => exact .inr (.inr ⟨_, _, _, _, .below hid (.properties hkind), h, hm⟩)
  | array hid hkind =>
    simp only [bind_ok_iff, pure_ok_iff] at h
    obtain ⟨below, hbelow, rfl⟩ := h
    exact .inr (.inr ⟨_, _, _, below, .below hid (.items hkind), hbelow, hm⟩)
  | members hid hkind hn =>
    simp only [bind_ok_iff, pure_ok_iff] at h
    obtain ⟨below, hbelow, rfl⟩ := h
    obtain ⟨x, hx, offset', first, hfirst, hm⟩ := (findMembers_models hbelow).2 m hm
    exact .inr (.inr ⟨_, _, _, first, .below hid (.member hkind hn hx), hfirst, hm⟩)

theorem findNode_call {id : Nat} (h : g.findNode inner path offset v = .ok found)
    (hcall : g.Calls (id :: path, w) (path, v)) :
    ∃ offset' below, inner (id :: path) offset' w = .ok below ∧ below.models ⊆ found.models := by
  obtain ⟨hid, hleads⟩ := hcall
  obtain ⟨f, hf, hlevel⟩ := findNode_level g path offset (.node id)
  rw [hf] at h
  cases hlevel with
  | unclassified => cases h
  | seen hmem => exact absurd hmem hid
  | opaqueValue hkind | model hkind | union hkind =>
    obtain ⟨_, hkind', hnot⟩ := hleads.kind
    cases hkind.symm.trans hkind'
    exact absurd hnot (by decide)
  | object _ hkind =>
    cases hleads with
    | properties => exact ⟨_, found, h, List.Subset.refl _⟩
    | items hkind' => cases hkind.symm.trans hkind'
    | member hkind' => simp [hkind] at hkind'
  | array _ hkind =>
    cases hleads with
    | properties hkind' => cases hkind.symm.trans hkind'
    | items =>
      simp only [bind_ok_iff, pure_ok_iff] at h
      obtain ⟨below, hbelow, rfl⟩ := h
      exact ⟨_, below, hbelow, List.Subset.refl _⟩
    | member hkind' => simp [hkind] at hkind'
  | members _ hkind hn =>
    cases hleads with
    | properties hkind' => simp [hkind'] at hkind
    | items hkind' => simp [hkind'] at hkind
    | member _ hn' hmem =>
      cases hn.symm.trans hn'
      simp only [bind_ok_iff, pure_ok_iff] at h
      obtain ⟨below, hbelow, rfl⟩ := h
      exact (findMembers_models hbelow).1 _ hmem

theorem Calls.leads {c c' : List Nat × Value} (h : g.Calls c' c) : g.Leads c.2 c'.2 := by
  cases h with
  | below _ hleads => exact hleads

/-- The search is that of a tree of calls: what holds of a call if it holds of those it makes, holds
of each. -/
theorem calls_induction {P : List Nat → Value → Prop}
    (h : ∀ path v, (∀ id w, g.Calls (id :: path, w) (path, v) → P (id :: path) w) → P path v)
    (path : List Nat) (v : Value) : P path v :=
  g.wellFounded_calls.induction (C := fun c => P c.1 c.2) (path, v) fun c ih =>
    h c.1 c.2 fun id w hcall => ih (id :: c.1, w) hcall

/-- Each failure is that of a value that can be reached. -/
theorem findFrom_error (h : g.findFrom g.size path offset v = .error e) :
    ∃ u, g.Reaches v u ∧
      (g.kind u = .error e ∨ g.kind u = .ok .discriminatedUnion ∧ g.union u = .error e) := by
  induction path, v using calls_induction (g := g) generalizing offset with
  | h path v ih =>
    rw [findFrom_size] at h
    rcases findNode_error h with hkind | hunion | ⟨id, w, offset', hcall, herror⟩
    · exact ⟨v, .refl, .inl hkind⟩
    · exact ⟨v, .refl, .inr hunion⟩
    · obtain ⟨u, hreach, hu⟩ := ih id w hcall herror
      exact ⟨u, .head hcall.leads hreach, hu⟩

/-- Each model found can be reached, or is a branch of a union that can. -/
theorem findFrom_models {m : Value} (h : g.findFrom g.size path offset v = .ok found)
    (hm : m ∈ found.models) :
    g.Reaches v m ∧ g.kind m = .ok .model ∨
      ∃ u, g.Reaches v u ∧ g.kind u = .ok .discriminatedUnion ∧
        ∃ x, g.union u = .ok x ∧ m ∈ x.branches.map (·.schema) := by
  induction path, v using calls_induction (g := g) generalizing offset found with
  | h path v ih =>
    rw [findFrom_size] at h
    rcases findNode_models h hm with ⟨hkind, rfl⟩ | ⟨hkind, hunion⟩ |
      ⟨id, w, offset', below, hcall, hbelow, hm⟩
    · exact .inl ⟨.refl, hkind⟩
    · exact .inr ⟨v, .refl, hkind, hunion⟩
    · rcases ih id w hcall hbelow hm with ⟨hreach, hkind⟩ | ⟨u, hreach, hu⟩
      · exact .inl ⟨.head hcall.leads hreach, hkind⟩
      · exact .inr ⟨u, .head hcall.leads hreach, hu⟩

/-! ### What can be reached is found -/

/-- A step that leaves no container of the path. -/
def Around (g : Graph) (path : List Nat) (v w : Value) : Prop :=
  g.Leads v w ∧ ∀ id ∈ path, v ≠ .node id

/-- A way through a container can be begun where it leaves the container last. -/
theorem around_cons (id : Nat) (h : Relation.ReflTransGen (g.Around path) v w) :
    Relation.ReflTransGen (g.Around (id :: path)) v w ∨
      ∃ u, g.Around path (.node id) u ∧ Relation.ReflTransGen (g.Around (id :: path)) u w := by
  induction h using Relation.ReflTransGen.head_induction_on with
  | refl => exact .inl .refl
  | head hstep _ ih =>
    rename_i a u _
    rcases ih with hrest | hlater
    · by_cases ha : a = .node id
      · exact .inr ⟨u, ha ▸ hstep, hrest⟩
      · exact .inl (.head ⟨hstep.1, List.forall_mem_cons.mpr ⟨ha, hstep.2⟩⟩ hrest)
    · exact .inr hlater

/-- A way around a path leads nowhere, or on by a call that the search makes. -/
theorem call_of_around (h : Relation.ReflTransGen (g.Around path) v w) :
    v = w ∨ ∃ id u, g.Calls (id :: path, u) (path, v) ∧
      Relation.ReflTransGen (g.Around (id :: path)) u w := by
  rcases h.cases_head with rfl | ⟨_, hfirst, -⟩
  · exact .inl rfl
  · obtain ⟨id, -, rfl⟩ := hfirst.1.exists_node
    rcases around_cons id h with hrest | ⟨u, hleave, hrest⟩
    · rcases hrest.cases_head with heq | ⟨_, hstep, -⟩
      · exact .inl heq
      · exact absurd rfl (hstep.2 id List.mem_cons_self)
    · refine .inr ⟨id, u, .below ?_ hleave.1, hrest⟩
      exact fun hmem => hleave.2 id hmem rfl

theorem findFrom_complete (h : g.findFrom g.size path offset v = .ok found)
    (hway : Relation.ReflTransGen (g.Around path) v w) :
    ∃ path' offset' below, g.findNode (g.findFrom g.size) path' offset' w = .ok below ∧
      below.models ⊆ found.models := by
  induction path, v using calls_induction (g := g) generalizing offset found with
  | h path v ih =>
    rw [findFrom_size] at h
    rcases call_of_around hway with rfl | ⟨id, u, hcall, hrest⟩
    · exact ⟨path, offset, found, h, List.Subset.refl _⟩
    · obtain ⟨offset', below, hbelow, hsub⟩ := findNode_call h hcall
      obtain ⟨path', offset'', deep, hdeep, hsub'⟩ := ih id u hcall hbelow hrest
      exact ⟨path', offset'', deep, hdeep, fun m hm => hsub (hsub' hm)⟩

theorem Reaches.around (h : g.Reaches v w) : Relation.ReflTransGen (g.Around []) v w :=
  Relation.ReflTransGen.mono
    (fun _ _ hleads => ⟨hleads, fun _ hmem => absurd hmem List.not_mem_nil⟩) _ _ h

theorem findings_complete (h : g.findings offset v = .ok found) (hreach : g.Reaches v w) :
    ∃ path' offset' below, g.findNode (g.findFrom g.size) path' offset' w = .ok below ∧
      below.models ⊆ found.models :=
  findFrom_complete h hreach.around

/-! ### The search finds what can be reached -/

/-- The models that a schema refers to: those that can be reached from it, and the alternatives of the
unions that can. -/
def Refers (g : Graph) (v m : Value) : Prop :=
  g.Reaches v m ∧ g.kind m = .ok .model ∨
    ∃ u items, g.Reaches v u ∧ g.kind u = .ok .discriminatedUnion ∧
      g.array? (g.get u "oneOf") = some items ∧ m ∈ items

theorem findNode_model (h : g.kind v = .ok .model) : g.findNode inner path offset v =
    .ok ⟨some (.leaf (entityName (g.modelName v))), [v], []⟩ := by
  cases v with
  | scalar s => cases h
  | node id =>
    rw [findNode, h]
    rfl

theorem findNode_union (h : g.kind v = .ok .discriminatedUnion) :
    g.findNode inner path offset v = g.unionFindings (offset + 1) v := by
  cases v with
  | scalar s => cases h
  | node id =>
    rw [findNode, h]
    rfl

theorem findings_unions (h : g.findings offset v = .ok found) (hreach : g.Reaches v w)
    (hkind : g.kind w = .ok .discriminatedUnion) :
    ∃ u, g.union w = .ok u ∧ u.branches.map (·.schema) ⊆ found.models := by
  obtain ⟨path, offset', below, hbelow, hsub⟩ := findings_complete h hreach
  rw [findNode_union hkind] at hbelow
  obtain ⟨u, hu, hmodels⟩ := unionFindings_models hbelow
  exact ⟨u, hu, hmodels ▸ hsub⟩

theorem findings_error (hg : g.Regular) (h : g.findings offset v = .error e) :
    ∃ u, g.Reaches v u ∧ g.kind u = .ok .discriminatedUnion ∧ g.union u = .error e := by
  obtain ⟨u, hreach, hkind | hunion⟩ := findFrom_error h
  · obtain ⟨kind, hok⟩ := hg.kind_ok u
    cases hkind.symm.trans hok
  · exact ⟨u, hreach, hunion⟩

theorem mem_findings {m : Value} (h : g.findings offset v = .ok found) :
    m ∈ found.models ↔ g.Refers v m := by
  constructor
  · intro hm
    rcases findFrom_models h hm with hmodel | ⟨u, hreach, hkind, x, hx, hm⟩
    · exact .inl hmodel
    · obtain ⟨_, items, -, hitems, -⟩ := kind_union hkind
      rw [union_schemas hx hitems] at hm
      exact .inr ⟨u, items, hreach, hkind, hitems, hm⟩
  · rintro (⟨hreach, hkind⟩ | ⟨u, items, hreach, hkind, hitems, hm⟩)
    · obtain ⟨path, offset', below, hbelow, hsub⟩ := findings_complete h hreach
      rw [findNode_model hkind] at hbelow
      cases hbelow
      exact hsub (List.mem_singleton_self m)
    · obtain ⟨x, hx, hsub⟩ := findings_unions h hreach hkind
      rw [← union_schemas hx hitems] at hm
      exact hsub hm

/-- A search without a bound on its depth has one result. -/
theorem findNode_fixed_iff (find : List Nat → Nat → Value → Except Fault Findings) :
    find = g.findNode find ↔ find = g.findFrom g.size := by
  constructor
  · intro h
    funext path offset v
    induction path, v using calls_induction (g := g) generalizing offset with
    | h path v ih =>
      rw [h, findFrom_size]
      exact findNode_congr ih
  · rintro rfl
    exact findFrom_size g

/-- The search makes finitely many calls and needs no bound on its depth. It fails just when some
union that can be reached does, with the failure of such a union; otherwise the models found are those
that the schema refers to. -/
theorem findings_reachable (hg : g.Regular) (offset : Nat) (v : Value) :
    WellFounded g.Calls ∧
      (∀ find, find = g.findNode find ↔ find = g.findFrom g.size) ∧
      ((∃ e, g.findings offset v = .error e) ↔
        ∃ u, g.Reaches v u ∧ g.kind u = .ok .discriminatedUnion ∧ ∃ e, g.union u = .error e) ∧
      (∀ e, g.findings offset v = .error e →
        ∃ u, g.Reaches v u ∧ g.kind u = .ok .discriminatedUnion ∧ g.union u = .error e ∧
          ((∃ fault, e = .union fault) ∨ e = .notKey ∧ g.Unkeyed u)) ∧
      ∀ found, g.findings offset v = .ok found → ∀ m, m ∈ found.models ↔ g.Refers v m := by
  refine ⟨g.wellFounded_calls, findNode_fixed_iff, ⟨?_, ?_⟩, ?_, fun found h m => mem_findings h⟩
  · rintro ⟨e, h⟩
    obtain ⟨u, hreach, hkind, hunion⟩ := findings_error hg h
    exact ⟨u, hreach, hkind, e, hunion⟩
  · rintro ⟨u, hreach, hkind, e, hunion⟩
    cases h : g.findings offset v with
    | error e' => exact ⟨e', rfl⟩
    | ok found =>
      obtain ⟨x, hx, -⟩ := findings_unions h hreach hkind
      cases hunion.symm.trans hx
  · intro e h
    obtain ⟨u, hreach, hkind, hunion⟩ := findings_error hg h
    exact ⟨u, hreach, hkind, hunion, union_error hg hkind hunion⟩

theorem findings_reachable_pet : petProperties.graph.Regular ∧
    petProperties.graph.findings 2 petProperties.root = .ok petFindings ∧
    ∀ m, m ∈ petFindings.models ↔ petProperties.graph.Refers petProperties.root m := by
  have hregular : petProperties.graph.Regular := ⟨by decide, by decide⟩
  obtain ⟨-, -, -, -, hmodels⟩ := findings_reachable hregular 2 petProperties.root
  exact ⟨hregular, rfl, hmodels petFindings rfl⟩

/-- A union whose branch is marked with a list of names. -/
def markedByList : Document := .ofTree (.object [
  ("oneOf", .array [.object [
    ("x-model-name", .array [.text "Cat"]), ("properties", .object [("id", .object [])])]]),
  ("discriminator", .object [("propertyName", .text "kind")])])

/-- The union fails, but not with a failure of unions. -/
theorem markedByList_fails : markedByList.graph.Regular ∧
    (∃ u, markedByList.graph.Reaches markedByList.root u ∧
      markedByList.graph.kind u = .ok .discriminatedUnion ∧
      ∃ e, markedByList.graph.union u = .error e) ∧
    markedByList.graph.findings 0 markedByList.root = .error .notKey ∧
    ∀ fault, markedByList.graph.findings 0 markedByList.root ≠ .error (.union fault) := by
  refine ⟨⟨by decide, by decide⟩, ⟨_, .refl, rfl, _, rfl⟩, rfl, ?_⟩
  rintro fault ⟨⟩

end Graph

end ApiRecords
