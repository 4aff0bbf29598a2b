import ApiRecords.Proofs.Expansion.Unfolding
import ApiRecords.Proofs.Layout

/-!
Documents that differ in the order of keys. What corresponds in them is read alike, also where
references are unfolded, as long as the targets correspond as well.
-/

namespace ApiRecords

/-! ### Alike but for the order of keys -/

inductive Shape.Alike : Shape → Shape → Prop
  | scalar {s} : Alike (.scalar s) (.scalar s)
  | array {n} : Alike (.array n) (.array n)
  | object {ks ls} : ks.Perm ls → Alike (.object ks) (.object ls)

/-- Whether two documents are read alike along every path. -/
def Document.Alike (doc doc' : Document) : Prop :=
  ∀ path, Option.Rel Shape.Alike (doc.read path) (doc'.read path)

theorem Shape.Alike.eq_of_scalar {s t : Scalar} (h : (Shape.scalar s).Alike (.scalar t)) :
    s = t := by
  cases h
  rfl

theorem Shape.Alike.symm {s t : Shape} (h : s.Alike t) : t.Alike s := by
  cases h with
  | scalar => exact .scalar
  | array => exact .array
  | object h => exact .object h.symm

theorem Shape.Alike.rel_symm {a b : Option Shape} (h : Option.Rel Shape.Alike a b) :
    Option.Rel Shape.Alike b a := by
  cases h with
  | none => exact .none
  | some h => exact .some h.symm

theorem Document.Alike.symm {doc doc' : Document} (h : doc.Alike doc') : doc'.Alike doc :=
  fun path => Shape.Alike.rel_symm (h path)

/-- The same keys in any order, with values that `R` relates. -/
structure MembersAlike (R : Value → Value → Prop) (ms ns : List (String × Value)) : Prop where
  keys : (ms.map Prod.fst).Perm (ns.map Prod.fst)
  lookup : ∀ key, Option.Rel R (ms.lookup key) (ns.lookup key)

theorem membersAlike_of_lookup {R : Value → Value → Prop} {ms ns : List (String × Value)}
    (hms : (ms.map Prod.fst).Nodup) (hns : (ns.map Prod.fst).Nodup)
    (h : ∀ key, Option.Rel R (ms.lookup key) (ns.lookup key)) : MembersAlike R ms ns := by
  refine ⟨(List.perm_ext_iff_of_nodup hms hns).mpr fun key => ?_, h⟩
  rw [mem_keys_iff, mem_keys_iff]
  have hkey := h key
  generalize ms.lookup key = a, ns.lookup key = b at hkey
  cases hkey <;> simp

theorem MembersAlike.putMember {R : Value → Value → Prop} {ms ns : List (String × Value)}
    {v w : Value} (h : MembersAlike R ms ns) (key : String) (hvw : R v w) :
    MembersAlike R (putMember key v ms) (ApiRecords.putMember key w ns) where
  keys := by
    rw [keys_putMember, keys_putMember]
    split <;> rename_i hkey <;> rw [h.keys.mem_iff] at hkey
    · rw [if_pos hkey]
      exact h.keys
    · rw [if_neg hkey]
      exact h.keys.append_right _
  lookup other := by
    by_cases hother : other = key
    · subst hother
      rw [lookup_putMember_self, lookup_putMember_self]
      exact .some hvw
    · rw [lookup_putMember_of_ne hother, lookup_putMember_of_ne hother]
      exact h.lookup other

namespace Node

inductive Alike (R : Value → Value → Prop) : Node → Node → Prop
  | array {as bs} : List.Forall₂ R as bs → Alike R (.array as) (.array bs)
  | object {ms ns} : MembersAlike R ms ns → Alike R (.object ms) (.object ns)

variable {R : Value → Value → Prop} {m n : Node}

theorem Alike.shape (h : Alike R m n) : m.shape.Alike n.shape := by
  cases h with
  | array h =>
    rw [Node.shape, Node.shape, h.length_eq]
    exact .array
  | object h => exact .object h.keys

theorem Alike.at? (h : Alike R m n) (slot : Slot) : Option.Rel R (m.at? slot) (n.at? slot) := by
  cases h with
  | array h =>
    cases slot with
    | key k => exact .none
    | index i => exact forall₂_getElem? h i
  | object h =>
    cases slot with
    | index i => exact .none
    | key k => exact h.lookup k

theorem not_rel_scalar (s : Scalar) (n : Option Node) :
    ¬ Option.Rel Shape.Alike (some (.scalar s)) (n.map Node.shape) ∧
      ¬ Option.Rel Shape.Alike (n.map Node.shape) (some (.scalar s)) := by
  cases n with
  | none => exact ⟨nofun, nofun⟩
  | some n => cases n <;> exact ⟨by rintro ⟨⟨⟩⟩, by rintro ⟨⟨⟩⟩⟩

/-- Containers of alike shapes are alike, where the values in each slot correspond. -/
theorem alike_of_shape (h : m.shape.Alike n.shape)
    (hslots : ∀ slot v w, m.at? slot = some v → n.at? slot = some w → R v w) : Alike R m n := by
  cases m with
  | array as =>
    cases n with
    | object ns => cases h
    | array bs =>
      have hlength : as.length = bs.length := by
        generalize ha : (array as).shape = a, hb : (array bs).shape = b at h
        cases h with
        | scalar => cases ha
        | object _ => cases ha
        | array => exact Shape.array.inj (ha.trans hb.symm)
      refine .array (List.forall₂_iff_get.mpr ⟨hlength, fun i hi hj => ?_⟩)
      exact hslots (.index i) _ _ (List.getElem?_eq_getElem hi) (List.getElem?_eq_getElem hj)
  | object ms =>
    cases n with
    | array bs => cases h
    | object ns =>
      have hperm : (ms.map Prod.fst).Perm (ns.map Prod.fst) := by
        cases h with
        | object hperm => exact hperm
      refine .object ⟨hperm, fun key => ?_⟩
      have hkey : (ms.lookup key).isSome = (ns.lookup key).isSome := by
        rw [Bool.eq_iff_iff, ← mem_keys_iff, ← mem_keys_iff, hperm.mem_iff]
      have hslot := hslots (.key key)
      rw [at?, at?] at hslot
      generalize ms.lookup key = a, ns.lookup key = b at hkey hslot
      cases a <;> cases b
      · exact .none
      · cases hkey
      · cases hkey
      · exact .some (hslot _ _ rfl rfl)

end Node

theorem rel_bind {α β γ δ : Type} {R : α → β → Prop} {S : γ → δ → Prop} {a : Option α}
    {b : Option β} {f : α → Option γ} {f' : β → Option δ} (hab : Option.Rel R a b)
    (h : ∀ x y, R x y → Option.Rel S (f x) (f' y)) : Option.Rel S (a.bind f) (b.bind f') := by
  cases hab with
  | none => exact .none
  | some hxy => exact h _ _ hxy

/-- Whether two values are the same scalar, or containers that are opened alike up to `R`. -/
inductive MatchesAlike (R : Value → Value → Prop) (here here' : Nat → Option Node) :
    Value → Value → Prop
  | scalar {s} : MatchesAlike R here here' (.scalar s) (.scalar s)
  | node {i j} : Option.Rel (Node.Alike R) (here i) (here' j) →
      MatchesAlike R here here' (.node i) (.node j)

/-- Values that match, and match all the way down, are read alike. -/
theorem readPath_alike {R : Value → Value → Prop} {here here' inner inner' : Nat → Option Node}
    {v w : Value} (hinner : ∀ v w, R v w → MatchesAlike R inner inner' v w)
    (h : MatchesAlike R here here' v w) (path : List Slot) :
    Option.Rel Shape.Alike (readPath here inner path v) (readPath here' inner' path w) := by
  induction path generalizing here here' v w with
  | nil =>
    cases h with
    | scalar => exact .some .scalar
    | @node i j h =>
      rw [readPath, readPath]
      generalize here i = m, here' j = n at h ⊢
      cases h with
      | none => exact .none
      | some h => exact .some h.shape
  | cons slot path ih =>
    cases h with
    | scalar => exact .none
    | node h =>
      rw [readPath, readPath]
      have hslot := rel_bind h fun _ _ hmn => hmn.at? slot
      exact rel_bind hslot fun _ _ hvw => ih (hinner _ _ hvw)

/-! ### Reading what is found -/

theorem Graph.readPath_cons (g : Graph) (slot : Slot) (path : List Slot) (v : Value) :
    readPath g.plain g.plain (slot :: path) v =
      (g.at? v slot).bind (readPath g.plain g.plain path) := by
  cases v <;> rfl

theorem Document.read_eq_find (doc : Document) (path : List Slot) :
    doc.read path = (doc.find path).bind (readPath doc.graph.plain doc.graph.plain []) := by
  rw [read, find]
  generalize doc.root = v
  induction path generalizing v with
  | nil => rfl
  | cons slot path ih =>
    rw [Graph.readPath_cons, List.foldlM_cons, Option.bind_eq_bind, Option.bind_assoc]
    exact congrArg _ (funext ih)

/-! ### Corresponding values -/

theorem foldlM_rel {α β γ : Type} {R : α → β → Prop} {f : α → γ → Option α}
    {f' : β → γ → Option β} (h : ∀ a b c, R a b → Option.Rel R (f a c) (f' b c)) {a : α} {b : β}
    (hab : R a b) (cs : List γ) : Option.Rel R (cs.foldlM f a) (cs.foldlM f' b) := by
  induction cs generalizing a b with
  | nil => exact .some hab
  | cons c cs ih =>
    rw [List.foldlM_cons, List.foldlM_cons]
    exact rel_bind (h a b c hab) fun _ _ => ih

/-- Whether `R` relates values of two graphs that are the same but for the order of keys. -/
structure Graph.Corresponds (g g' : Graph) (R : Value → Value → Prop) : Prop where
  scalar : ∀ s, R (.scalar s) (.scalar s)
  plain : ∀ {v w}, R v w → MatchesAlike R g.plain g'.plain v w

namespace Graph.Corresponds

variable {g g' : Graph} {R : Value → Value → Prop} {v w : Value}

theorem node? (h : g.Corresponds g' R) (hvw : R v w) :
    Option.Rel (Node.Alike R) (g.node? v) (g'.node? w) := by
  cases h.plain hvw with
  | scalar => exact .none
  | node hij => exact hij

theorem text? (h : g.Corresponds g' R) (hvw : R v w) : v.text? = w.text? := by
  cases h.plain hvw <;> rfl

theorem at? (h : g.Corresponds g' R) (hvw : R v w) (slot : Slot) :
    Option.Rel R (g.at? v slot) (g'.at? w slot) :=
  rel_bind (h.node? hvw) fun _ _ hmn => hmn.at? slot

theorem object? (h : g.Corresponds g' R) (hvw : R v w) :
    Option.Rel (MembersAlike R) (g.object? v) (g'.object? w) := by
  have hnode := h.node? hvw
  unfold Graph.object?
  generalize g.node? v = m, g'.node? w = n at hnode ⊢
  cases hnode with
  | none => exact .none
  | some hmn =>
    cases hmn with
    | array _ => exact .none
    | object hmn => exact .some hmn

theorem isSome_object? (h : g.Corresponds g' R) (hvw : R v w) :
    (g.object? v).isSome = (g'.object? w).isSome := by
  have hobject := h.object? hvw
  generalize g.object? v = m, g'.object? w = n at hobject ⊢
  cases hobject <;> rfl

theorem members (h : g.Corresponds g' R) (hvw : R v w) :
    MembersAlike R (g.members v) (g'.members w) := by
  have hobject := h.object? hvw
  unfold Graph.members
  generalize g.object? v = m, g'.object? w = n at hobject ⊢
  cases hobject with
  | none => exact ⟨.nil, fun _ => .none⟩
  | some hmn => exact hmn

theorem refText? (h : g.Corresponds g' R) (hvw : R v w) : g.refText? v = g'.refText? w := by
  have hat := h.at? hvw (.key refKey)
  rw [refText?_eq_at?, refText?_eq_at?]
  generalize g.at? v (.key refKey) = a, g'.at? w (.key refKey) = b at hat ⊢
  cases hat with
  | none => rfl
  | some hab => exact h.text? hab

theorem step (h : g.Corresponds g' R) (hvw : R v w) (token : String) :
    Option.Rel R (g.step v token) (g'.step w token) := by
  have hnode := h.node? hvw
  unfold Graph.step
  generalize g.node? v = m, g'.node? w = n at hnode ⊢
  cases hnode with
  | none => exact .none
  | some hmn =>
    cases hmn with
    | object hmn => exact hmn.lookup token
    | array hmn =>
      dsimp only
      cases Text.readInt token with
      | none => exact .none
      | some i => exact itemAt_rel hmn i

/-- Tokens lead to values that correspond. -/
theorem follow (h : g.Corresponds g' R) (hvw : R v w) (tokens : List String) :
    Option.Rel R (tokens.foldlM g.step v) (tokens.foldlM g'.step w) :=
  foldlM_rel (fun _ _ token hvw => h.step hvw token) hvw tokens

theorem walk (h : g.Corresponds g' R) (hvw : R v w) (path : List Slot) :
    Option.Rel R (path.foldlM g.at? v) (path.foldlM g'.at? w) :=
  foldlM_rel (fun _ _ slot hvw => h.at? hvw slot) hvw path

end Graph.Corresponds

/-! ### Copies -/

theorem Expansion.lookup_merged {t b : List (String × Value)} (h : (b.map Prod.fst).Nodup)
    (ref key : String) :
    (merged ref t b).lookup key =
      if key = keptRefKey then some (.scalar (.text ref))
      else ((if key ≠ refKey then b.lookup key else none).or (t.lookup key)) := by
  have hfilter : ((b.filter fun m => m.1 ≠ refKey).map Prod.fst).Nodup :=
    h.sublist (List.filter_sublist.map _)
  by_cases hkey : key = keptRefKey
  · rw [if_pos hkey, hkey, merged, lookup_putMember_self]
  · rw [if_neg hkey, merged, lookup_putMember_of_ne hkey, lookup_putMembers_of_nodup hfilter,
      lookup_filterKeys b (fun k => k ≠ refKey)]
    simp

namespace Graph

variable {g g' : Graph} {R : Value → Value → Prop} {v w : Value}

theorem Corresponds.merged (h : g.Corresponds g' R) (hg : g.WellFormed) (hg' : g'.WellFormed)
    {target target' : Value} (htarget : R target target') (hvw : R v w) (ref : String) :
    MembersAlike R (Expansion.merged ref (g.members target) (g.members v))
      (Expansion.merged ref (g'.members target') (g'.members w)) := by
  apply membersAlike_of_lookup
  · exact Expansion.nodup_merged (nodup_members hg target)
  · exact Expansion.nodup_merged (nodup_members hg' target')
  intro key
  rw [Expansion.lookup_merged (nodup_members hg v), Expansion.lookup_merged (nodup_members hg' w)]
  split
  · exact .some (h.scalar _)
  have ht := (h.members htarget).lookup key
  have hb := (h.members hvw).lookup key
  generalize (g.members target).lookup key = a, (g'.members target').lookup key = a' at ht ⊢
  generalize (g.members v).lookup key = b, (g'.members w).lookup key = b' at hb ⊢
  split
  · cases hb with
    | none => exact ht
    | some hb => exact .some hb
  · exact ht

/-- Values that correspond are unfolded alike, where the targets of references correspond. -/
theorem Corresponds.unfold (h : g.Corresponds g' R) (hg : g.WellFormed) (hg' : g'.WellFormed)
    {resolve resolve' : String → Option Value}
    (hresolve : ∀ v w ref, g.refText? v = some ref → g'.refText? w = some ref →
      Option.Rel R (resolve ref) (resolve' ref)) (hvw : R v w) :
    MatchesAlike R (g.unfold resolve) (g'.unfold resolve') v w := by
  have hplain := h.plain hvw
  cases hplain with
  | scalar => exact .scalar
  | @node i j hij =>
    apply MatchesAlike.node
    have href := h.refText? hvw
    cases hr : g.refText? (.node i) with
    | none =>
      rw [unfold_plain hr, unfold_plain (href.symm.trans hr)]
      exact hij
    | some ref =>
      rw [unfold_ref hr, unfold_ref (href.symm.trans hr)]
      have ht := hresolve _ _ ref hr (href.symm.trans hr)
      generalize resolve ref = t, resolve' ref = t' at ht ⊢
      cases ht with
      | none => exact .none
      | some ht => exact .some (.object (h.merged hg hg' ht hvw ref))

end Graph

end ApiRecords
