import ApiRecords.Proofs.Reordering.Alike
import Mathlib.Data.List.Perm.Subperm

/-!
Trees equal but for the order of keys. Their documents are read alike.
-/

namespace ApiRecords

namespace Tree

mutual

/-- Whether two values are equal but for the order of keys in their objects. -/
def reordered : Tree → Tree → Bool
  | scalar a, scalar b => a = b
  | array as, array bs => reorderedItems as bs
  | object as, object bs => as.length = bs.length && reorderedMembers as bs
  | _, _ => false

def reorderedItems : List Tree → List Tree → Bool
  | [], [] => true
  | a :: as, b :: bs => a.reordered b && reorderedItems as bs
  | _, _ => false

/-- Whether each member stands, with an equal value, among `bs`. -/
def reorderedMembers : List (String × Tree) → List (String × Tree) → Bool
  | [], _ => true
  | (key, a) :: as, bs =>
    (match bs.lookup key with
      | some b => a.reordered b
      | none => false) && reorderedMembers as bs

end

/-- A value that a text can spell: it leads nowhere back, and no object in it has a key twice. -/
structure Proper (t : Tree) : Prop where
  acyclic : t.cyclic = false
  keys : t.distinctKeys

theorem lookup_reordered {as bs : List (String × Tree)} (h : reorderedMembers as bs) {key : String}
    {a : Tree} (ha : as.lookup key = some a) : ∃ b, bs.lookup key = some b ∧ a.reordered b := by
  induction as with
  | nil => cases ha
  | cons m as ih =>
    obtain ⟨k, a'⟩ := m
    simp only [reorderedMembers, Bool.and_eq_true] at h
    obtain ⟨hfirst, hrest⟩ := h
    by_cases hk : key = k
    · subst hk
      obtain rfl : a' = a := by simpa using ha
      cases hb : bs.lookup key with
      | none => simp [hb] at hfirst
      | some b => exact ⟨b, rfl, by simpa [hb] using hfirst⟩
    · have hk' : (key == k) = false := by simpa using hk
      rw [List.lookup_cons, hk'] at ha
      exact ih hrest ha

/-- The keys of reordered objects are the same. -/
theorem keys_reordered {as bs : List (String × Tree)} (hlength : as.length = bs.length)
    (h : reorderedMembers as bs) (hkeys : (as.map Prod.fst).Nodup) :
    (as.map Prod.fst).Perm (bs.map Prod.fst) := by
  have hsub : as.map Prod.fst ⊆ bs.map Prod.fst := by
    intro key hkey
    obtain ⟨a, ha⟩ := Option.isSome_iff_exists.mp (mem_keys_iff.mp hkey)
    obtain ⟨b, hb, -⟩ := lookup_reordered h ha
    exact mem_keys_iff.mpr (by rw [hb]; rfl)
  have hle : (bs.map Prod.fst).length ≤ (as.map Prod.fst).length := by simp [hlength]
  exact (List.Nodup.subperm hkeys hsub).perm_of_length_le hle

theorem distinctKeys_of_lookup {ts : List (String × Tree)} (h : distinctMembers ts) {key : String}
    {t : Tree} (ht : ts.lookup key = some t) : t.distinctKeys := by
  induction ts with
  | nil => cases ht
  | cons m ts ih =>
    simp only [distinctMembers, Bool.and_eq_true] at h
    rcases lookup_cons_cases ht with ⟨-, rfl⟩ | ht
    · exact h.1
    · exact ih h.2 ht

end Tree

namespace Graph

/-- Values that show trees, the one with its keys in another order than the other. -/
def Reordered (g g' : Graph) (v w : Value) : Prop :=
  ∃ t u, g.Shows v t ∧ g'.Shows w u ∧ t.reordered u ∧ t.distinctKeys

variable {g g' : Graph} {v w : Value}

theorem reordered_items {vs ws : List Value} {ts us : List Tree} (hv : List.Forall₂ g.Shows vs ts)
    (hw : List.Forall₂ g'.Shows ws us) (htu : Tree.reorderedItems ts us)
    (hkeys : Tree.distinctItems ts) : List.Forall₂ (g.Reordered g') vs ws := by
  induction hv generalizing ws us with
  | nil =>
    cases us with
    | nil => cases hw; exact .nil
    | cons u us => cases htu
  | @cons v t vs ts hvt hv ih =>
    cases us with
    | nil => cases htu
    | cons u us =>
      simp only [Tree.reorderedItems, Bool.and_eq_true] at htu
      simp only [Tree.distinctItems, Bool.and_eq_true] at hkeys
      cases hw with
      | cons hwu hw => exact .cons ⟨t, u, hvt, hwu, htu.1, hkeys.1⟩ (ih hw htu.2 hkeys.2)

theorem reordered_members {ms ns : List (String × Value)} {ts us : List (String × Tree)}
    (hms : ∀ key, Option.Rel g.Shows (ms.lookup key) (ts.lookup key))
    (hns : ∀ key, Option.Rel g'.Shows (ns.lookup key) (us.lookup key))
    (hperm : (ts.map Prod.fst).Perm (us.map Prod.fst)) (htu : Tree.reorderedMembers ts us)
    (hkeys : Tree.distinctMembers ts) (key : String) :
    Option.Rel (g.Reordered g') (ms.lookup key) (ns.lookup key) := by
  have hm := hms key
  have hn := hns key
  cases ht : ts.lookup key with
  | none =>
    have hu : us.lookup key = none := by
      rw [← Option.not_isSome_iff_eq_none, ← mem_keys_iff, ← hperm.mem_iff, mem_keys_iff, ht]
      exact Bool.false_ne_true
    rw [ht] at hm
    rw [hu] at hn
    generalize ms.lookup key = a, ns.lookup key = b at hm hn ⊢
    cases hm
    cases hn
    exact .none
  | some t =>
    obtain ⟨u, hu, htu'⟩ := Tree.lookup_reordered htu ht
    rw [ht] at hm
    rw [hu] at hn
    generalize ms.lookup key = a, ns.lookup key = b at hm hn ⊢
    cases hm with
    | some hvt =>
      cases hn with
      | some hwu => exact .some ⟨t, u, hvt, hwu, htu', Tree.distinctKeys_of_lookup hkeys ht⟩

theorem matchesAlike_reordered (h : g.Reordered g' v w) :
    MatchesAlike (g.Reordered g') g.plain g'.plain v w := by
  obtain ⟨t, u, hv, hw, htu, hkeys⟩ := h
  cases hv with
  | scalar =>
    cases hw with
    | scalar =>
      obtain rfl := of_decide_eq_true htu
      exact .scalar
    | array => cases htu
    | object => cases htu
  | array hnode hitems =>
    cases hw with
    | scalar => cases htu
    | object => cases htu
    | array hnode' hitems' =>
      apply MatchesAlike.node
      rw [plain, plain, hnode, hnode']
      exact .some (.array (reordered_items hitems hitems' htu hkeys))
  | object hnode hfst hlookup =>
    cases hw with
    | scalar => cases htu
    | array => cases htu
    | object hnode' hfst' hlookup' =>
      simp only [Tree.reordered, Bool.and_eq_true, decide_eq_true_eq] at htu
      simp only [Tree.distinctKeys, Bool.and_eq_true, decide_eq_true_eq] at hkeys
      have hperm := Tree.keys_reordered htu.1 htu.2 hkeys.1
      apply MatchesAlike.node
      rw [plain, plain, hnode, hnode']
      exact .some (.object ⟨by rwa [hfst, hfst'],
        reordered_members hlookup hlookup' hperm htu.2 hkeys.2⟩)

end Graph

/-- Trees equal but for the order of keys are the trees of documents that are read alike. -/
theorem alike_ofTree {t u : Tree} (ht : t.Proper) (hu : u.Proper) (h : t.reordered u) :
    (Document.ofTree t).Alike (Document.ofTree u) := by
  have hroot : (Document.ofTree t).graph.Reordered (Document.ofTree u).graph (Document.ofTree t).root
      (Document.ofTree u).root :=
    ⟨t, u, Document.shows_ofTree ht.acyclic ht.keys, Document.shows_ofTree hu.acyclic hu.keys, h,
      ht.keys⟩
  exact readPath_alike (fun v w => Graph.matchesAlike_reordered) (Graph.matchesAlike_reordered hroot)

end ApiRecords
