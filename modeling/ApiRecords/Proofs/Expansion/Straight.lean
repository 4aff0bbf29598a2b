import ApiRecords.Proofs.Expansion.Unfolding
import Mathlib.Data.List.Induction

/-!
Documents in which no reference points at another or leads through one. What the references of such
a document stand for does not change while it is expanded.
-/

namespace ApiRecords

theorem Pointer.tokens_ne_nil (ref : String) : tokens ref ≠ [] := by
  simp [tokens, Text.parts, Text.splitOnChar_ne_nil]

theorem Pointer.mem_of_itemAt {α : Type} {items : List α} {i : Int} {a : α}
    (h : itemAt items i = some a) : a ∈ items := by
  unfold itemAt at h
  split at h
  · exact List.mem_of_getElem? h
  · split at h
    · exact List.mem_of_getElem? h
    · cases h

theorem Graph.WellFormed.has_step {g : Graph} {v w : Value} {token : String} (hg : g.WellFormed)
    (h : g.step v token = some w) : g.Has w := by
  unfold Graph.step at h
  cases hn : g.node? v with
  | none => simp [hn] at h
  | some n =>
    cases n with
    | object members =>
      have hat : g.at? v (.key token) = some w := by simpa [Graph.at?, hn, Node.at?] using h
      exact hg.values _ _ _ hat
    | array items =>
      simp only [hn] at h
      obtain ⟨i, -, hitem⟩ := Option.bind_eq_some_iff.mp h
      obtain ⟨j, hj⟩ := List.mem_iff_getElem?.mp (Pointer.mem_of_itemAt hitem)
      have hat : g.at? v (.index j) = some w := by simpa [Graph.at?, hn, Node.at?] using hj
      exact hg.values _ _ _ hat

theorem Graph.WellFormed.has_follow {g : Graph} {v w : Value} {tokens : List String}
    (hg : g.WellFormed) (hv : g.Has v) (h : tokens.foldlM g.step v = some w) : g.Has w := by
  induction tokens generalizing v with
  | nil => exact Option.some.inj h ▸ hv
  | cons token tokens ih =>
    rw [List.foldlM_cons] at h
    obtain ⟨u, hu, h⟩ := Option.bind_eq_some_iff.mp h
    exact ih (hg.has_step hu) h

/-! ### Straight references -/

namespace Document

/-- Whether no reference of a document points at another, or leads through one. -/
def Straight (doc : Document) : Prop :=
  ∀ v ref, doc.graph.refText? v = some ref → ∀ before after u,
    Pointer.tokens ref = before ++ after → before ≠ [] →
    before.foldlM doc.graph.step doc.root = some u → doc.graph.refText? u = none

def target? (doc : Document) (ref : String) : Option Value := (doc.target ref).toOption

/-- Reads the document with each reference below the root giving way to its target. -/
def readTargets (doc : Document) (path : List Slot) : Option Shape :=
  readPath doc.graph.plain (doc.graph.unfold doc.target?) path doc.root

variable {doc : Document} {ref : String} {v : Value}

theorem resolve?_eq (doc : Document) (ref : String) : doc.resolve? ref =
    if ref.toList.head? = some '#' then (Pointer.tokens ref).foldlM doc.graph.step doc.root
    else none := by
  rw [resolve?, resolve]
  by_cases hlocal : ref.toList.head? = some '#'
  · rw [if_neg (not_not.mpr hlocal), if_pos hlocal]
    cases (Pointer.tokens ref).foldlM doc.graph.step doc.root <;> rfl
  · rw [if_pos hlocal, if_neg hlocal]
    rfl

theorem Straight.plain (h : doc.Straight) (href : doc.graph.refText? v = some ref) {t : Value}
    (ht : doc.resolve? ref = some t) : doc.graph.refText? t = none := by
  rw [resolve?_eq] at ht
  split at ht
  · exact h v ref href _ [] t (List.append_nil _).symm (Pointer.tokens_ne_nil ref) ht
  · cases ht

theorem target?_eq_some : doc.target? ref = some v ↔ doc.target ref = .ok v := by
  rw [target?]
  cases doc.target ref <;> simp [Except.toOption]

theorem exists_resolve_of_target {t : Value} (h : doc.target ref = .ok t) :
    ∃ u, doc.resolve ref = .ok u ∧ (doc.graph.object? u).isSome := by
  simp only [target, bind_ok_iff] at h
  obtain ⟨u, hu, h⟩ := h
  refine ⟨u, ?_, ?_⟩
  · cases hr : doc.resolve ref with
    | error e => rw [hr] at hu; cases hu
    | ok w => rw [hr] at hu; cases hu; rfl
  · cases hobject : doc.graph.object? u with
    | none => simp [hobject] at h
    | some members => rfl

/-- A straight reference stands for the mapping it leads to. -/
theorem Straight.target?_iff (h : doc.Straight) (href : doc.graph.refText? v = some ref) {t : Value} :
    doc.target? ref = some t ↔ doc.resolve? ref = some t ∧ (doc.graph.object? t).isSome := by
  rw [target?_eq_some]
  constructor
  · intro htarget
    obtain ⟨u, hresolve, hobject⟩ := exists_resolve_of_target htarget
    have hu : doc.resolve? ref = some u := by rw [resolve?, hresolve]; rfl
    have hself := target_of_resolve hresolve hobject (h.plain href hu)
    obtain rfl := Except.ok.inj (htarget.symm.trans hself)
    exact ⟨hu, hobject⟩
  · rintro ⟨ht, hobject⟩
    cases hresolve : doc.resolve ref with
    | error e => rw [resolve?, hresolve] at ht; cases ht
    | ok u =>
      rw [resolve?, hresolve] at ht
      obtain rfl := Option.some.inj ht
      exact target_of_resolve hresolve hobject (h.plain href (by rw [resolve?, hresolve]; rfl))

theorem Straight.target?_eq (h : doc.Straight) (href : doc.graph.refText? v = some ref) :
    doc.target? ref = (doc.resolve? ref).filter fun t => (doc.graph.object? t).isSome := by
  apply Option.ext
  intro t
  rw [h.target?_iff href, Option.filter_eq_some_iff]

end Document

/-! ### Targets during a run -/

namespace Expansion

variable {origin : Document} {x y : Expansion} {id : Nat} {slot : Slot} {v w : Value}
  {ref : String} {depth : Nat}

/-- What a straight reference leads past is still there. -/
theorem follow_steps (horigin : origin.WellFormed) (h : origin.Straight)
    (hs : Steps ⟨origin, [], []⟩ x) (href : origin.graph.refText? v = some ref)
    {before after : List String} (htokens : Pointer.tokens ref = before ++ after) :
    before.foldlM x.doc.graph.step origin.root = before.foldlM origin.graph.step origin.root := by
  induction before using List.reverseRecOn generalizing after with
  | nil => rfl
  | append_singleton before token ih =>
    have hbefore := @ih (token :: after) (by simp [htokens])
    rw [List.foldlM_append, List.foldlM_append, hbefore]
    cases hu : before.foldlM origin.graph.step origin.root with
    | none => rfl
    | some u =>
      have hkept : Option.Rel origin.graph.Kept (origin.graph.step u token)
          (x.doc.graph.step u token) :=
        (valid_start horigin).step_kept hs (horigin.graph.has_follow horigin.root hu) token
      simp only [Option.bind_eq_bind, Option.bind_some, List.foldlM_cons, List.foldlM_nil]
      generalize ha : origin.graph.step u token = a, x.doc.graph.step u token = b at hkept ⊢
      cases hkept with
      | none => rfl
      | @some a b hkept =>
        have hlead : (before ++ [token]).foldlM origin.graph.step origin.root = some a := by
          simp [List.foldlM_append, hu, ha]
        rw [hkept (h v ref href _ after a htokens (by simp) hlead)]

theorem resolve?_steps (horigin : origin.WellFormed) (h : origin.Straight)
    (hs : Steps ⟨origin, [], []⟩ x) (href : origin.graph.refText? v = some ref) :
    x.doc.resolve? ref = origin.resolve? ref := by
  have hfollow := follow_steps horigin h hs href (List.append_nil _).symm
  rw [Document.resolve?_eq, Document.resolve?_eq, ((valid_start horigin).steps hs).root, hfollow]

theorem straight_steps (horigin : origin.WellFormed) (h : origin.Straight)
    (hs : Steps ⟨origin, [], []⟩ x) : x.doc.Straight := by
  have hx := (valid_start horigin).steps hs
  intro v ref href before after u htokens hne hu
  rw [hx.refText?] at href ⊢
  rw [hx.root, follow_steps horigin h hs href htokens] at hu
  exact h v ref href before after u htokens hne hu

/-- What a straight reference stands for stays the same. -/
theorem target?_steps (horigin : origin.WellFormed) (h : origin.Straight)
    (hs : Steps ⟨origin, [], []⟩ x) (href : origin.graph.refText? v = some ref) :
    x.doc.target? ref = origin.target? ref := by
  have hx := (valid_start horigin).steps hs
  apply Option.ext
  intro t
  rw [(straight_steps horigin h hs).target?_iff ((hx.refText? v).trans href), h.target?_iff href,
    resolve?_steps horigin h hs href]
  apply and_congr_right
  intro ht
  rw [Document.resolve?_eq] at ht
  split at ht
  · rw [(valid_start horigin).isSome_object? hs (horigin.graph.has_follow horigin.root ht)]
  · cases ht

theorem faithful_straight (horigin : origin.WellFormed) (h : origin.Straight)
    (hs : Steps ⟨origin, [], []⟩ x) : Faithful origin origin.target? x := by
  apply faithful_of_targets horigin _ _ hs
  · intro x v ref target hs href htarget
    rw [← target?_steps horigin h hs href, Document.target?_eq_some, htarget]
  · intro v ref target href htarget
    exact Graph.has_of_object? ((h.target?_iff href).mp htarget).2

end Expansion

end ApiRecords
