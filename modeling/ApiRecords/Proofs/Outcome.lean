import Mathlib.Data.List.Forall2

/-!
Results of steps that may fail, taken apart into the results of their parts.
-/

namespace ApiRecords

variable {ε α β : Type}

/-- Two steps in a row succeed just when the first does and the second does on its result. -/
@[simp] theorem bind_ok_iff (first : Except ε α) (next : α → Except ε β) (result : β) :
    first >>= next = .ok result ↔ ∃ a, first = .ok a ∧ next a = .ok result := by
  cases first <;> simp [bind, Except.bind]

/-- Two steps in a row fail just when the first does, or the second does on its result. -/
theorem bind_error_iff (first : Except ε α) (next : α → Except ε β) (e : ε) :
    first >>= next = .error e ↔ first = .error e ∨ ∃ a, first = .ok a ∧ next a = .error e := by
  cases first <;> simp [bind, Except.bind]

theorem map_ok_iff (x : Except ε α) (f : α → β) (result : β) :
    x.map f = .ok result ↔ ∃ a, x = .ok a ∧ f a = result := by
  cases x <;> simp [Except.map]

theorem map_error_iff {x : Except ε α} {f : α → β} {e : ε} : x.map f = .error e ↔ x = .error e := by
  cases x <;> simp [Except.map]

theorem map_bind_outcome {γ : Type} (f : β → γ) (x : Except ε α) (next : α → Except ε β) :
    (x >>= next).map f = x >>= fun a => (next a).map f := by
  cases x <;> rfl

theorem map_pure_outcome (f : α → β) (a : α) : (pure a : Except ε α).map f = pure (f a) := rfl

@[simp] theorem pure_ok_iff (a result : α) : (pure a : Except ε α) = .ok result ↔ result = a := by
  simp only [pure, Except.pure, Except.ok.injEq, eq_comm]

@[simp] theorem pure_ne_error (a : α) (e : ε) : ¬ (pure a : Except ε α) = .error e :=
  nofun

@[simp] theorem throw_ne_ok (e : ε) (result : α) : ¬ (throw e : Except ε α) = .ok result :=
  nofun

theorem exists_ok_of_toBool {x : Except ε α} (h : x.toBool) : ∃ a, x = .ok a := by
  cases x with
  | ok a => exact ⟨a, rfl⟩
  | error e => cases h

theorem exists_ok_some {γ : Type} {x : Except ε (Option β)} {f : β → γ} {c : γ}
    (h : x.toOption.join.map f = some c) : ∃ b, x = .ok (some b) ∧ f b = c := by
  rcases x with _ | _ | b
  · cases h
  · cases h
  · exact ⟨b, rfl, Option.some.inj h⟩

theorem mapM_ok_iff (f : α → Except ε β) (as : List α) (bs : List β) :
    as.mapM f = .ok bs ↔ List.Forall₂ (fun a b => f a = .ok b) as bs := by
  induction as generalizing bs with
  | nil => simp [List.mapM_nil]
  | cons a as ih =>
    simp only [List.mapM_cons, bind_ok_iff, pure_ok_iff, ih, List.forall₂_cons_left_iff]
    constructor
    · rintro ⟨b, hb, rest, hrest, rfl⟩
      exact ⟨b, rest, hb, hrest, rfl⟩
    · rintro ⟨b, rest, hb, hrest, rfl⟩
      exact ⟨b, hb, rest, hrest, rfl⟩

theorem mapM_error {f : α → Except ε β} {as : List α} {e : ε} (h : as.mapM f = .error e) :
    ∃ a ∈ as, f a = .error e := by
  induction as with
  | nil => simp at h
  | cons a as ih =>
    simp only [List.mapM_cons, bind_error_iff, pure_ne_error, and_false, exists_false, or_false] at h
    rcases h with ha | ⟨-, -, has⟩
    · exact ⟨a, List.mem_cons_self, ha⟩
    · obtain ⟨a', ha', herror⟩ := ih has
      exact ⟨a', List.mem_cons_of_mem a ha', herror⟩

theorem exists_of_forall₂ {r : α → β → Prop} {as : List α} {bs : List β} (h : List.Forall₂ r as bs) :
    ∀ a ∈ as, ∃ b, r a b := by
  have hboth : List.Forall₂ (fun a b => (∃ b, r a b) ∧ r a b) as bs :=
    h.imp fun a b hab => ⟨⟨b, hab⟩, hab⟩
  exact ((List.forall₂_and_left as bs).mp hboth).1

theorem bind_congr {x : Except ε α} {next next' : α → Except ε β}
    (h : ∀ a, x = .ok a → next a = next' a) : x >>= next = x >>= next' := by
  cases x with
  | error e => rfl
  | ok a => exact h a rfl

theorem mapM_congr {f f' : α → Except ε β} {as : List α} (h : ∀ a ∈ as, f a = f' a) :
    as.mapM f = as.mapM f' := by
  induction as with
  | nil => rfl
  | cons a as ih =>
    obtain ⟨ha, has⟩ := List.forall_mem_cons.mp h
    rw [List.mapM_cons, List.mapM_cons, ha, ih has]

theorem foldlM_congr {step step' : β → α → Except ε β} {as : List α}
    (h : ∀ a ∈ as, ∀ b, step b a = step' b a) (b : β) : as.foldlM step b = as.foldlM step' b := by
  induction as generalizing b with
  | nil => rfl
  | cons a as ih =>
    obtain ⟨ha, has⟩ := List.forall_mem_cons.mp h
    simp only [List.foldlM_cons, ha, ih has]

/-- What a successful step preserves, a successful run of steps preserves. `Inv` may speak of the
items gone through so far. -/
theorem foldlM_ok_invariant {step : β → α → Except ε β} {Inv : List α → β → Prop}
    (hstep : ∀ before b a b', Inv before b → step b a = .ok b' → Inv (before ++ [a]) b')
    {as : List α} {before : List α} {b b' : β} (hb : Inv before b)
    (h : as.foldlM step b = .ok b') : Inv (before ++ as) b' := by
  induction as generalizing before b with
  | nil =>
    obtain rfl := (pure_ok_iff _ _).mp h
    simpa using hb
  | cons a as ih =>
    simp only [List.foldlM_cons, bind_ok_iff] at h
    obtain ⟨b₁, hb₁, h⟩ := h
    simpa using ih (hstep before b a b₁ hb hb₁) h

theorem foldlM_ok_keeps {step : β → α → Except ε β} {P : β → Prop}
    (hstep : ∀ b a b', P b → step b a = .ok b' → P b') {as : List α} {b b' : β} (hb : P b)
    (h : as.foldlM step b = .ok b') : P b' :=
  @foldlM_ok_invariant _ _ _ step (fun _ => P) (fun _ => hstep) as [] b b' hb h

/-- Only the steps of the items that are gone through count. -/
theorem foldlM_ok_of_mem {step : β → α → Except ε β} {P : β → Prop} {as : List α}
    (hstep : ∀ a ∈ as, ∀ b b', P b → step b a = .ok b' → P b') {b b' : β} (hb : P b)
    (h : as.foldlM step b = .ok b') : P b' := by
  induction as generalizing b with
  | nil => exact (pure_ok_iff _ _).mp h ▸ hb
  | cons a as ih =>
    obtain ⟨ha, has⟩ := List.forall_mem_cons.mp hstep
    simp only [List.foldlM_cons, bind_ok_iff] at h
    obtain ⟨b₁, hb₁, h⟩ := h
    exact ih has (ha b b₁ hb hb₁) h

/-- A run of steps that fails has run up to one that does. -/
theorem foldlM_error {step : β → α → Except ε β} {e : ε} {as : List α} {b : β}
    (h : as.foldlM step b = .error e) : ∃ before a after b', as = before ++ a :: after ∧
      before.foldlM step b = .ok b' ∧ step b' a = .error e := by
  induction as generalizing b with
  | nil => cases h
  | cons a as ih =>
    rw [List.foldlM_cons] at h
    cases hstep : step b a with
    | error e' =>
      rw [hstep] at h
      exact ⟨[], a, as, b, rfl, rfl, hstep.trans h⟩
    | ok b₁ =>
      rw [hstep] at h
      obtain ⟨before, a', after, b', rfl, hbefore, ha'⟩ := ih h
      refine ⟨a :: before, a', after, b', rfl, ?_, ha'⟩
      rw [List.foldlM_cons, hstep]
      exact hbefore

/-! ### Results that agree unless one is a given failure -/

def AgreeBut (e : ε) (r r' : Except ε α) : Prop := r = r' ∨ r = .error e ∨ r' = .error e

variable {e : ε} {r r' : Except ε α}

theorem AgreeBut.symm (h : AgreeBut e r r') : AgreeBut e r' r :=
  h.imp Eq.symm Or.symm

/-! ### Results that stay when there is more room -/

/-- Whether a result is a given failure, or the other one is the same. -/
def StaysUnless {ε α : Type} (e : ε) (r r' : Except ε α) : Prop := r = .error e ∨ r' = r

theorem StaysUnless.agree (h : StaysUnless e r r') : AgreeBut e r r' :=
  h.elim (fun h => .inr (.inl h)) fun h => .inl h.symm

theorem StaysUnless.bind {next next' : α → Except ε β} (h : StaysUnless e r r')
    (hnext : ∀ a, StaysUnless e (next a) (next' a)) :
    StaysUnless e (r >>= next) (r' >>= next') := by
  rcases h with rfl | rfl
  · exact .inl rfl
  · cases r' with
    | error e' => exact .inr rfl
    | ok a => exact hnext a

theorem StaysUnless.foldlM {step step' : β → α → Except ε β}
    (hstep : ∀ b a, StaysUnless e (step b a) (step' b a)) (as : List α) (b : β) :
    StaysUnless e (as.foldlM step b) (as.foldlM step' b) := by
  induction as generalizing b with
  | nil => exact .inr rfl
  | cons a as ih =>
    rw [List.foldlM_cons, List.foldlM_cons]
    exact (hstep b a).bind ih

end ApiRecords
