import ApiRecords.Document.Members
import Mathlib.Data.List.Forall2
import Mathlib.Data.List.Nodup

/-!
Keyed values put over others, and items without repetition: what is among them, and which relations
are kept.
-/

namespace ApiRecords

theorem forall₂_imp_mem {α β : Type} {R S : α → β → Prop} {as : List α} {bs : List β}
    (h : List.Forall₂ R as bs) (hRS : ∀ a ∈ as, ∀ b ∈ bs, R a b → S a b) : List.Forall₂ S as bs := by
  induction h with
  | nil => exact .nil
  | cons hab _ ih =>
    refine .cons (hRS _ List.mem_cons_self _ List.mem_cons_self hab) (ih fun a ha b hb => ?_)
    exact hRS a (List.mem_cons_of_mem _ ha) b (List.mem_cons_of_mem _ hb)

theorem exists_mem_of_forall₂ {α β : Type} {R : α → β → Prop} {as : List α} {bs : List β}
    (h : List.Forall₂ R as bs) : ∀ a ∈ as, ∃ b ∈ bs, R a b := by
  induction h with
  | nil => simp
  | cons hab _ ih =>
    intro a ha
    rcases List.mem_cons.mp ha with rfl | ha
    · exact ⟨_, List.mem_cons_self, hab⟩
    · obtain ⟨b, hb, hab⟩ := ih a ha
      exact ⟨b, List.mem_cons_of_mem _ hb, hab⟩

theorem forall₂_comp {α β γ : Type} {R : α → β → Prop} {S : β → γ → Prop} {as : List α} {bs : List β}
    {cs : List γ} (h : List.Forall₂ R as bs) (h' : List.Forall₂ S bs cs) :
    List.Forall₂ (fun a c => ∃ b, R a b ∧ S b c) as cs := by
  induction h generalizing cs with
  | nil =>
    cases h'
    exact .nil
  | cons hab _ ih =>
    cases h' with
    | cons hbc hrest => exact .cons ⟨_, hab, hbc⟩ (ih hrest)

variable {κ α : Type}

theorem mem_putBy_cases {same : κ → κ → Bool} {key : κ} {value : α} {members : List (κ × α)}
    {m : κ × α} (h : m ∈ putBy same key value members) :
    m ∈ members ∨ m.2 = value ∧ (m.1 = key ∨ ∃ m' ∈ members, m'.1 = m.1) := by
  induction members with
  | nil =>
    obtain rfl : m = (key, value) := by simpa [putBy] using h
    exact .inr ⟨rfl, .inl rfl⟩
  | cons m' rest ih =>
    obtain ⟨k, v⟩ := m'
    rw [putBy] at h
    split at h
    · rcases List.mem_cons.mp h with rfl | h
      · exact .inr ⟨rfl, .inr ⟨(k, v), List.mem_cons_self, rfl⟩⟩
      · exact .inl (List.mem_cons_of_mem _ h)
    · rcases List.mem_cons.mp h with rfl | h
      · exact .inl List.mem_cons_self
      · refine (ih h).imp (List.mem_cons_of_mem _) (And.imp_right (Or.imp_right ?_))
        rintro ⟨m'', hm'', heq⟩
        exact ⟨m'', List.mem_cons_of_mem _ hm'', heq⟩

theorem mem_putBy {same : κ → κ → Bool} {key : κ} {value : α} {members : List (κ × α)} {m : κ × α}
    (h : m ∈ putBy same key value members) : m.2 = value ∨ m ∈ members :=
  (mem_putBy_cases h).symm.imp_left And.left

theorem key_of_mem_putBy {same : κ → κ → Bool} {key : κ} {value : α} {members : List (κ × α)}
    {m : κ × α} (h : m ∈ putBy same key value members) : m.1 = key ∨ ∃ m' ∈ members, m'.1 = m.1 :=
  (mem_putBy_cases h).elim (fun hm => .inr ⟨m, hm, rfl⟩) And.right

/-- A value that is already there under its key is not put again. -/
theorem putBy_of_kept {same : κ → κ → Bool} {key : κ} {value : α} {members : List (κ × α)}
    (hkept : ∀ m ∈ members, same m.1 key → m.2 = value) :
    putBy same key value members =
      if members.any (fun m => same m.1 key) then members else members ++ [(key, value)] := by
  induction members with
  | nil => rfl
  | cons m members ih =>
    obtain ⟨k, v⟩ := m
    obtain ⟨hfirst, hrest⟩ := List.forall_mem_cons.mp hkept
    by_cases hsame : same k key
    · obtain rfl : v = value := hfirst hsame
      simp [putBy, hsame]
    · simp only [putBy, hsame, Bool.false_eq_true, if_false, ih hrest, List.any_cons, Bool.false_or]
      split <;> rfl

theorem mem_putMembers {members more : List (String × α)} {m : String × α}
    (h : m ∈ putMembers members more) : m ∈ members ∨ ∃ m' ∈ more, m'.2 = m.2 := by
  induction more generalizing members with
  | nil => exact .inl h
  | cons m' more ih =>
    rcases ih h with h | ⟨m'', hm'', heq⟩
    · rcases mem_putBy h with heq | h
      · exact .inr ⟨m', by simp, heq.symm⟩
      · exact .inl h
    · exact .inr ⟨m'', by simp [hm''], heq⟩

section

variable {same : κ → κ → Bool} {items found : List κ} {x y : κ}

theorem mem_addDistinct (h : x ∈ addDistinct same found y) : x ∈ found ∨ x = y := by
  unfold addDistinct at h
  split at h
  · exact .inl h
  · simpa using h

theorem mem_addDistinct_of_mem (h : x ∈ found) : x ∈ addDistinct same found y := by
  unfold addDistinct
  split <;> simp [h]

theorem exists_same_mem_addDistinct (hrefl : same x x) :
    ∃ y ∈ addDistinct same found x, same y x := by
  unfold addDistinct
  split
  · rename_i h
    simpa using h
  · exact ⟨x, by simp, hrefl⟩

theorem mem_of_mem_foldl_addDistinct (h : x ∈ items.foldl (addDistinct same) found) :
    x ∈ found ∨ x ∈ items := by
  induction items generalizing found with
  | nil => exact .inl h
  | cons y items ih =>
    rcases ih h with h | h
    · rcases mem_addDistinct h with h | rfl
      · exact .inl h
      · exact .inr List.mem_cons_self
    · exact .inr (List.mem_cons_of_mem _ h)

theorem exists_same_mem_foldl_addDistinct (hrefl : same x x)
    (h : x ∈ items ∨ ∃ y ∈ found, same y x) :
    ∃ y ∈ items.foldl (addDistinct same) found, same y x := by
  induction items generalizing found with
  | nil => exact h.resolve_left List.not_mem_nil
  | cons z items ih =>
    apply ih
    rcases h with h | ⟨y, hy, hyx⟩
    · rcases List.mem_cons.mp h with rfl | h
      · exact .inr (exists_same_mem_addDistinct hrefl)
      · exact .inl h
    · exact .inr ⟨y, mem_addDistinct_of_mem hy, hyx⟩

theorem mem_of_mem_distinctBy (h : x ∈ distinctBy same items) : x ∈ items :=
  (mem_of_mem_foldl_addDistinct h).resolve_left List.not_mem_nil

/-- Of each group of items that are the same, one is kept. -/
theorem exists_same_mem_distinctBy (hrefl : same x x) (hx : x ∈ items) :
    ∃ y ∈ distinctBy same items, same y x :=
  exists_same_mem_foldl_addDistinct hrefl (.inl hx)

end

/-! ### Keys -/

theorem keys_putMember (key : String) (v : α) (ms : List (String × α)) :
    (putMember key v ms).map Prod.fst =
      if key ∈ ms.map Prod.fst then ms.map Prod.fst else ms.map Prod.fst ++ [key] := by
  induction ms with
  | nil => rfl
  | cons m rest ih =>
    by_cases hk : m.1 = key
    · simp [putMember, putBy, hk]
    · simp only [putMember, putBy, beq_iff_eq, hk, if_false, List.map_cons] at ih ⊢
      rw [ih]
      split <;> simp_all [eq_comm]

theorem nodup_putMember {ms : List (String × α)} (h : (ms.map Prod.fst).Nodup) (key : String)
    (v : α) : ((putMember key v ms).map Prod.fst).Nodup := by
  rw [keys_putMember]
  split
  · exact h
  · rename_i hkey
    exact List.nodup_append'.mpr ⟨h, by simp, by simpa using hkey⟩

theorem nodup_putMembers {ms more : List (String × α)} (h : (ms.map Prod.fst).Nodup) :
    ((putMembers ms more).map Prod.fst).Nodup := by
  induction more generalizing ms with
  | nil => exact h
  | cons m more ih => exact ih (nodup_putMember h m.1 m.2)

theorem lookup_putMembers {ms more : List (String × α)} {key : String}
    (h : ∀ m ∈ more, m.1 ≠ key) : (putMembers ms more).lookup key = ms.lookup key := by
  induction more generalizing ms with
  | nil => rfl
  | cons m more ih =>
    rw [putMembers, List.foldl_cons]
    have hm : key ≠ m.1 := fun e => h m (by simp) e.symm
    exact (ih fun m' hm' => h m' (by simp [hm'])).trans (lookup_putMember_of_ne hm m.2 ms)

theorem lookup_cons_cases {κ : Type} [BEq κ] [LawfulBEq κ] {ms : List (κ × α)} {k key : κ} {v w : α}
    (h : ((k, v) :: ms).lookup key = some w) : (key = k ∧ w = v) ∨ ms.lookup key = some w := by
  rw [List.lookup_cons] at h
  split at h
  · rename_i heq
    exact .inl ⟨by simpa using heq, by simpa using h.symm⟩
  · exact .inr h

theorem mem_of_lookup {κ : Type} [BEq κ] [LawfulBEq κ] {ms : List (κ × α)} {key : κ} {v : α}
    (h : ms.lookup key = some v) : (key, v) ∈ ms := by
  obtain ⟨before, after, rfl, -⟩ := List.lookup_eq_some_iff.mp h
  simp

theorem lookup_of_mem {ms : List (String × α)} (h : (ms.map Prod.fst).Nodup) {key : String} {v : α}
    (hm : (key, v) ∈ ms) : ms.lookup key = some v := by
  induction ms with
  | nil => simp at hm
  | cons m rest ih =>
    rw [List.map_cons, List.nodup_cons] at h
    cases List.mem_cons.mp hm with
    | inl hm => simp [← hm]
    | inr hm =>
      have hne : key ≠ m.1 := by
        intro e
        exact h.1 (e ▸ List.mem_map_of_mem hm)
      have hk : (key == m.1) = false := by simpa using hne
      rw [List.lookup_cons, hk]
      exact ih h.2 hm

/-- Members that correspond, each key in its own way: those of one key do so in its way. -/
theorem lookup_of_forall₂ {β : Type} {R : String → α → β → Prop} {ms : List (String × α)}
    {ns : List (String × β)} (h : List.Forall₂ (fun m n => m.1 = n.1 ∧ R m.1 m.2 n.2) ms ns)
    {key : String} {a : α} (ha : ms.lookup key = some a) :
    ∃ b, ns.lookup key = some b ∧ R key a b := by
  induction h with
  | nil => cases ha
  | @cons m n _ _ hmn _ ih =>
    obtain ⟨k, a'⟩ := m
    obtain ⟨_, b⟩ := n
    obtain ⟨rfl, hab⟩ := hmn
    by_cases hk : key = k
    · subst hk
      obtain rfl : a' = a := by simpa using ha
      exact ⟨b, by simp, hab⟩
    · have hk' : (key == k) = false := by simpa using hk
      rw [List.lookup_cons, hk'] at ha ⊢
      exact ih ha

theorem lookup_filterKeys [BEq κ] [LawfulBEq κ] (members : List (κ × α))
    (keep : κ → Bool) (key : κ) :
    (members.filter fun m => keep m.1).lookup key = if keep key then members.lookup key else none := by
  induction members with
  | nil => simp
  | cons m rest ih =>
    obtain ⟨k, v⟩ := m
    by_cases hk : key = k
    · subst hk
      by_cases hkeep : keep key <;> simp [hkeep, ih]
    · have hk' : (key == k) = false := by simpa using hk
      by_cases hkeep : keep k <;> simp [hkeep, List.lookup_cons, hk', ih]

theorem mem_keys_iff {ms : List (String × α)} {key : String} :
    key ∈ ms.map Prod.fst ↔ (ms.lookup key).isSome := by
  induction ms with
  | nil => simp
  | cons m ms ih =>
    by_cases hk : key = m.1
    · simp [hk]
    · have hk' : (key == m.1) = false := by simpa using hk
      rw [List.map_cons, List.mem_cons, List.lookup_cons, hk', ih]
      simp [hk]

/-- Values put over others come first. -/
theorem lookup_putMembers_of_nodup {ms more : List (String × α)}
    (h : (more.map Prod.fst).Nodup) (key : String) :
    (putMembers ms more).lookup key = (more.lookup key).or (ms.lookup key) := by
  induction more generalizing ms with
  | nil => simp [putMembers]
  | cons m more ih =>
    obtain ⟨k, v⟩ := m
    rw [List.map_cons, List.nodup_cons] at h
    have hput : putMembers ms ((k, v) :: more) = putMembers (putMember k v ms) more := rfl
    rw [hput, ih h.2, List.lookup_cons]
    by_cases hk : key = k
    · subst hk
      have hnone : more.lookup key = none := by
        rw [← Option.not_isSome_iff_eq_none, ← mem_keys_iff]
        exact h.1
      simp [hnone]
    · have hk' : (key == k) = false := by simpa using hk
      rw [hk', lookup_putMember_of_ne hk]

/-! ### Keys that come once -/

theorem putMember_ne_nil (key : String) (v : α) (ms : List (String × α)) :
    putMember key v ms ≠ [] := by
  cases ms with
  | nil => simp [putMember, putBy]
  | cons m ms =>
    obtain ⟨k, w⟩ := m
    unfold putMember putBy
    split <;> simp

theorem putMembers_ne_nil {ms more : List (String × α)} (h : ms ≠ [] ∨ more ≠ []) :
    putMembers ms more ≠ [] := by
  induction more generalizing ms with
  | nil => simpa [putMembers] using h
  | cons m more ih => exact ih (.inl (putMember_ne_nil m.1 m.2 ms))

theorem putMember_of_notMem {key : String} {ms : List (String × α)}
    (h : key ∉ ms.map Prod.fst) (v : α) : putMember key v ms = ms ++ [(key, v)] := by
  induction ms with
  | nil => rfl
  | cons m ms ih =>
    rw [List.map_cons, List.mem_cons, not_or] at h
    have hne : (m.1 == key) = false := by simpa using Ne.symm h.1
    simp only [putMember, putBy, hne] at ih ⊢
    simp [ih h.2]

theorem putMembers_of_nodup {ms more : List (String × α)}
    (h : (ms.map Prod.fst ++ more.map Prod.fst).Nodup) : putMembers ms more = ms ++ more := by
  induction more generalizing ms with
  | nil => simp [putMembers]
  | cons m more ih =>
    have hnotMem : m.1 ∉ ms.map Prod.fst := fun hmem =>
      (List.disjoint_of_nodup_append h) hmem (by simp)
    have hput : putMembers ms (m :: more) = putMembers (ms ++ [m]) more := by
      rw [← putMember_of_notMem hnotMem m.2]
      rfl
    rw [hput, ih (by simpa using h), List.append_assoc, List.singleton_append]

section

variable (weight : α → Nat)

/-- What all values weigh together. -/
def totalWeight : List (String × α) → Nat
  | [] => 0
  | m :: ms => weight m.2 + totalWeight ms

variable {weight}

theorem totalWeight_putMember {ms : List (String × α)} (hpos : ∀ m ∈ ms, 0 < weight m.2) (key : String)
    (v : α) : totalWeight weight (putMember key v ms) ≤ totalWeight weight ms + weight v ∧
      (totalWeight weight (putMember key v ms) = totalWeight weight ms + weight v ↔
        key ∉ ms.map Prod.fst) := by
  by_cases hkey : key ∈ ms.map Prod.fst
  · suffices totalWeight weight (putMember key v ms) < totalWeight weight ms + weight v from
      ⟨Nat.le_of_lt this, by simpa [hkey] using Nat.ne_of_lt this⟩
    induction ms with
    | nil => cases hkey
    | cons m ms ih =>
      obtain ⟨hm, hms⟩ := List.forall_mem_cons.mp hpos
      by_cases hk : m.1 = key
      · have hput : putMember key v (m :: ms) = (m.1, v) :: ms := by simp [putMember, putBy, hk]
        rw [hput]
        simp only [totalWeight]
        omega
      · have hput : putMember key v (m :: ms) = m :: putMember key v ms := by simp [putMember, putBy, hk]
        have ih := ih hms (by simpa [Ne.symm hk] using hkey)
        rw [hput]
        simp only [totalWeight] at ih ⊢
        omega
  · have happend : ∀ ms : List (String × α),
        totalWeight weight (ms ++ [(key, v)]) = totalWeight weight ms + weight v := fun ms => by
      induction ms with
      | nil => simp [totalWeight]
      | cons m ms ih => simp [totalWeight, ih, Nat.add_assoc]
    rw [putMember_of_notMem hkey, happend]
    simp [hkey]

/-- Values that are put over one another do not gain weight, and keep all of it just when their keys are
distinct. -/
theorem totalWeight_putMembers {ms more : List (String × α)} (hms : ∀ m ∈ ms, 0 < weight m.2)
    (hmore : ∀ m ∈ more, 0 < weight m.2) (hkeys : (ms.map Prod.fst).Nodup) :
    totalWeight weight (putMembers ms more) ≤ totalWeight weight ms + totalWeight weight more ∧
      (totalWeight weight (putMembers ms more) = totalWeight weight ms + totalWeight weight more ↔
        (ms.map Prod.fst ++ more.map Prod.fst).Nodup) := by
  induction more generalizing ms with
  | nil => simpa [putMembers, totalWeight] using hkeys
  | cons m more ih =>
    obtain ⟨hm, hmore⟩ := List.forall_mem_cons.mp hmore
    have hput : putMembers ms (m :: more) = putMembers (putMember m.1 m.2 ms) more := rfl
    have hpos : ∀ m' ∈ putMember m.1 m.2 ms, 0 < weight m'.2 := fun m' hm' =>
      (mem_putBy hm').elim (fun heq => heq ▸ hm) (hms m')
    obtain ⟨hle, heq⟩ := totalWeight_putMember hms m.1 m.2
    obtain ⟨hle', heq'⟩ := ih hpos hmore (nodup_putMember hkeys m.1 m.2)
    rw [hput, totalWeight]
    refine ⟨by omega, fun htotal => ?_, fun hnodup => ?_⟩
    · have hnotMem := heq.mp (by omega)
      have hnodup := heq'.mp (by omega)
      rw [putMember_of_notMem hnotMem] at hnodup
      simpa using hnodup
    · have hnotMem : m.1 ∉ ms.map Prod.fst := fun hmem =>
        (List.disjoint_of_nodup_append hnodup) hmem (by simp)
      have hrest := heq'.mpr (by rw [putMember_of_notMem hnotMem]; simpa using hnodup)
      rw [hrest, heq.mpr hnotMem]
      omega

end

/-! ### Members that correspond -/

theorem map_eq_map_iff_forall₂ {β γ : Type} {f : α → γ} {f' : β → γ} {as : List α} {bs : List β} :
    as.map f = bs.map f' ↔ List.Forall₂ (fun a b => f a = f' b) as bs := by
  rw [← List.forall₂_eq_eq_eq, List.forall₂_map_left_iff, List.forall₂_map_right_iff]

section

variable {β : Type}

/-- The same keys in the same order, with values that `R` relates. -/
abbrev MembersRel (R : α → β → Prop) : List (String × α) → List (String × β) → Prop :=
  List.Forall₂ fun m n => m.1 = n.1 ∧ R m.2 n.2

namespace MembersRel

variable {R : α → β → Prop} {ms : List (String × α)} {ns : List (String × β)}

theorem keys (h : MembersRel R ms ns) : ms.map Prod.fst = ns.map Prod.fst :=
  map_eq_map_iff_forall₂.mpr (h.imp fun _ _ hmn => hmn.1)

theorem lookup (h : MembersRel R ms ns) (key : String) :
    Option.Rel R (ms.lookup key) (ns.lookup key) := by
  induction h with
  | nil => exact .none
  | @cons m n _ _ hmn _ ih =>
    obtain ⟨hkey, hvalue⟩ := hmn
    rw [List.lookup_cons, List.lookup_cons, hkey]
    cases key == n.1 with
    | true => exact .some hvalue
    | false => exact ih

theorem putMember {v : α} {w : β} (h : MembersRel R ms ns) (key : String) (hvw : R v w) :
    MembersRel R (putMember key v ms) (ApiRecords.putMember key w ns) := by
  induction h with
  | nil => exact .cons ⟨rfl, hvw⟩ .nil
  | @cons m n _ _ hmn hrest ih =>
    obtain ⟨hkey, hvalue⟩ := hmn
    simp only [ApiRecords.putMember, putBy, hkey] at ih ⊢
    split
    · exact .cons ⟨rfl, hvw⟩ hrest
    · exact .cons ⟨rfl, hvalue⟩ ih

theorem putMembers {ms' : List (String × α)} {ns' : List (String × β)} (h : MembersRel R ms ns)
    (h' : MembersRel R ms' ns') :
    MembersRel R (putMembers ms ms') (ApiRecords.putMembers ns ns') := by
  induction h' generalizing ms ns with
  | nil => exact h
  | @cons m n _ _ hmn _ ih =>
    obtain ⟨k, v⟩ := m
    obtain ⟨_, w⟩ := n
    obtain ⟨rfl, hvalue⟩ := hmn
    exact ih (h.putMember k hvalue)

theorem filterKeys (h : MembersRel R ms ns) (p : String → Bool) :
    MembersRel R (ms.filter fun m => p m.1) (ns.filter fun n => p n.1) := by
  induction h with
  | nil => exact .nil
  | cons hmn _ ih =>
    rw [List.filter_cons, List.filter_cons, hmn.1]
    split
    · exact .cons hmn ih
    · exact ih

end MembersRel

/-- A value put over another leaves all the others. -/
theorem membersRel_putMember {R : α → α → Prop} {ms : List (String × α)} {key : String} {v w : α}
    (hrefl : ∀ a, R a a) (h : ms.lookup key = some v) (hvw : R v w) :
    MembersRel R ms (putMember key w ms) := by
  induction ms with
  | nil => simp at h
  | cons m rest ih =>
    obtain ⟨k, a⟩ := m
    by_cases hk : k = key
    · subst hk
      obtain rfl : a = v := by simpa using h
      simpa [putMember, putBy] using ⟨hvw, fun _ b _ => hrefl b⟩
    · have hk' : (key == k) = false := by simpa using fun e => hk e.symm
      have ih := ih (by simpa [List.lookup_cons, hk'] using h)
      simpa [putMember, putBy, hk] using ⟨hrefl a, ih⟩

end

end ApiRecords
