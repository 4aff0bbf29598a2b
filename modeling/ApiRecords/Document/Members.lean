/-!
Lists of keyed values in the order in which the keys first came.
-/

namespace ApiRecords

variable {κ α : Type}

/-- Replaces the value under a key, which stays as it was first given, or adds the entry at the end. -/
def putBy (same : κ → κ → Bool) (key : κ) (value : α) : List (κ × α) → List (κ × α)
  | [] => [(key, value)]
  | (k, v) :: rest => if same k key then (k, value) :: rest else (k, v) :: putBy same key value rest

def putMember (key : String) (value : α) (members : List (String × α)) : List (String × α) :=
  putBy (· == ·) key value members

/-- The entries of `more` put over those of `members` one by one. -/
def putMembers (members more : List (String × α)) : List (String × α) :=
  more.foldl (fun acc (key, value) => putMember key value acc) members

/-- Adds an item that is not there yet. -/
def addDistinct (same : κ → κ → Bool) (found : List κ) (x : κ) : List κ :=
  if found.any (same · x) then found else found ++ [x]

/-- The first of each group of items that are the same, in order. -/
def distinctBy (same : κ → κ → Bool) (items : List κ) : List κ := items.foldl (addDistinct same) []

section

variable [BEq κ] [LawfulBEq κ]

@[simp] theorem lookup_putBy_self (key : κ) (value : α) (members : List (κ × α)) :
    (putBy (· == ·) key value members).lookup key = some value := by
  induction members with
  | nil => simp [putBy]
  | cons m rest ih =>
    obtain ⟨k, v⟩ := m
    by_cases h : k = key
    · simp [putBy, h]
    · have h' : (key == k) = false := by simpa using fun e => h e.symm
      simp [putBy, h, List.lookup_cons, h', ih]

theorem lookup_putBy_of_ne {key other : κ} (h : other ≠ key) (value : α) (members : List (κ × α)) :
    (putBy (· == ·) key value members).lookup other = members.lookup other := by
  induction members with
  | nil =>
    have h' : (other == key) = false := by simpa using h
    simp [putBy, List.lookup_cons, h']
  | cons m rest ih =>
    obtain ⟨k, v⟩ := m
    by_cases hk : k = key
    · have h' : (other == k) = false := by simpa [hk] using h
      simp [putBy, hk, List.lookup_cons, hk ▸ h']
    · simp [putBy, hk, List.lookup_cons, ih]

end

@[simp] theorem lookup_putMember_self (key : String) (value : α) (members : List (String × α)) :
    (putMember key value members).lookup key = some value :=
  lookup_putBy_self key value members

theorem lookup_putMember_of_ne {key other : String} (h : other ≠ key) (value : α)
    (members : List (String × α)) :
    (putMember key value members).lookup other = members.lookup other :=
  lookup_putBy_of_ne h value members

end ApiRecords
