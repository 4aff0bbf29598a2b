/-!
Parts of a text between separators.
-/

namespace ApiRecords.Text

/-- The parts between the separators, empty ones included. -/
def splitOnChar (sep : Char) : List Char → List (List Char)
  | [] => [[]]
  | c :: cs =>
    if c = sep then [] :: splitOnChar sep cs
    else match splitOnChar sep cs with
      | [] => [[c]]
      | p :: ps => (c :: p) :: ps

theorem splitOnChar_ne_nil (sep : Char) (cs : List Char) : splitOnChar sep cs ≠ [] := by
  cases cs with
  | nil => simp [splitOnChar]
  | cons c cs => simp only [splitOnChar]; split <;> (try split) <;> simp

def parts (sep : Char) (s : String) : List String := (splitOnChar sep s.toList).map String.ofList

theorem splitOnChar_of_notMem {sep : Char} {cs : List Char} (h : sep ∉ cs) :
    splitOnChar sep cs = [cs] := by
  induction cs with
  | nil => rfl
  | cons c cs ih =>
    simp only [List.mem_cons, not_or] at h
    simp [splitOnChar, Ne.symm h.1, ih h.2]

theorem splitOnChar_append {sep : Char} {cs : List Char} (h : sep ∉ cs) (rest : List Char) :
    splitOnChar sep (cs ++ sep :: rest) = cs :: splitOnChar sep rest := by
  induction cs with
  | nil => simp [splitOnChar]
  | cons c cs ih =>
    simp only [List.mem_cons, not_or] at h
    simp [splitOnChar, Ne.symm h.1, ih h.2]

/-- The text without the characters of `cs` at its start. -/
def trimStart (cs : List Char) (s : String) : String :=
  String.ofList (s.toList.dropWhile (· ∈ cs))

/-- The text without the character at its end, however often it stands there. -/
def trimEnd (c : Char) (s : String) : String :=
  String.ofList ((s.toList.reverse.dropWhile (· = c)).reverse)

end ApiRecords.Text
