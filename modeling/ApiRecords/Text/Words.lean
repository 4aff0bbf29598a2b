/-!
Words of a name, and the spellings built from them. A word is a run of capitals in front of a
capitalised word, a run of small letters with at most one capital in front, a run of capitals, or a
run of digits. Every other character separates. Letters and digits are the ASCII ones.
-/

namespace ApiRecords.Text

def isWordChar (c : Char) : Bool := c.isUpper || c.isLower || c.isDigit

/-- How many characters after `c` belong to its word. Capitals in front of a small letter leave the
last of them to the next word. -/
def wordRest (c : Char) (cs : List Char) : Nat :=
  if c.isLower then (cs.takeWhile Char.isLower).length
  else if c.isDigit then (cs.takeWhile Char.isDigit).length
  else
    let caps := (cs.takeWhile Char.isUpper).length
    match ((cs.drop caps).takeWhile Char.isLower).length with
    | 0 => caps
    | small + 1 => if caps = 0 then small + 1 else caps - 1

/-- The next `n` characters, which end a word, and the words after them. -/
def splitAfter : Nat → List Char → List Char × List (List Char)
  | _, [] => ([], [])
  | n + 1, c :: cs =>
    let (w, ws) := splitAfter n cs
    (c :: w, ws)
  | 0, c :: cs =>
    if isWordChar c then
      let (w, ws) := splitAfter (wordRest c cs) cs
      ([], (c :: w) :: ws)
    else ([], (splitAfter 0 cs).2)

def wordsOf (cs : List Char) : List (List Char) := (splitAfter 0 cs).2

theorem splitAfter_eq (n : Nat) (cs : List Char) :
    splitAfter n cs = (cs.take n, wordsOf (cs.drop n)) := by
  induction cs generalizing n with
  | nil => cases n <;> rfl
  | cons c cs ih =>
    cases n with
    | zero => unfold wordsOf; simp only [splitAfter, List.take_zero, List.drop_zero]; split <;> rfl
    | succ n => simp [splitAfter, ih]

@[simp] theorem wordsOf_nil : wordsOf [] = [] := rfl

theorem wordsOf_cons (c : Char) (cs : List Char) :
    wordsOf (c :: cs) =
      if isWordChar c then
        (c :: cs.take (wordRest c cs)) :: wordsOf (cs.drop (wordRest c cs))
      else wordsOf cs := by
  conv => lhs; unfold wordsOf splitAfter
  split
  · rw [splitAfter_eq]
  · rw [wordsOf]

def words (s : String) : List String := (wordsOf s.toList).map String.ofList

def lower (w : String) : String := String.ofList (w.toList.map Char.toLower)

def upper (w : String) : String := String.ofList (w.toList.map Char.toUpper)

def capitalize (w : String) : String :=
  match w.toList with
  | [] => ""
  | c :: cs => String.ofList (c.toUpper :: cs.map Char.toLower)

def snakeCase (s : String) : String := "_".intercalate ((words s).map lower)

def camelCase (s : String) : String :=
  match words s with
  | [] => ""
  | w :: ws => lower w ++ String.join (ws.map capitalize)

def upperCase (s : String) : String := " ".intercalate ((words s).map upper)

def constantCase (s : String) : String := "_".intercalate ((words s).map upper)

end ApiRecords.Text
