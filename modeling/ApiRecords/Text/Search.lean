/-!
Parts found in a text.
-/

namespace ApiRecords.Text

def containsChars (pattern : List Char) : List Char → Bool
  | [] => pattern.isEmpty
  | c :: cs => pattern.isPrefixOf (c :: cs) || containsChars pattern cs

def contains (s pattern : String) : Bool := containsChars pattern.toList s.toList

def dropSuffix (s suffix : String) : String :=
  if suffix.toList.isSuffixOf s.toList then
    String.ofList (s.toList.take (s.toList.length - suffix.toList.length))
  else s

theorem isSuffixOf_append (s suffix : String) : suffix.toList.isSuffixOf (s ++ suffix).toList := by
  rw [List.isSuffixOf_iff_suffix, String.toList_append]
  exact List.suffix_append ..

theorem dropSuffix_append (s suffix : String) : dropSuffix (s ++ suffix) suffix = s := by
  rw [dropSuffix, if_pos (isSuffixOf_append s suffix)]
  simp [String.toList_append]

theorem containsChars_of_infix {pattern cs : List Char} (h : pattern <:+: cs) :
    containsChars pattern cs := by
  induction cs with
  | nil => simp [containsChars, List.infix_nil.mp h]
  | cons c cs ih =>
    rw [containsChars, Bool.or_eq_true, List.isPrefixOf_iff_prefix]
    exact (List.infix_cons_iff.mp h).imp_right ih

theorem contains_append (before pattern after : String) :
    contains (before ++ pattern ++ after) pattern := by
  refine containsChars_of_infix ⟨before.toList, after.toList, ?_⟩
  rw [String.toList_append, String.toList_append]

end ApiRecords.Text
