import ApiRecords.Model.Accessor
import ApiRecords.Proofs.Objects.Verbatim
import ApiRecords.Proofs.Words

/-!
Accessors as they are read: a text between quotes is a key, and an arrow function follows a path from one
of its parameters. The names of an attribute stand between the quotes as they are, so that an accessor is
read as it is meant just when no name in it has a character that ends a text or begins an escape.
-/

namespace ApiRecords.ObjectNotation

/-- What an accessor reads: a key of the record, or what the names lead to from a parameter, given by its
index. -/
inductive Access where
  | key (name : String)
  | path (parameter : Nat) (names : List String)
  deriving DecidableEq

namespace Access

def names : Access → List String
  | key name => [name]
  | path _ names => names

/-- What the accessor of an attribute with these parts is meant to read. -/
def ofParts (spell : String → String) : List String → Access
  | [] => path 0 []
  | [name] => key (spell name)
  | first :: rest =>
    if first = parentSegment then path 1 (rest.map spell) else path 0 ((first :: rest).map spell)

/-! ### Reading -/

/-- Parameters: names, with commas between them. -/
def readParameters : List Token → Option (List String)
  | [] => some []
  | [.name s] => some [s]
  | .name s :: .mark ',' :: ts => (readParameters ts).map (s :: ·)
  | _ => none

/-- Names in brackets, one after the other. -/
def readBrackets : List Token → Option (List String)
  | [] => some []
  | .mark '[' :: .text units :: .mark ']' :: ts =>
    (decode units).bind fun cs => (readBrackets ts).map (String.ofList cs :: ·)
  | _ => none

/-- A path from one of the parameters. -/
def readPath (parameters : List String) : List Token → Option Access
  | .name s :: ts =>
    if parameters.Nodup ∧ (∀ p ∈ parameters, p ∉ reserved) then
      (parameters.idxOf? s).bind fun i => (readBrackets ts).map (path i)
    else none
  | _ => none

/-- What stands after the arrow, which has its place on the line of the parameters. -/
def afterArrow (cs : List Char) : Option (List Char) :=
  match cs.dropWhile (· = ' ') with
  | '=' :: '>' :: body => some body
  | _ => none

/-- An arrow function, from its parameters on. -/
def readArrow (cs : List Char) : Option Access := do
  let parameters ← readParameters (← tokens asciiNames (cs.takeWhile (· ≠ ')')))
  let body ← afterArrow ((cs.dropWhile (· ≠ ')')).drop 1)
  readPath parameters (← tokens asciiNames body)

def read? (expr : String) : Option Access :=
  match expr.toList with
  | '(' :: cs => readArrow cs
  | cs =>
    match tokens asciiNames cs with
    | some [.text units] => (decode units).map fun cs => key (String.ofList cs)
    | _ => none

example : read? "(value, parent) => parent['owner']['id']" = some (.path 1 ["owner", "id"]) := by
  decide +kernel

/-! ### Names between quotes -/

/-- Whether a name is the same between quotes: no character ends the text or begins an escape. -/
def IsPlain (s : String) : Prop := ∀ c ∈ s.toList, c ∉ ['\'', '\\', '\n', '\r']

instance (s : String) : Decidable (IsPlain s) := inferInstanceAs (Decidable (∀ c ∈ _, _))

/-- Names in brackets and quotes. -/
def pathChars (names : List String) : List Char :=
  names.flatMap fun s => '[' :: '\'' :: s.toList ++ ['\'', ']']

theorem pathChars_cons (s : String) (names : List String) :
    pathChars (s :: names) = '[' :: '\'' :: s.toList ++ '\'' :: ']' :: pathChars names := by
  simp [pathChars]

theorem toList_indexPath (spell : String → String) (segments : List String) :
    (indexPath spell segments).toList = pathChars (segments.map spell) := by
  induction segments with
  | nil => rfl
  | cons s segments ih =>
    rw [List.map_cons, pathChars_cons, ← ih]
    simp [indexPath]

theorem verbatim_mark {c d : Char} {cs : List Char} {ts : List Token} (h : Verbatim (c :: cs) (.mark d :: ts)) :
    Verbatim cs ts := by
  generalize hcs : c :: cs = chars at h
  cases h with
  | mark _ rest =>
    cases hcs
    exact rest

/-- A text that is read as it stands between quotes, and whose value is what stands there. -/
theorem verbatim_text {s rest : List Char} {units : List Nat} {ts : List Token}
    (h : Verbatim ('\'' :: s ++ '\'' :: rest) (.text units :: ts)) (hs : decode units = some s) :
    (∀ c ∈ s, c ∉ ['\'', '\\', '\n', '\r']) ∧ Verbatim rest ts := by
  generalize hcs : '\'' :: s ++ '\'' :: rest = cs at h
  cases h with
  | text hquote hinside hrest =>
    rw [decode_units] at hs
    cases hs
    obtain ⟨rfl, hcs⟩ := List.cons.inj hcs
    obtain ⟨-, rfl⟩ := List.cons.inj (List.append_cancel_left hcs)
    exact ⟨hinside, hrest⟩

/-- What is read as names in brackets takes no fewer characters than the names so written. -/
theorem length_pathChars_le {ts : List Token} {names : List String} (h : readBrackets ts = some names) :
    (pathChars names).length ≤ totalExtent ts := by
  fun_induction readBrackets generalizing names with
  | case1 =>
    cases h
    exact Nat.zero_le _
  | case2 units ts ih =>
    obtain ⟨cs, hcs, h⟩ := Option.bind_eq_some_iff.mp h
    obtain ⟨rest, hrest, rfl⟩ := Option.map_eq_some_iff.mp h
    have := length_le_of_decode hcs
    have := ih hrest
    rw [pathChars_cons, String.toList_ofList]
    simp only [totalExtent, Token.extent, List.length_cons, List.length_append]
    omega
  | case3 => cases h

theorem plain_of_verbatim {ts : List Token} {names : List String} (h : readBrackets ts = some names)
    (hts : Verbatim (pathChars names) ts) : ∀ s ∈ names, IsPlain s := by
  fun_induction readBrackets generalizing names with
  | case1 =>
    cases h
    nofun
  | case2 units ts ih =>
    obtain ⟨cs, hcs, h⟩ := Option.bind_eq_some_iff.mp h
    obtain ⟨rest, hrest, rfl⟩ := Option.map_eq_some_iff.mp h
    rw [pathChars_cons, String.toList_ofList] at hts
    obtain ⟨hplain, hts⟩ := verbatim_text (verbatim_mark hts) hcs
    refine List.forall_mem_cons.mpr ⟨?_, ih hrest (verbatim_mark hts)⟩
    rwa [IsPlain, String.toList_ofList]
  | case3 => cases h

theorem verbatim_pathChars {names : List String} (h : ∀ s ∈ names, IsPlain s) :
    ∃ ts, Verbatim (pathChars names) ts ∧ readBrackets ts = some names := by
  induction names with
  | nil => exact ⟨[], .nil, rfl⟩
  | cons s names ih =>
    obtain ⟨hs, hnames⟩ := List.forall_mem_cons.mp h
    obtain ⟨ts, hts, hread⟩ := ih hnames
    refine ⟨.mark '[' :: .text (units s.toList) :: .mark ']' :: ts, ?_, ?_⟩
    · rw [pathChars_cons]
      exact .mark (by decide) (.text (by decide) hs (.mark (by decide) hts))
    · rw [readBrackets, decode_units, Option.bind_some, hread]
      simp

/-- Names in brackets are read as they are just when all of them are plain. -/
theorem readBrackets_iff {names : List String} :
    ((tokens asciiNames (pathChars names)).bind readBrackets = some names) ↔ ∀ s ∈ names, IsPlain s := by
  constructor
  · intro h
    obtain ⟨ts, hts, h⟩ := Option.bind_eq_some_iff.mp h
    exact plain_of_verbatim h (verbatim_of_tokens hts (length_pathChars_le h))
  · intro h
    obtain ⟨ts, hts, hread⟩ := verbatim_pathChars h
    rw [hts.tokens_eq, Option.bind_some, hread]

/-! ### Accessors -/

theorem read?_quoted_iff {s : String} : read? ("'" ++ s ++ "'") = some (key s) ↔ IsPlain s := by
  have hchars : ("'" ++ s ++ "'").toList = '\'' :: s.toList ++ ['\''] := by simp
  rw [read?, hchars]
  constructor
  · intro h
    split at h
    · next heq => cases heq
    split at h
    · next units htokens =>
      obtain ⟨cs, hcs, h⟩ := Option.map_eq_some_iff.mp h
      have hs : s.toList = cs := by
        cases h
        simp
      rw [← hs] at hcs
      have hlength := length_le_of_decode hcs
      refine (verbatim_text (verbatim_of_tokens htokens ?_) hcs).1
      simp only [totalExtent, Token.extent, List.length_cons, List.length_append, List.length_nil]
      omega
    · cases h
  · intro h
    have htokens : tokens asciiNames ('\'' :: s.toList ++ ['\'']) = some [.text (units s.toList)] :=
      (Verbatim.text (by decide) h .nil).tokens_eq
    split
    · next heq => cases heq
    · rw [htokens]
      simp [decode_units]

/-- A name before names in brackets is a token of its own. -/
theorem tokens_name_path {name read : List Char}
    (h : run asciiNames .between name = some ([], .name read)) (path : List Char) :
    tokens asciiNames (name ++ '[' :: path) =
      (tokens asciiNames ('[' :: path)).map (.name (String.ofList read) :: ·) := by
  have hbracket : next asciiNames (.name read) '[' =
      some ([.name (String.ofList read), .mark '['], .between) := rfl
  have hafter : tokensFrom asciiNames (.name read) ('[' :: path) =
      (tokens asciiNames ('[' :: path)).map (.name (String.ofList read) :: ·) := by
    rw [tokens, tokensFrom_cons_of_next hbracket, tokensFrom_cons_of_next (next_mark (by decide)),
      Option.map_map]
    rfl
  rw [tokens, tokensFrom_append_of_run h, hafter]
  exact Option.map_id'

/-- An arrow function reads what its body has in brackets, from the parameter named there. -/
theorem readArrow_eq {parameters name read : List Char} {ps : List String} {i : Nat}
    (hend : ')' ∉ parameters) (htokens : (tokens asciiNames parameters).bind readParameters = some ps)
    (hps : ps.Nodup ∧ ∀ p ∈ ps, p ∉ reserved)
    (hname : run asciiNames .between name = some ([], .name read))
    (hi : ps.idxOf? (String.ofList read) = some i) (path : List Char) :
    readArrow (parameters ++ ')' :: ' ' :: '=' :: '>' :: name ++ '[' :: path) =
      ((tokens asciiNames ('[' :: path)).bind readBrackets).map (Access.path i) := by
  have hplain : ∀ c ∈ parameters, decide (c ≠ ')') := fun c hc => by
    rw [decide_eq_true_eq]
    rintro rfl
    exact hend hc
  have hafter : afterArrow (' ' :: '=' :: '>' :: (name ++ '[' :: path)) = some (name ++ '[' :: path) := rfl
  have hpath (ts : List Token) : readPath ps (.name (String.ofList read) :: ts) =
      (readBrackets ts).map (Access.path i) := by
    rw [readPath, if_pos hps, hi, Option.bind_some]
  obtain ⟨ts, hts, hread⟩ := Option.bind_eq_some_iff.mp htokens
  have htake : (parameters ++ ')' :: ' ' :: '=' :: '>' :: (name ++ '[' :: path)).takeWhile (· ≠ ')') =
      parameters := by
    rw [List.takeWhile_append_of_pos hplain]
    simp
  have hdrop : ((parameters ++ ')' :: ' ' :: '=' :: '>' :: (name ++ '[' :: path)).dropWhile (· ≠ ')')).drop 1 =
      ' ' :: '=' :: '>' :: (name ++ '[' :: path) := by
    rw [List.dropWhile_append_of_pos hplain]
    simp
  rw [List.append_assoc]
  simp only [readArrow, List.cons_append, htake, hdrop, hts, hread, hafter, tokens_name_path hname,
    Option.bind_eq_bind, Option.bind_some]
  cases tokens asciiNames ('[' :: path) with
  | none => rfl
  | some us => exact hpath us

theorem read?_parentPath {names : List String} (hne : names ≠ []) :
    read? (String.ofList ("(value, parent) => parent".toList ++ pathChars names)) =
      ((tokens asciiNames (pathChars names)).bind readBrackets).map (Access.path 1) := by
  obtain ⟨s, names, rfl⟩ := List.exists_cons_of_ne_nil hne
  rw [read?, String.toList_ofList]
  exact @readArrow_eq "value, parent".toList " parent".toList "parent".toList ["value", "parent"] 1
    (by decide) (by decide +kernel) (by decide) (by decide +kernel) (by decide) _

theorem read?_valuePath {names : List String} (hne : names ≠ []) :
    read? (String.ofList ("(value) => value".toList ++ pathChars names)) =
      ((tokens asciiNames (pathChars names)).bind readBrackets).map (Access.path 0) := by
  obtain ⟨s, names, rfl⟩ := List.exists_cons_of_ne_nil hne
  rw [read?, String.toList_ofList]
  exact @readArrow_eq "value".toList " value".toList "value".toList ["value"] 0
    (by decide) (by decide +kernel) (by decide) (by decide +kernel) (by decide) _

theorem append_indexPath (header : String) (spell : String → String) (segments : List String) :
    header ++ indexPath spell segments = String.ofList (header.toList ++ pathChars (segments.map spell)) := by
  rw [← String.toList_inj, String.toList_append, toList_indexPath, String.toList_ofList]

/-- An accessor is read as it is meant just when the names in it are the same between quotes. They are what
stands between the dots, spelled. -/
theorem read?_accessorOf_iff (spell : String → String) (name : String) :
    (".".intercalate (Text.parts '.' name) = name ∧ ∀ part ∈ Text.parts '.' name, '.' ∉ part.toList) ∧
    (read? (accessorOf spell name) = some (ofParts spell (Text.parts '.' name)) ↔
      ∀ s ∈ (ofParts spell (Text.parts '.' name)).names, IsPlain s) := by
  refine ⟨⟨?_, ?_⟩, ?_⟩
  · rw [← String.toList_inj, String.toList_intercalate, Text.parts, List.map_map]
    have hparts : (Text.splitOnChar '.' name.toList).map (String.toList ∘ String.ofList) =
        Text.splitOnChar '.' name.toList := by simp [Function.comp_def]
    rw [hparts]
    exact Text.intercalate_splitOnChar '.' name.toList
  · rintro part hpart
    obtain ⟨cs, hcs, rfl⟩ := List.mem_map.mp hpart
    rw [String.toList_ofList]
    exact Text.notMem_of_mem_splitOnChar hcs
  have hpath {i : Nat} {names : List String} :
      ((tokens asciiNames (pathChars names)).bind readBrackets).map (path i) = some (path i names) ↔
        ∀ s ∈ names, IsPlain s := by
    rw [← readBrackets_iff, Option.map_eq_some_iff]
    simp only [path.injEq, true_and, exists_eq_right]
  have hne : Text.parts '.' name ≠ [] := by simp [Text.parts, Text.splitOnChar_ne_nil]
  rw [accessorOf]
  cases hparts : Text.parts '.' name with
  | nil => exact absurd hparts hne
  | cons first rest =>
    cases rest with
    | nil => simpa [ofParts, names] using read?_quoted_iff
    | cons next rest =>
      simp only [ofParts, append_indexPath]
      split
      · rw [read?_parentPath (by simp)]
        exact hpath
      · rw [read?_valuePath (by simp)]
        exact hpath

/-- A quote in a name ends the text of its accessor. -/
theorem quoted_name_unreadable :
    ofParts id (Text.parts '.' "it's") = .key "it's" ∧ accessorOf id "it's" = "'it's'" ∧
      read? (accessorOf id "it's") = none := by
  refine ⟨?_, ?_, ?_⟩ <;> decide +kernel

end Access

end ApiRecords.ObjectNotation
