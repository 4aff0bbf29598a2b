import ApiRecords.Proofs.Members
import ApiRecords.Proofs.Types.Tokens
import ApiRecords.Text.Search

/-!
Readers of the two notations of types, for as much of them as is written: each gives the type that an
expression describes, as a tree. In static types the array mark binds tighter than the bar, and
parentheses hold a type together.
-/

namespace ApiRecords

/-- A type as it is read, without the notation. -/
inductive TypeTree where
  | name (s : String)
  | literal (s : String)
  | tuple (items : List TypeTree)
  | union (alternatives : List TypeTree)
  | array (of : TypeTree)
  | record (fields : List (String × TypeTree))

namespace TypeTree

/-- One alternative is no choice. -/
def anyOf : List TypeTree → TypeTree
  | [t] => t
  | ts => union ts

/-- The type with the array marks that come next. -/
def suffixed : TypeTree → List Token → TypeTree × List Token
  | t, .mark '[' :: .mark ']' :: ts => suffixed (array t) ts
  | t, ts => (t, ts)

section

variable {α : Type}

def expect (c : Char) : List Token → Option (List Token)
  | .mark d :: ts => if d = c then some ts else none
  | _ => none

/-- One or more items, with a mark between any two. -/
def readSeparated (read : List Token → Option (α × List Token)) (sep : Char) :
    Nat → List Token → Option (List α × List Token)
  | 0, _ => none
  | n + 1, ts => do
    let (x, ts) ← read ts
    match expect sep ts with
    | none => return ([x], ts)
    | some ts =>
      let (xs, ts) ← readSeparated read sep n ts
      return (x :: xs, ts)

/-- Items with commas between them, up to a closing mark. -/
def readListing (read : List Token → Option (α × List Token)) (close : Char) (ts : List Token) :
    Option (List α × List Token) :=
  match expect close ts with
  | some ts => some ([], ts)
  | none => do
    let (xs, ts) ← readSeparated read ',' (ts.length + 1) ts
    return (xs, ← expect close ts)

def readKey : List Token → Option (String × List Token)
  | .word s :: ts | .literal s :: ts => some (s, ts)
  | _ => none

def readField (read : List Token → Option (α × List Token)) (ts : List Token) :
    Option ((String × α) × List Token) := do
  let (key, ts) ← readKey ts
  let (x, ts) ← read (← expect ':' ts)
  return ((key, x), ts)

/-- What is read where nothing is left after it. -/
def whole : Option (α × List Token) → Option α
  | some (x, []) => some x
  | _ => none

end

/-! ### Static types -/

def readAtom (read : List Token → Option (TypeTree × List Token)) :
    List Token → Option (TypeTree × List Token)
  | .word s :: ts => some (name s, ts)
  | .literal s :: ts => some (literal s, ts)
  | .mark '(' :: ts => do
    let (t, ts) ← read ts
    return (t, ← expect ')' ts)
  | .mark '[' :: ts => do
    let (items, ts) ← readListing read ']' ts
    return (tuple items, ts)
  | .mark '\x7b' :: ts => do
    let (fields, ts) ← readListing (readField read) '\x7d' ts
    return (record fields, ts)
  | _ => none

def readPostfix (read : List Token → Option (TypeTree × List Token)) (ts : List Token) :
    Option (TypeTree × List Token) := do
  let (t, ts) ← readAtom read ts
  return suffixed t ts

/-- A static type whose brackets nest less than `n` deep. -/
def readType : Nat → List Token → Option (TypeTree × List Token)
  | 0, _ => none
  | n + 1, ts => do
    let (alternatives, ts) ← readSeparated (readPostfix (readType n)) '|' (ts.length + 1) ts
    return (anyOf alternatives, ts)

/-- The type that a static type expression describes. -/
def ofFlow (s : String) : Option TypeTree :=
  let ts := Token.read s
  whole (readType ts.length ts)

/-! ### Run-time checks -/

/-- The model whose check has this name. -/
def modelOfCheck? (s : String) : Option String :=
  if "PropType".toList.isSuffixOf s.toList then some (Text.dropSuffix s "PropType") else none

/-- A check whose brackets nest less than `n` deep. -/
def readCheck : Nat → List Token → Option (TypeTree × List Token)
  | n + 1, .word s :: ts =>
    if s = "ImmutablePropTypes.listOf" then do
      let (t, ts) ← readCheck n (← expect '(' ts)
      return (array t, ← expect ')' ts)
    else if s = "ImmutablePropTypes.mapContains" then do
      let (fields, ts) ← readListing (readField (readCheck n)) '\x7d' (← expect '\x7b' (← expect '(' ts))
      return (record fields, ← expect ')' ts)
    else if s = "PropTypes.oneOfType" then do
      let (alternatives, ts) ← readListing (readCheck n) ']' (← expect '[' (← expect '(' ts))
      return (anyOf alternatives, ← expect ')' ts)
    else do return (name (← modelOfCheck? s), ts)
  | _, _ => none

/-- The type that a check describes. -/
def ofPropType (s : String) : Option TypeTree :=
  let ts := Token.read s
  whole (readCheck ts.length ts)

/-! ### Rules of the grammars -/

section

variable {α : Type} {read : List Token → Option (α × List Token)} {follow : List Token → Prop}

/-- The tokens are read as `x` before all that may follow. -/
def Reads (read : List Token → Option (α × List Token)) (follow : List Token → Prop)
    (ts : List Token) (x : α) : Prop :=
  ∀ rest, follow rest → read (ts ++ rest) = some (x, rest)

theorem expect_eq_some {c : Char} {ts ts' : List Token} :
    expect c ts = some ts' ↔ ts = .mark c :: ts' := by
  fun_cases expect c ts <;> grind

theorem expect_eq_none {c : Char} {ts : List Token} :
    expect c ts = none ↔ ts.head? ≠ some (.mark c) := by
  rw [Option.eq_none_iff_forall_ne_some]
  simp only [ne_eq, expect_eq_some]
  cases ts <;> simp

@[simp] theorem expect_mark (c : Char) (ts : List Token) : expect c (.mark c :: ts) = some ts :=
  expect_eq_some.mpr rfl

theorem readSeparated_reads {sep : Char} (hsep : ∀ ts, follow (.mark sep :: ts)) {n : Nat}
    {tss : List (List Token)} {xs : List α} (h : List.Forall₂ (Reads read follow) tss xs)
    (hne : tss ≠ []) (hn : tss.length ≤ n) :
    Reads (readSeparated read sep n) (fun rest => follow rest ∧ rest.head? ≠ some (.mark sep))
      (List.intercalate [.mark sep] tss) xs := by
  rintro rest ⟨hrest, hend⟩
  induction h generalizing n with
  | nil => exact absurd rfl hne
  | @cons ts x tss xs hts htss ih =>
    obtain _ | n := n
    · cases hn
    cases htss with
    | nil => simp [readSeparated, hts rest hrest, expect_eq_none.mpr hend]
    | cons =>
      have hrec := ih (by simp) (by simpa using hn)
      simp [readSeparated, List.intercalate_cons_cons, hts _ (hsep _), hrec]

theorem length_le_intercalate (m : Token) (tss : List (List Token)) :
    tss.length ≤ (List.intercalate [m] tss).length + 1 := by
  induction tss with
  | nil => simp
  | cons ts tss ih =>
    cases tss with
    | nil => simp
    | cons => simp only [List.intercalate_cons_cons, List.length_append, List.length_cons] at *; omega

theorem length_le_of_mem_intercalate {m : Token} {ts : List Token} {tss : List (List Token)}
    (h : ts ∈ tss) : ts.length ≤ (List.intercalate [m] tss).length := by
  induction tss with
  | nil => cases h
  | cons ts' tss ih =>
    cases tss with
    | nil => simp_all
    | cons =>
      simp only [List.intercalate_cons_cons, List.length_append]
      rcases List.mem_cons.mp h with rfl | h
      · omega
      · have := ih h
        omega

end

section

variable {α : Type} {read : Nat → List Token → Option (α × List Token)} {follow : List Token → Prop}

/-- The tokens are read as `x` wherever brackets may nest as deep as they can in them. -/
def ReadsWithin (read : Nat → List Token → Option (α × List Token)) (follow : List Token → Prop)
    (ts : List Token) (x : α) : Prop :=
  ∀ n, ts.length ≤ n → Reads (read n) follow ts x

theorem ReadsWithin.field {key : Token} {s : String} (hkey : key = .word s ∨ key = .literal s)
    {ts : List Token} {x : α} (h : ReadsWithin read follow ts x) :
    ReadsWithin (fun n => readField (read n)) follow (key :: .mark ':' :: ts) (s, x) := by
  intro n hn rest hrest
  have hread := h n (by simp only [List.length_cons] at hn; omega) rest hrest
  rcases hkey with rfl | rfl <;> simp [readField, readKey, hread]

/-- No item starts with the mark that ends the listing, so that the end is not taken for an item. -/
theorem readListing_reads (close : Char) (n : Nat) (hcomma : ∀ ts, follow (.mark ',' :: ts))
    (hclose : ∀ ts, follow (.mark close :: ts)) (hread : ∀ ts, read n (.mark close :: ts) = none)
    (hne : close ≠ ',') {tss : List (List Token)} {xs : List α}
    (h : List.Forall₂ (ReadsWithin read follow) tss xs)
    (hn : (List.intercalate [.mark ','] tss).length ≤ n) (rest : List Token) :
    readListing (read n) close (List.intercalate [.mark ','] tss ++ .mark close :: rest) =
      some (xs, rest) := by
  have hitems : List.Forall₂ (Reads (read n) follow) tss xs := forall₂_imp_mem h fun ts hts x _ hx =>
    hx n (Nat.le_trans (length_le_of_mem_intercalate hts) hn)
  rcases Decidable.em (tss = []) with rfl | htss
  · cases hitems
    simp [readListing]
  have hlist : ∀ m, tss.length ≤ m →
      readSeparated (read n) ',' m (List.intercalate [.mark ','] tss ++ .mark close :: rest) =
        some (xs, .mark close :: rest) := fun m hm =>
    readSeparated_reads hcomma hitems htss hm _ ⟨hclose rest, by simpa using hne⟩
  have hend : expect close (List.intercalate [.mark ','] tss ++ .mark close :: rest) = none := by
    rw [Option.eq_none_iff_forall_ne_some]
    intro ts hstart
    have hfirst := hlist (tss.length + 1) (Nat.le_succ _)
    rw [expect_eq_some.mp hstart] at hfirst
    simp [readSeparated, hread] at hfirst
  have hcount : tss.length ≤
      (List.intercalate [.mark ','] tss ++ .mark close :: rest).length + 1 := by
    have := length_le_intercalate (.mark ',') tss
    rw [List.length_append]
    omega
  rw [readListing, hend]
  simp [-List.length_append, hlist _ hcount]

end

/-! #### Static types -/

/-- What a static type cannot go on with. -/
def EndsType (ts : List Token) : Prop := ts.head? ≠ some (.mark '[') ∧ ts.head? ≠ some (.mark '|')

/-- The tokens are a static type that holds together without parentheses. -/
def IsUnit (ts : List Token) (t : TypeTree) : Prop :=
  ∀ n, ts.length ≤ n + 1 → ∀ rest, readPostfix (readType n) (ts ++ rest) = some (t.suffixed rest)

def IsType (ts : List Token) (t : TypeTree) : Prop := ReadsWithin readType EndsType ts t

theorem suffixed_of_head? {t : TypeTree} {ts : List Token} (h : ts.head? ≠ some (.mark '[')) :
    t.suffixed ts = (t, ts) := by
  fun_cases suffixed t ts with
  | case1 => simp at h
  | case2 => rfl

namespace IsUnit

theorem word (s : String) : IsUnit [.word s] (name s) := fun _ _ _ => rfl

theorem quoted (s : String) : IsUnit [.literal s] (literal s) := fun _ _ _ => rfl

theorem suffix {ts : List Token} {t : TypeTree} (h : IsUnit ts t) :
    IsUnit (ts ++ [.mark '[', .mark ']']) (array t) := by
  intro n hn rest
  rw [List.length_append] at hn
  rw [List.append_assoc, h n (by omega)]
  rfl

theorem ne_nil {ts : List Token} {t : TypeTree} (h : IsUnit ts t) : ts ≠ [] := by
  rintro rfl
  have hread := h 0 (Nat.zero_le _) []
  simp [readPostfix, readAtom] at hread

end IsUnit

theorem IsType.parens {ts : List Token} {t : TypeTree} (h : IsType ts t) :
    IsUnit (.mark '(' :: ts ++ [.mark ')']) t := by
  intro n hn rest
  simp only [List.cons_append, List.length_cons, List.length_append, List.length_nil] at hn
  have hread := h n (by omega) (.mark ')' :: rest) (by simp [EndsType])
  simp [readPostfix, readAtom, hread]

theorem readType_closing {c : Char} (hc : c ∉ ['(', '[', '\x7b']) (n : Nat) (ts : List Token) :
    readType n (.mark c :: ts) = none := by
  cases n with
  | zero => rfl
  | succ n =>
    have hatom : readAtom (readType n) (.mark c :: ts) = none := by
      unfold readAtom
      split <;> simp_all
    simp [readType, readSeparated, readPostfix, hatom]

theorem IsUnit.alternatives {tss : List (List Token)} {ts : List TypeTree}
    (h : List.Forall₂ IsUnit tss ts) (hne : tss ≠ []) :
    IsType (List.intercalate [.mark '|'] tss) (anyOf ts) := by
  intro n hn rest hrest
  have hshort : ∀ us ∈ tss, us.length ≤ n := fun us hus =>
    Nat.le_trans (length_le_of_mem_intercalate hus) hn
  obtain _ | n := n
  · cases h with
    | nil => exact absurd rfl hne
    | cons hus => exact absurd (by simpa using hshort _ List.mem_cons_self) hus.ne_nil
  have hunits : List.Forall₂ (Reads (readPostfix (readType n)) (·.head? ≠ some (.mark '['))) tss ts :=
    forall₂_imp_mem h fun us hus t _ ht rest hrest => by
      rw [ht n (hshort us hus), suffixed_of_head? hrest]
  have hcount : tss.length ≤ (List.intercalate [.mark '|'] tss ++ rest).length + 1 := by
    have := length_le_intercalate (.mark '|') tss
    rw [List.length_append]
    omega
  rw [readType, readSeparated_reads (by simp) hunits hne hcount rest hrest]
  rfl

theorem IsType.tuple {tss : List (List Token)} {ts : List TypeTree} (h : List.Forall₂ IsType tss ts) :
    IsUnit (.mark '[' :: List.intercalate [.mark ','] tss ++ [.mark ']']) (tuple ts) := by
  intro n hn rest
  have hlist := readListing_reads ']' n (by simp [EndsType]) (by simp [EndsType])
    (readType_closing (by decide) n) (by decide) h (by simp at hn; omega) rest
  simp [readPostfix, readAtom, hlist]

theorem IsType.record {tss : List (List Token)} {fields : List (String × TypeTree)}
    (h : List.Forall₂ (ReadsWithin (fun n => readField (readType n)) EndsType) tss fields) :
    IsUnit (.mark '\x7b' :: List.intercalate [.mark ','] tss ++ [.mark '\x7d']) (record fields) := by
  intro n hn rest
  have hlist := readListing_reads '\x7d' n (by simp [EndsType]) (by simp [EndsType])
    (fun _ => rfl) (by decide) h (by simp at hn; omega) rest
  simp [readPostfix, readAtom, hlist]

/-! #### Run-time checks -/

def IsCheck (ts : List Token) (t : TypeTree) : Prop := ReadsWithin readCheck (fun _ => True) ts t

theorem modelOfCheck?_append (s : String) : modelOfCheck? (s ++ "PropType") = some s := by
  rw [modelOfCheck?, if_pos (Text.isSuffixOf_append s _), Text.dropSuffix_append]

namespace IsCheck

theorem model (s : String) : IsCheck [.word (s ++ "PropType")] (name s) := by
  intro n hn rest _
  obtain _ | n := n
  · cases hn
  have hother : ∀ w : String, "PropType".toList.isSuffixOf w.toList = false → s ++ "PropType" ≠ w := by
    rintro w hw rfl
    rw [Text.isSuffixOf_append] at hw
    cases hw
  rw [List.cons_append, readCheck, if_neg (hother _ rfl), if_neg (hother _ rfl), if_neg (hother _ rfl),
    modelOfCheck?_append]
  rfl

theorem listOf {ts : List Token} {t : TypeTree} (h : IsCheck ts t) :
    IsCheck (.word "ImmutablePropTypes.listOf" :: .mark '(' :: ts ++ [.mark ')']) (array t) := by
  intro n hn rest _
  obtain _ | n := n
  · cases hn
  have hread := h n (by simp at hn; omega) (.mark ')' :: rest) trivial
  simp [readCheck, hread]

theorem mapContains {tss : List (List Token)} {fields : List (String × TypeTree)}
    (h : List.Forall₂ (ReadsWithin (fun n => readField (readCheck n)) fun _ => True) tss fields) :
    IsCheck (.word "ImmutablePropTypes.mapContains" :: .mark '(' :: .mark '\x7b' ::
      List.intercalate [.mark ','] tss ++ [.mark '\x7d', .mark ')']) (TypeTree.record fields) := by
  intro n hn rest _
  obtain _ | n := n
  · cases hn
  have hlist := readListing_reads '\x7d' n (fun _ => trivial) (fun _ => trivial)
    (fun _ => rfl) (by decide) h (by simp at hn; omega) (.mark ')' :: rest)
  simp [readCheck, hlist]

theorem oneOfType {tss : List (List Token)} {ts : List TypeTree} (h : List.Forall₂ IsCheck tss ts) :
    IsCheck (.word "PropTypes.oneOfType" :: .mark '(' :: .mark '[' ::
      List.intercalate [.mark ','] tss ++ [.mark ']', .mark ')']) (anyOf ts) := by
  intro n hn rest _
  obtain _ | n := n
  · cases hn
  have hlist := readListing_reads ']' n (fun _ => trivial) (fun _ => trivial)
    (by cases n <;> exact fun _ => rfl) (by decide) h (by simp at hn; omega) (.mark ')' :: rest)
  simp [readCheck, hlist]

end IsCheck

end TypeTree

end ApiRecords
