import ApiRecords.Document.Keys
import ApiRecords.Proofs.Objects.Parsing
import ApiRecords.Proofs.Objects.Words

/-!
The text of a tree as an object literal, in terms of its parts: each key and each leaf stands there by
itself, between marks and blanks.
-/

namespace ApiRecords

namespace Tree

mutual

/-- Whether a tree has keys and texts alone, and they are as asked. -/
def every (key leaf : String → Bool) : Tree → Bool
  | scalar (.text s) => leaf s
  | scalar _ => false
  | array items => everyItem key leaf items
  | object members => everyMember key leaf members
  | back _ => false

def everyItem (key leaf : String → Bool) : List Tree → Bool
  | [] => true
  | t :: ts => t.every key leaf && everyItem key leaf ts

def everyMember (key leaf : String → Bool) : List (String × Tree) → Bool
  | [] => true
  | (k, t) :: ts => key k && t.every key leaf && everyMember key leaf ts

end

/-- Whether a tree is nested mappings and lists of names: no leaf is empty. -/
def isNested (t : Tree) : Bool := t.every (fun _ => true) (· ≠ "")

/-- Whether a tree is a mapping or a list. -/
def isContainer : Tree → Bool
  | array _ | object _ => true
  | _ => false

mutual

theorem parts_of_every {key leaf : String → Bool} {P : String → Prop} (hkey : ∀ s, key s → P s)
    (hleaf : ∀ s, leaf s → P s) : (t : Tree) → t.every key leaf → ∀ s ∈ t.parts, P s
  | scalar s, h => by
    cases s with
    | text s => simpa [parts] using hleaf s h
    | _ => cases h
  | array items, h => itemParts_of_every hkey hleaf items h
  | object members, h => memberParts_of_every hkey hleaf members h
  | back _, h => by cases h

theorem itemParts_of_every {key leaf : String → Bool} {P : String → Prop} (hkey : ∀ s, key s → P s)
    (hleaf : ∀ s, leaf s → P s) : (ts : List Tree) → everyItem key leaf ts → ∀ s ∈ itemParts ts, P s
  | [], _ => by simp [itemParts]
  | t :: ts, h => by
    have h := Bool.and_eq_true_iff.mp h
    exact List.forall_mem_append.mpr
      ⟨parts_of_every hkey hleaf t h.1, itemParts_of_every hkey hleaf ts h.2⟩

theorem memberParts_of_every {key leaf : String → Bool} {P : String → Prop} (hkey : ∀ s, key s → P s)
    (hleaf : ∀ s, leaf s → P s) : (ts : List (String × Tree)) → everyMember key leaf ts →
    ∀ s ∈ memberParts ts, P s
  | [], _ => by simp [memberParts]
  | (k, t) :: ts, h => by
    simp only [everyMember, Bool.and_eq_true] at h
    exact List.forall_mem_append.mpr
      ⟨List.forall_mem_cons.mpr ⟨hkey k h.1.1, parts_of_every hkey hleaf t h.1.2⟩,
        memberParts_of_every hkey hleaf ts h.2⟩

end

mutual

theorem cyclic_of_every {key leaf : String → Bool} : (t : Tree) → t.every key leaf → t.cyclic = false
  | scalar _, _ => rfl
  | array items, h => cyclicItems_of_every items h
  | object members, h => cyclicMembers_of_every members h
  | back _, h => by cases h

theorem cyclicItems_of_every {key leaf : String → Bool} : (ts : List Tree) → everyItem key leaf ts →
    cyclicItems ts = false
  | [], _ => rfl
  | t :: ts, h => by
    have h := Bool.and_eq_true_iff.mp h
    rw [cyclicItems, cyclic_of_every t h.1, cyclicItems_of_every ts h.2, Bool.or_false]

theorem cyclicMembers_of_every {key leaf : String → Bool} : (ts : List (String × Tree)) →
    everyMember key leaf ts → cyclicMembers ts = false
  | [], _ => rfl
  | (_, t) :: ts, h => by
    have h := Bool.and_eq_true_iff.mp h
    rw [cyclicMembers, cyclic_of_every t (Bool.and_eq_true_iff.mp h.1).2, cyclicMembers_of_every ts h.2,
      Bool.or_false]

end

end Tree

namespace ObjectNotation

/-! ### The text of a tree -/

def unquoted (s : String) : List Char := s.toList.filter (· ≠ '"')

@[simp] theorem unquoted_append (s t : String) : unquoted (s ++ t) = unquoted s ++ unquoted t := by
  simp [unquoted]

@[simp] theorem unquoted_writeText (s : String) : unquoted (Json.writeText true s) = bare s := by
  simp only [unquoted, Json.writeText, String.toList_ofList, List.cons_append]
  rw [List.filter_cons_of_neg (by simp), List.filter_append, List.filter_flatMap]
  exact List.append_nil (bare s)

/-- The beginning of a line. -/
def line (depth : Nat) : List Char := '\n' :: List.replicate (2 * depth) ' '

def text (depth : Nat) (t : Tree) : List Char := unquoted (t.jsonAt .indented depth)

def memberText (depth : Nat) (m : String × Tree) : List Char :=
  bare m.1 ++ ':' :: ' ' :: text depth m.2

/-- More of the parts of a container. -/
def moreText {α : Type} (depth : Nat) (part : α → List Char) (parts : List α) : List Char :=
  parts.flatMap fun p => ',' :: line depth ++ part p

theorem unquoted_intercalate (sep first : String) (rest : List String) :
    unquoted (sep.intercalate (first :: rest)) =
      unquoted first ++ rest.flatMap fun part => unquoted sep ++ unquoted part := by
  induction rest generalizing first with
  | nil => simp
  | cons second rest ih => simp [String.intercalate_cons_cons, ih]

theorem unquoted_enclose (depth : Nat) (opening closing first : String) (rest : List String) :
    unquoted (Json.enclose .indented depth opening closing (first :: rest)) =
      unquoted opening ++ line (depth + 1) ++ unquoted first ++
        moreText (depth + 1) unquoted rest ++ line depth ++ unquoted closing := by
  have hline (d : Nat) : unquoted ("\n" ++ String.ofList (List.replicate (2 * d) ' ')) = line d := by
    simp [unquoted, line]
  have hcomma : unquoted "," = [','] := by decide
  simp only [Json.enclose, JsonLayout.indented, unquoted_append, unquoted_intercalate, hcomma]
  simp only [← unquoted_append, hline]
  simp [moreText]

theorem jsonItems_eq (layout : JsonLayout) (depth : Nat) (items : List Tree) :
    Tree.jsonItems layout depth items = items.map (Tree.jsonAt layout depth) := by
  induction items with
  | nil => rfl
  | cons t items ih => simp [Tree.jsonItems, ih]

theorem jsonMembers_eq (depth : Nat) (members : List (String × Tree)) :
    Tree.jsonMembers .indented depth members = members.map fun m =>
      Json.writeText true m.1 ++ ": " ++ m.2.jsonAt .indented depth := by
  induction members with
  | nil => rfl
  | cons m members ih =>
    rw [Tree.jsonMembers, ih]
    rfl

theorem unquoted_member (depth : Nat) (m : String × Tree) :
    unquoted (Json.writeText true m.1 ++ ": " ++ m.2.jsonAt .indented depth) = memberText depth m := by
  have hcolon : unquoted ": " = [':', ' '] := by decide
  simp [hcolon, memberText, text]

theorem text_leaf (depth : Nat) (s : String) : text depth (.text s) = bare s :=
  unquoted_writeText s

theorem text_array_nil (depth : Nat) : text depth (.array []) = ['[', ']'] :=
  (by decide : unquoted ("[" ++ "]") = ['[', ']'])

theorem text_array_cons (depth : Nat) (t : Tree) (items : List Tree) :
    text depth (.array (t :: items)) =
      '[' :: line (depth + 1) ++ text (depth + 1) t ++ moreText (depth + 1) (text (depth + 1)) items ++
        line depth ++ [']'] := by
  have hopen : unquoted "[" = ['['] := by decide
  have hclose : unquoted "]" = [']'] := by decide
  rw [text, Tree.jsonAt, Tree.jsonItems, jsonItems_eq, unquoted_enclose, hopen, hclose]
  simp [moreText, text, List.flatMap_map]

theorem text_object_nil (depth : Nat) : text depth (.object []) = ['\x7b', '\x7d'] :=
  (by decide : unquoted ("\x7b" ++ "\x7d") = ['\x7b', '\x7d'])

theorem text_object_cons (depth : Nat) (m : String × Tree) (members : List (String × Tree)) :
    text depth (.object (m :: members)) =
      '\x7b' :: line (depth + 1) ++ memberText (depth + 1) m ++
        moreText (depth + 1) (memberText (depth + 1)) members ++ line depth ++ ['\x7d'] := by
  have hopen : unquoted "\x7b" = ['\x7b'] := by decide
  have hclose : unquoted "\x7d" = ['\x7d'] := by decide
  rw [text, Tree.jsonAt, jsonMembers_eq, List.map_cons, unquoted_enclose, hopen, hclose]
  simp [moreText, List.flatMap_map, unquoted_member, -unquoted_append]

theorem objectLiteral?_of_isNested {t : Tree} (hn : t.isNested) (hcontainer : t.isContainer) :
    t.objectLiteral? = .ok (some (String.ofList (text 0 t))) := by
  have hjson : t.json? .indented = .ok (t.json .indented) := if_neg (by simp [Tree.cyclic_of_every t hn])
  cases t with
  | array | object =>
    rw [Tree.objectLiteral?, hjson]
    rfl
  | _ => cases hcontainer

theorem eq_text_of_objectLiteral? {t : Tree} (hn : t.isNested) {s : String}
    (h : t.objectLiteral? = .ok (some s)) : s = String.ofList (text 0 t) := by
  cases t with
  | array | object => exact Option.some.inj (Except.ok.inj (h.symm.trans (objectLiteral?_of_isNested hn rfl)))
  | _ => cases h

end ObjectNotation

end ApiRecords
