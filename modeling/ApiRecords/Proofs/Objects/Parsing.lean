import ApiRecords.Proofs.Objects.Lexing

/-!
Object literals read as trees. The tokens are put together over the containers that are open. Keys are
names, numbers and texts; names that stand for values are leaves. Nothing else has a place in a literal:
what is read has in its keys and leaves what the tokens have, in their order.
-/

namespace ApiRecords

namespace Tree

mutual

/-- The keys and the texts of a tree, in order. -/
def parts : Tree → List String
  | scalar (.text s) => [s]
  | scalar _ => []
  | array items => itemParts items
  | object members => memberParts members
  | back _ => []

def itemParts : List Tree → List String
  | [] => []
  | t :: ts => t.parts ++ itemParts ts

def memberParts : List (String × Tree) → List String
  | [] => []
  | (key, t) :: ts => key :: t.parts ++ memberParts ts

end

theorem itemParts_append (items items' : List Tree) :
    itemParts (items ++ items') = itemParts items ++ itemParts items' := by
  induction items with
  | nil => rfl
  | cons t items ih => simp [itemParts, ih]

theorem memberParts_append (members members' : List (String × Tree)) :
    memberParts (members ++ members') = memberParts members ++ memberParts members' := by
  induction members with
  | nil => rfl
  | cons m members ih => simp [memberParts, ih]

end Tree

namespace ObjectNotation

/-- The characters of 16-bit units. A half of a character alone is none. -/
def decode : List Nat → Option (List Char)
  | [] => some []
  | u :: us =>
    if u.isValidChar then (decode us).map (Char.ofNat u :: ·)
    else match us with
      | [] => none
      | low :: us =>
        if u < 0xdc00 ∧ 0xdc00 ≤ low ∧ low < 0xe000 then
          (decode us).map (Char.ofNat (0x10000 + (u - 0xd800) * 0x400 + (low - 0xdc00)) :: ·)
        else none

/-- What a token is as a key. -/
def Token.key? : Token → Option String
  | mark _ => none
  | name s => some s
  | number s => some s
  | text units => (decode units).map String.ofList

/-- The names that stand for no variable. -/
def reserved : List String :=
  ["await", "break", "case", "catch", "class", "const", "continue", "debugger", "default", "delete", "do",
    "else", "enum", "export", "extends", "false", "finally", "for", "function", "if", "implements",
    "import", "in", "instanceof", "interface", "let", "new", "null", "package", "private", "protected",
    "public", "return", "static", "super", "switch", "this", "throw", "true", "try", "typeof", "var",
    "void", "while", "with", "yield"]

/-- An open container, with what has been read of it. -/
inductive Frame where
  | array (before : List Tree)
  | object (before : List (String × Tree)) (key : String)

/-- What comes next in the innermost container, or what has been read when nothing does. -/
inductive Place where
  | value
  | item (before : List Tree)
  | afterItem (before : List Tree)
  | member (before : List (String × Tree))
  | colon (before : List (String × Tree)) (key : String)
  | afterMember (before : List (String × Tree))
  | done (read : Tree)

abbrev State := List Frame × Place

/-- A value put in its place. -/
def put : List Frame → Tree → State
  | [], t => ([], .done t)
  | .array before :: frames, t => (frames, .afterItem (before ++ [t]))
  | .object before key :: frames, t => (frames, .afterMember (before ++ [(key, t)]))

@[simp] theorem put_array (before : List Tree) (frames : List Frame) (t : Tree) :
    put (.array before :: frames) t = (frames, .afterItem (before ++ [t])) := rfl

@[simp] theorem put_object (before : List (String × Tree)) (key : String) (frames : List Frame) (t : Tree) :
    put (.object before key :: frames) t = (frames, .afterMember (before ++ [(key, t)])) := rfl

/-- The first token of a value. -/
def begin? (frames : List Frame) : Token → Option State
  | .mark '\x7b' => some (frames, .member [])
  | .mark '[' => some (frames, .item [])
  | .name s => if s ∈ reserved then none else some (put frames (.text s))
  | _ => none

def take : State → Token → Option State
  | (frames, .value), tok => begin? frames tok
  | (frames, .item before), tok =>
    if tok = .mark ']' then some (put frames (.array before))
    else begin? (.array before :: frames) tok
  | (frames, .afterItem before), tok =>
    if tok = .mark ']' then some (put frames (.array before))
    else if tok = .mark ',' then some (frames, .item before)
    else none
  | (frames, .member before), tok =>
    if tok = .mark '\x7d' then some (put frames (.object before))
    else tok.key?.map fun key => (frames, .colon before key)
  | (frames, .colon before key), tok =>
    if tok = .mark ':' then some (.object before key :: frames, .value) else none
  | (frames, .afterMember before), tok =>
    if tok = .mark '\x7d' then some (put frames (.object before))
    else if tok = .mark ',' then some (frames, .member before)
    else none
  | (_, .done _), _ => none

def result : State → Option Tree
  | ([], .done t) => some t
  | _ => none

/-- The tree that a literal stands for, its names being texts. -/
def read (chars : NameChars) (s : String) : Option Tree :=
  (tokens chars s.toList).bind fun ts => (ts.foldlM take ([], .value)).bind result

example : (read asciiNames "\x7b pet: one, 'big-cat': [Cat] \x7d").any
    (Tree.same (.object [("pet", .text "one"), ("big-cat", .array [.text "Cat"])])) := by
  decide +kernel

/-! ### The parts of what is read -/

namespace Token

/-- What a token adds to the parts of what is read. -/
def parts (tok : Token) : List String := tok.key?.toList

@[simp] theorem parts_mark (c : Char) : (mark c).parts = [] := rfl

@[simp] theorem parts_name (s : String) : (name s).parts = [s] := rfl

end Token

namespace Frame

def parts : Frame → List String
  | array before => Tree.itemParts before
  | object before key => Tree.memberParts before ++ [key]

end Frame

/-- The parts of open containers, the innermost being the first of them. -/
def frameParts : List Frame → List String
  | [] => []
  | f :: frames => frameParts frames ++ f.parts

namespace Place

def parts : Place → List String
  | value => []
  | item before => Tree.itemParts before
  | afterItem before => Tree.itemParts before
  | member before => Tree.memberParts before
  | colon before key => Tree.memberParts before ++ [key]
  | afterMember before => Tree.memberParts before
  | done t => t.parts

end Place

def State.parts (st : State) : List String := frameParts st.1 ++ st.2.parts

theorem parts_put (frames : List Frame) (t : Tree) : (put frames t).parts = frameParts frames ++ t.parts := by
  unfold put
  split <;>
    simp [State.parts, frameParts, Frame.parts, Place.parts, Tree.itemParts_append,
      Tree.memberParts_append, Tree.itemParts, Tree.memberParts]

theorem parts_begin? {frames : List Frame} {tok : Token} {st : State} (h : begin? frames tok = some st) :
    st.parts = frameParts frames ++ tok.parts := by
  unfold begin? at h
  split at h
  · cases h
    rfl
  · cases h
    rfl
  · split at h
    · cases h
    · cases h
      exact parts_put frames _
  · cases h

/-- A token adds its own parts. -/
theorem parts_take {st st' : State} {tok : Token} (h : take st tok = some st') :
    st'.parts = st.parts ++ tok.parts := by
  obtain ⟨frames, place⟩ := st
  have hclose (c : Char) {t : Tree} (ht : t.parts = place.parts) :
      (put frames t).parts = State.parts (frames, place) ++ (Token.mark c).parts := by
    rw [parts_put, ht, Token.parts_mark, List.append_nil, State.parts]
  cases place with
  | value => simpa [State.parts, Place.parts] using parts_begin? h
  | item before =>
    simp only [take] at h
    split at h
    · next htok => cases h; exact htok ▸ hclose _ rfl
    · simpa [State.parts, Place.parts, frameParts, Frame.parts] using parts_begin? h
  | afterItem before =>
    simp only [take] at h
    split at h
    · next htok => cases h; exact htok ▸ hclose _ rfl
    · split at h
      · next htok => cases h; simp [htok, State.parts, Place.parts]
      · cases h
  | member before =>
    simp only [take] at h
    split at h
    · next htok => cases h; exact htok ▸ hclose _ rfl
    · obtain ⟨key, hkey, rfl⟩ := Option.map_eq_some_iff.mp h
      simp [State.parts, Place.parts, Token.parts, hkey]
  | colon before key =>
    simp only [take] at h
    split at h
    · next htok =>
      cases h
      simp [htok, State.parts, Place.parts, frameParts, Frame.parts]
    · cases h
  | afterMember before =>
    simp only [take] at h
    split at h
    · next htok => cases h; exact htok ▸ hclose _ rfl
    · split at h
      · next htok => cases h; simp [htok, State.parts, Place.parts]
      · cases h
  | done t => cases h

theorem parts_foldlM {st st' : State} {ts : List Token} (h : ts.foldlM take st = some st') :
    st'.parts = st.parts ++ ts.flatMap Token.parts := by
  induction ts generalizing st with
  | nil => cases h; simp
  | cons tok ts ih =>
    rw [List.foldlM_cons] at h
    obtain ⟨st₁, hst₁, h⟩ := Option.bind_eq_some_iff.mp h
    rw [ih h, parts_take hst₁, List.flatMap_cons, List.append_assoc]

/-- What is read has the parts of its tokens, in their order. -/
theorem parts_read {chars : NameChars} {s : String} {t : Tree} (h : read chars s = some t) :
    ∃ ts, tokens chars s.toList = some ts ∧ t.parts = ts.flatMap Token.parts := by
  obtain ⟨ts, hts, h⟩ := Option.bind_eq_some_iff.mp h
  obtain ⟨st, hst, h⟩ := Option.bind_eq_some_iff.mp h
  have hparts := parts_foldlM hst
  unfold result at h
  split at h
  · cases h
    exact ⟨ts, hts, by simpa [State.parts, frameParts, Place.parts] using hparts⟩
  · cases h

end ObjectNotation

end ApiRecords
