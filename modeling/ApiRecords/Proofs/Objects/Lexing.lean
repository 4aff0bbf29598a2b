import ApiRecords.Document.Json.Reader
import ApiRecords.Number.Shortest
import Mathlib.Tactic.SplitIfs

/-!
The tokens of object literals: marks, names, numbers and texts between quotes, with blanks and comments
between them. A text is cut into tokens by one pass over its characters; what has no use in object
literals is refused. A name or a number is a key by its text, a name with its escapes undone, a number as
it is shown.
-/

namespace ApiRecords.ObjectNotation

/-- The characters of names. Which of those beyond ASCII there are is a matter of tables. -/
structure NameChars where
  start : Char → Bool
  part : Char → Bool
  part_of_start : ∀ c, start c → part c
  start_ascii : ∀ c : Char, c.toNat < 128 → start c = (c.isAlpha || c = '$' || c = '_')
  part_ascii : ∀ c : Char, c.toNat < 128 → part c = (start c || c.isDigit)

/-- The ASCII ones alone. -/
def asciiNames : NameChars where
  start c := c.isAlpha || c = '$' || c = '_'
  part c := c.isAlpha || c = '$' || c = '_' || c.isDigit
  part_of_start c h := by rw [h, Bool.true_or]
  start_ascii _ _ := rfl
  part_ascii _ _ := rfl

/-- Whether characters make a name. -/
def NameChars.spellName (chars : NameChars) : List Char → Bool
  | [] => false
  | c :: cs => chars.start c && cs.all chars.part

inductive Token where
  | mark (c : Char)
  | name (s : String)
  | number (s : String)
  /-- A text between quotes, as 16-bit units. -/
  | text (units : List Nat)
  deriving DecidableEq

/-- The 16-bit units of a code point. -/
def unitsOf (n : Nat) : List Nat :=
  if n < 0x10000 then [n]
  else [0xd800 + (n - 0x10000) / 0x400, 0xdc00 + (n - 0x10000) % 0x400]

/-! ### Numbers -/

/-- How a number is shown that is used as a key. -/
def shownDigits (digits : List Char) (leading : Int) : List Char :=
  if leading < 21 ∧ digits.length ≤ leading + 1 then
    digits ++ List.replicate ((leading + 1).toNat - digits.length) '0'
  else if 0 ≤ leading ∧ leading < 21 then
    digits.take (leading.toNat + 1) ++ '.' :: digits.drop (leading.toNat + 1)
  else if -7 < leading ∧ leading < 0 then
    '0' :: '.' :: List.replicate ((-leading).toNat - 1) '0' ++ digits
  else
    digits.take 1 ++ (if digits.length ≤ 1 then [] else '.' :: digits.drop 1) ++
      'e' :: (if leading < 0 then '-' else '+') :: Nat.toDigits 10 leading.natAbs

def numberName : Double → String
  | .nan => "NaN"
  | .infinite _ => "Infinity"
  | .finite _ m e =>
    if m = 0 then "0"
    else
      let d := Double.shortest m e
      String.ofList (shownDigits (significantDigits d.digits)
        (d.exponent + ((Nat.toDigits 10 d.digits).length - 1 : Nat)))

/-- A number in decimal digits: a whole number without a zero in front of others, with a point before or
after it, and a power of ten. -/
def readDecimal (cs : List Char) : Option Double :=
  let (whole, rest) := cs.span Char.isDigit
  let (places, power) := match rest with
    | '.' :: more => more.span Char.isDigit
    | _ => ([], rest)
  if whole ++ places = [] ∨ (whole ≠ [] ∧ !Json.wholeDigits whole) then none
  else
    let value := fun x : Int =>
      Double.ofDecimal false (Json.digitsValue (whole ++ places)) (x - places.length)
    match power with
    | [] => some (value 0)
    | e :: power => if e = 'e' ∨ e = 'E' then (Json.readExponent power).map value else none

/-- A whole number in digits of another base. -/
def readDigits (base : Nat) (cs : List Char) : Option Double :=
  if cs = [] then none
  else
    (cs.foldlM (fun n c => do
      let d ← Text.hexValue? c
      if d < base then some (base * n + d) else none) 0).map fun n => Double.ofRatio false n 1

def readNumber : List Char → Option Double
  | '0' :: 'x' :: cs | '0' :: 'X' :: cs => readDigits 16 cs
  | '0' :: 'o' :: cs | '0' :: 'O' :: cs => readDigits 8 cs
  | '0' :: 'b' :: cs | '0' :: 'B' :: cs => readDigits 2 cs
  | cs => readDecimal cs

/-- Whether a number that is being read goes on: digits, letters and points, and a sign after the letter
of an exponent. -/
def continuesNumber (read : List Char) (c : Char) : Bool :=
  c.isDigit || c.isAlpha || c = '.' ||
    ((c = '+' || c = '-') && (read.getLast? = some 'e' || read.getLast? = some 'E'))

/-! ### Escapes -/

/-- How much of an escape has been read: its backslash; or of its code the digits so far, and how
many. -/
inductive Escape where
  | start
  | byte (value count : Nat)
  | point (value count : Nat)
  | braces (value count : Nat)
  deriving DecidableEq

/-- An escape after one more character of its code: not complete, or complete with the code. -/
def Escape.next : Escape → Char → Option (Escape ⊕ Nat)
  | start, _ => none
  | byte n count, c => (Text.hexValue? c).map fun d =>
      if count = 1 then .inr (16 * n + d) else .inl (byte (16 * n + d) (count + 1))
  | point n count, c =>
    if c = '\x7b' ∧ count = 0 then some (.inl (braces 0 0))
    else (Text.hexValue? c).map fun d =>
      if count = 3 then .inr (16 * n + d) else .inl (point (16 * n + d) (count + 1))
  | braces n count, c =>
    if c = '\x7d' then if count = 0 then none else some (.inr n)
    else (Text.hexValue? c).bind fun d =>
      if 16 * n + d < 0x110000 then some (.inl (braces (16 * n + d) (count + 1))) else none

/-- Units of the escapes of one letter. -/
def letterUnit : Char → Option Nat
  | 'b' => some 8
  | 't' => some 9
  | 'n' => some 10
  | 'v' => some 11
  | 'f' => some 12
  | 'r' => some 13
  | _ => none

/-! ### Tokens of a text -/

/-- What a text is in the middle of. -/
inductive Lexing where
  | between
  | slash
  | line
  | block
  | star
  | name (read : List Char)
  | nameEscape (read : List Char) (e : Escape)
  | number (read : List Char)
  | text (quote : Char) (units : List Nat)
  | textEscape (quote : Char) (units : List Nat) (e : Escape)
  /-- After an escaped zero, which no digit may follow. -/
  | textZero (quote : Char) (units : List Nat)
  deriving DecidableEq

def marks : List Char := ['\x7b', '\x7d', '[', ']', ',', ':']

def quotes : List Char := ['\'', '"']

def isLineEnd (c : Char) : Bool := c ∈ ['\n', '\r', '\u2028', '\u2029']

def isBlank (c : Char) : Bool :=
  isLineEnd c || c ∈ [' ', '\t', '\x0b', '\x0c', '\u00a0', '\u1680', '\u202f', '\u205f', '\u3000',
    '\ufeff'] || (0x2000 ≤ c.toNat && c.toNat ≤ 0x200a)

/-- A reading with tokens before it. -/
def after (ts : List Token) (r : List Token × Lexing) : List Token × Lexing := (ts ++ r.1, r.2)

section

variable (chars : NameChars)

/-- A character after a token, or between tokens. -/
def start (c : Char) : Option (List Token × Lexing) :=
  if isBlank c then some ([], .between)
  else if c ∈ marks then some ([.mark c], .between)
  else if c ∈ quotes then some ([], .text c [])
  else if c = '/' then some ([], .slash)
  else if c = '\\' then some ([], .nameEscape [] .start)
  else if c.isDigit ∨ c = '.' then some ([], .number [c])
  else if chars.start c then some ([], .name [c])
  else none

/-- What ends where a text ends. -/
def finish : Lexing → Option (List Token)
  | .between | .line => some []
  | .name read => some [.name (String.ofList read)]
  | .number read => (readNumber read).map fun x => [.number (numberName x)]
  | _ => none

/-- The end of a token at a character that does not belong to it. -/
def finishAt (l : Lexing) (c : Char) : Option (List Token × Lexing) :=
  (finish l).bind fun ts => (start chars c).map (after ts)

/-- A name with one more character, given by its code. -/
def addToName (read : List Char) (n : Nat) : Option Lexing :=
  let c := Char.ofNat n
  if n.isValidChar ∧ (if read = [] then chars.start c else chars.part c) then some (.name (read ++ [c]))
  else none

/-- A text after a backslash and one more character. -/
def escaped (quote : Char) (units : List Nat) (c : Char) : Option Lexing :=
  if c = 'x' then some (.textEscape quote units (.byte 0 0))
  else if c = 'u' then some (.textEscape quote units (.point 0 0))
  else if c = '0' then some (.textZero quote units)
  else if c.isDigit ∨ c = '\r' then none
  else if isLineEnd c then some (.text quote units)
  else some (.text quote (units ++ ((letterUnit c).map ([·])).getD (unitsOf c.toNat)))

/-- A text with one more character. -/
def extended (quote : Char) (units : List Nat) (c : Char) : Option (List Token × Lexing) :=
  if c = quote then some ([.text units], .between)
  else if c = '\\' then some ([], .textEscape quote units .start)
  else if c = '\n' ∨ c = '\r' then none
  else some ([], .text quote (units ++ unitsOf c.toNat))

def next : Lexing → Char → Option (List Token × Lexing)
  | .between, c => start chars c
  | .slash, c => if c = '/' then some ([], .line) else if c = '*' then some ([], .block) else none
  | .line, c => some ([], if isLineEnd c then .between else .line)
  | .block, c => some ([], if c = '*' then .star else .block)
  | .star, c => some ([], if c = '/' then .between else if c = '*' then .star else .block)
  | .name read, c =>
    if c = '\\' then some ([], .nameEscape read .start)
    else if chars.part c then some ([], .name (read ++ [c]))
    else finishAt chars (.name read) c
  | .nameEscape read .start, c => if c = 'u' then some ([], .nameEscape read (.point 0 0)) else none
  | .nameEscape read e, c => (e.next c).bind fun
    | .inl e => some ([], .nameEscape read e)
    | .inr n => (addToName chars read n).map fun l => ([], l)
  | .number read, c =>
    if continuesNumber read c then some ([], .number (read ++ [c]))
    else if c = '\\' ∨ chars.start c then none
    else finishAt chars (.number read) c
  | .text quote units, c => extended quote units c
  | .textEscape quote units .start, c => (escaped quote units c).map fun l => ([], l)
  | .textEscape quote units e, c => (e.next c).map fun
    | .inl e => ([], .textEscape quote units e)
    | .inr n => ([], .text quote (units ++ unitsOf n))
  | .textZero quote units, c => if c.isDigit then none else extended quote (units ++ [0]) c

/-- The tokens that end within a text, and what the text ends in the middle of. -/
def run (l : Lexing) : List Char → Option (List Token × Lexing)
  | [] => some ([], l)
  | c :: cs => (next chars l c).bind fun (ts, l) => (run l cs).map (after ts)

/-- The tokens of a text, what is read so far being in the middle of something. -/
def tokensFrom (l : Lexing) (cs : List Char) : Option (List Token) :=
  (run chars l cs).bind fun (ts, l) => (finish l).map (ts ++ ·)

def tokens (cs : List Char) : Option (List Token) := tokensFrom chars .between cs

end

example : tokens asciiNames "\x7b\n  big_cat: Cat\n\x7d".toList =
    some [.mark '\x7b', .name "big_cat", .mark ':', .name "Cat", .mark '\x7d'] := by rfl

/-! ### One character -/

/-- Whether no token has been begun. -/
def Lexing.isOutside : Lexing → Bool
  | .between | .slash | .line | .block | .star => true
  | _ => false

/-- What reading a character may come to. -/
inductive Advance (chars : NameChars) (c : Char) : Lexing → List Token → Lexing → Prop
  | start {ts l'} : start chars c = some (ts, l') → Advance chars c .between ts l'
  | outside {l l'} : l'.isOutside → Advance chars c l [] l'
  | name {read} : chars.part c → Advance chars c (.name read) [] (.name (read ++ [c]))
  | nameBackslash {read} : Advance chars c (.name read) [] (.nameEscape read .start)
  | nameEscape {read e e'} : Advance chars c (.nameEscape read e) [] (.nameEscape read e')
  | addToName {read e n l'} : addToName chars read n = some l' →
      Advance chars c (.nameEscape read e) [] l'
  | number {read} : Advance chars c (.number read) [] (.number (read ++ [c]))
  | finishAt {l ts l'} : finishAt chars l c = some (ts, l') → Advance chars c l ts l'
  | text {quote units ts l'} : extended quote units c = some (ts, l') →
      Advance chars c (.text quote units) ts l'
  | textZero {quote units ts l'} : extended quote (units ++ [0]) c = some (ts, l') →
      Advance chars c (.textZero quote units) ts l'
  | escaped {quote units l'} : escaped quote units c = some l' →
      Advance chars c (.textEscape quote units .start) [] l'
  | textEscape {quote units e e'} :
      Advance chars c (.textEscape quote units e) [] (.textEscape quote units e')
  | unit {quote units e n} :
      Advance chars c (.textEscape quote units e) [] (.text quote (units ++ unitsOf n))

theorem name_of_addToName {chars : NameChars} {read : List Char} {n : Nat} {l : Lexing}
    (h : addToName chars read n = some l) : ∃ read', l = .name read' := by
  simp only [addToName, Option.ite_none_right_eq_some] at h
  exact ⟨_, (Option.some.inj h.2).symm⟩

theorem advance_of_next {chars : NameChars} {l l' : Lexing} {ts : List Token} {c : Char}
    (h : next chars l c = some (ts, l')) : Advance chars c l ts l' := by
  cases l with
  | between => exact .start h
  | slash =>
    rw [next] at h
    split_ifs at h <;> cases h <;> exact .outside rfl
  | line | block | star =>
    cases h
    exact .outside (by split_ifs <;> rfl)
  | name read =>
    rw [next] at h
    split_ifs at h with _ hpart
    · cases h
      exact .nameBackslash
    · cases h
      exact .name hpart
    · exact .finishAt h
  | nameEscape read e =>
    cases e with
    | start =>
      rw [next] at h
      split_ifs at h
      cases h
      exact .nameEscape
    | _ =>
      obtain ⟨e | n, -, h⟩ := Option.bind_eq_some_iff.mp h
      · cases h
        exact .nameEscape
      · obtain ⟨l₁, hadd, h⟩ := Option.map_eq_some_iff.mp h
        cases h
        exact .addToName hadd
  | number read =>
    rw [next] at h
    split_ifs at h
    · cases h
      exact .number
    · exact .finishAt h
  | text quote units => exact .text h
  | textEscape quote units e =>
    cases e with
    | start =>
      obtain ⟨l₁, hescaped, h⟩ := Option.map_eq_some_iff.mp h
      cases h
      exact .escaped hescaped
    | _ =>
      obtain ⟨e | n, -, h⟩ := Option.map_eq_some_iff.mp h
      · cases h
        exact .textEscape
      · cases h
        exact .unit
  | textZero quote units =>
    rw [next] at h
    split_ifs at h
    exact .textZero h

/-! ### Texts put together -/

section

variable {chars : NameChars} {l l₁ l' : Lexing} {ts us : List Token}

@[simp] theorem after_nil : after [] = id := rfl

@[simp] theorem after_after (ts us : List Token) (r : List Token × Lexing) :
    after ts (after us r) = after (ts ++ us) r := by
  simp [after]

theorem run_cons {c : Char} (h : next chars l c = some (ts, l₁)) (cs : List Char) :
    run chars l (c :: cs) = (run chars l₁ cs).map (after ts) := by
  rw [run, h, Option.bind_some]

@[simp] theorem run_singleton (l : Lexing) (c : Char) : run chars l [c] = next chars l c := by
  cases h : next chars l c with
  | none => simp [run, h]
  | some r => simp [run, h, after]

theorem run_append (l : Lexing) (cs cs' : List Char) :
    run chars l (cs ++ cs') =
      (run chars l cs).bind fun (ts, l) => (run chars l cs').map (after ts) := by
  induction cs generalizing l with
  | nil => simp [run]
  | cons c cs ih =>
    cases h : next chars l c with
    | none => simp [run, h]
    | some r =>
      rw [List.cons_append, run_cons h, run_cons h, ih]
      cases run chars r.2 cs with
      | none => rfl
      | some r' =>
        simp only [Option.map_some, Option.bind_some, Option.map_map, Function.comp_def, after_after]
        rfl

theorem run_append_eq_some {cs cs' : List Char} :
    run chars l (cs ++ cs') = some (ts, l') ↔
      ∃ us l₁ vs, run chars l cs = some (us, l₁) ∧ run chars l₁ cs' = some (vs, l') ∧ us ++ vs = ts := by
  rw [run_append]
  simp only [Option.bind_eq_some_iff, Option.map_eq_some_iff, Prod.exists, after,
    Prod.mk.injEq]
  constructor
  · rintro ⟨us, l₁, h, vs, _, hrun, rfl, rfl⟩
    exact ⟨us, l₁, vs, h, hrun, rfl⟩
  · rintro ⟨us, l₁, vs, h, hrun, rfl⟩
    exact ⟨us, l₁, h, vs, l', hrun, rfl, rfl⟩

theorem run_cons_eq_some {c : Char} {cs : List Char} :
    run chars l (c :: cs) = some (ts, l') ↔
      ∃ us l₁ vs, next chars l c = some (us, l₁) ∧ run chars l₁ cs = some (vs, l') ∧ us ++ vs = ts := by
  rw [← List.singleton_append, run_append_eq_some]
  simp only [run_singleton]

@[simp] theorem tokensFrom_nil (l : Lexing) : tokensFrom chars l [] = finish l := by
  cases h : finish l <;> simp [tokensFrom, run, h]

theorem tokensFrom_append (l : Lexing) (cs cs' : List Char) :
    tokensFrom chars l (cs ++ cs') =
      (run chars l cs).bind fun (ts, l) => (tokensFrom chars l cs').map (ts ++ ·) := by
  rw [tokensFrom, run_append]
  cases run chars l cs with
  | none => rfl
  | some r =>
    simp only [Option.bind_some, tokensFrom]
    cases run chars r.2 cs' with
    | none => rfl
    | some r' => simp [after, Function.comp_def]

end

end ApiRecords.ObjectNotation
