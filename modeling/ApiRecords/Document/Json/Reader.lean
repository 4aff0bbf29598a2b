import ApiRecords.Document.Fault
import ApiRecords.Document.Members

/-!
JSON text read as a value. The text is cut into tokens character by character, then the tokens are
put together over the open containers. Besides the standard's values, `NaN` and the infinities are
accepted. A repeated key keeps its first place and its last value.
-/

namespace ApiRecords

namespace Json

inductive Token where
  | openArray
  | closeArray
  | openObject
  | closeObject
  | comma
  | colon
  | scalar (s : Scalar)

def digitsValue (cs : List Char) : Nat := cs.foldl (fun n c => 10 * n + (c.toNat - 48)) 0

/-- Digits of a whole number: no zero in front of others. -/
def wholeDigits (cs : List Char) : Bool :=
  match cs with
  | [] => false
  | ['0'] => true
  | c :: rest => c ≠ '0' && c.isDigit && rest.all Char.isDigit

/-- An exponent: an optional sign and digits. -/
def readExponent : List Char → Option Int
  | '-' :: c :: cs => if (c :: cs).all Char.isDigit then some (-(digitsValue (c :: cs) : Int)) else none
  | '+' :: c :: cs => if (c :: cs).all Char.isDigit then some (digitsValue (c :: cs)) else none
  | c :: cs => if (c :: cs).all Char.isDigit then some (digitsValue (c :: cs)) else none
  | [] => none

/-- A number without its sign: a whole number, or a double where a point or an exponent follows. -/
def readUnsigned (neg : Bool) (cs : List Char) : Option Scalar :=
  let (whole, rest) := cs.span Char.isDigit
  if !wholeDigits whole then none else
    match rest with
    | [] => some (.int (if neg then -(digitsValue whole : Int) else digitsValue whole))
    | '.' :: more =>
      let (places, tail) := more.span Char.isDigit
      if places = [] then none else
        let digits := digitsValue (whole ++ places)
        match tail with
        | [] => some (.double (.ofDecimal neg digits (-(places.length : Int))))
        | e :: power =>
          if e = 'e' ∨ e = 'E' then
            (readExponent power).map fun x => .double (.ofDecimal neg digits (x - places.length))
          else none
    | e :: power =>
      if e = 'e' ∨ e = 'E' then
        (readExponent power).map fun x => .double (.ofDecimal neg (digitsValue whole) x)
      else none

def readWord (w : String) : Option Scalar :=
  match w with
  | "null" => some .null
  | "true" => some (.bool true)
  | "false" => some (.bool false)
  | "NaN" => some (.double .nan)
  | "Infinity" => some (.double (.infinite false))
  | "-Infinity" => some (.double (.infinite true))
  | _ =>
    match w.toList with
    | '-' :: cs => readUnsigned true cs
    | cs => readUnsigned false cs

/-- Where the cut stands. Characters read so far are held in reverse; `high` is the first half of a
character beyond 16 bits. -/
inductive Mode where
  | between
  | word (taken : List Char)
  | text (taken : List Char) (high : Option Nat)
  | escape (taken : List Char) (high : Option Nat)
  | code (taken : List Char) (high : Option Nat) (count value : Nat)

def isSpace (c : Char) : Bool := c = ' ' || c = '\t' || c = '\n' || c = '\r'

def punctuation? : Char → Option Token
  | '[' => some .openArray
  | ']' => some .closeArray
  | '{' => some .openObject
  | '}' => some .closeObject
  | ',' => some .comma
  | ':' => some .colon
  | _ => none

/-- A first half that found no second one stands for an unknown character. -/
def settle (taken : List Char) : Option Nat → List Char
  | none => taken
  | some _ => '\ufffd' :: taken

def simpleEscape? : Char → Option Char
  | '"' => some '"'
  | '\\' => some '\\'
  | '/' => some '/'
  | 'b' => some '\x08'
  | 'f' => some '\x0c'
  | 'n' => some '\n'
  | 'r' => some '\r'
  | 't' => some '\t'
  | _ => none

/-- The text after an escape of code unit `unit`. -/
def addUnit (taken : List Char) (high : Option Nat) (unit : Nat) : List Char × Option Nat :=
  if 0xdc00 ≤ unit ∧ unit < 0xe000 then
    match high with
    | some h => (Char.ofNat (0x10000 + (h - 0xd800) * 0x400 + (unit - 0xdc00)) :: taken, none)
    | none => ('\ufffd' :: taken, none)
  else if 0xd800 ≤ unit ∧ unit < 0xdc00 then (settle taken high, some unit)
  else (Char.ofNat unit :: settle taken high, none)

/-- Tokens found so far, in reverse, and the place of the cut. -/
abbrev Cut := List Token × Mode

def startToken (tokens : List Token) (c : Char) : Cut :=
  if isSpace c then (tokens, .between)
  else match punctuation? c with
    | some t => (t :: tokens, .between)
    | none => if c = '"' then (tokens, .text [] none) else (tokens, .word [c])

def endWord (tokens : List Token) (taken : List Char) : Option (List Token) :=
  (readWord (String.ofList taken.reverse)).map fun s => .scalar s :: tokens

def cutChar : Cut → Char → Option Cut
  | (tokens, .between), c => some (startToken tokens c)
  | (tokens, .word taken), c =>
    if isSpace c || (punctuation? c).isSome || c = '"' then
      (endWord tokens taken).map (startToken · c)
    else some (tokens, .word (c :: taken))
  | (tokens, .text taken high), c =>
    if c = '"' then
      some (.scalar (.text (String.ofList (settle taken high).reverse)) :: tokens, .between)
    else if c = '\\' then some (tokens, .escape taken high)
    else if c.toNat < 0x20 then none
    else some (tokens, .text (c :: settle taken high) none)
  | (tokens, .escape taken high), c =>
    if c = 'u' then some (tokens, .code taken high 0 0)
    else (simpleEscape? c).map fun d => (tokens, .text (d :: settle taken high) none)
  | (tokens, .code taken high count value), c =>
    (Text.hexValue? c).map fun d =>
      let value := 16 * value + d
      if count = 3 then
        let (taken, high) := addUnit taken high value
        (tokens, .text taken high)
      else (tokens, .code taken high (count + 1) value)

def tokens? (cs : List Char) : Option (List Token) :=
  match cs.foldlM cutChar ([], .between) with
  | some (tokens, .between) => some tokens.reverse
  | some (tokens, .word taken) => (endWord tokens taken).map List.reverse
  | _ => none

/-- An open container: items or members read so far, and the key of the member being read. -/
inductive Frame where
  | array (items : List Tree)
  | object (members : List (String × Tree)) (key : String)

inductive Next where
  | value
  | valueOrClose
  | key (members : List (String × Tree))
  | keyOrClose
  | colon (members : List (String × Tree)) (key : String)
  | commaOrClose (frame : Frame)
  | done (value : Tree)

def finish (value : Tree) : List Frame → List Frame × Next
  | [] => ([], .done value)
  | .array items :: frames => (frames, .commaOrClose (.array (value :: items)))
  | .object members key :: frames => (frames, .commaOrClose (.object (putMember key value members) key))

def takeToken : List Frame × Next → Token → Option (List Frame × Next)
  | (frames, .value), .scalar s | (frames, .valueOrClose), .scalar s => some (finish (.scalar s) frames)
  | (frames, .value), .openArray | (frames, .valueOrClose), .openArray =>
    some (.array [] :: frames, .valueOrClose)
  | (frames, .value), .openObject | (frames, .valueOrClose), .openObject => some (frames, .keyOrClose)
  | (.array items :: frames, .valueOrClose), .closeArray => some (finish (.array items.reverse) frames)
  | (frames, .keyOrClose), .closeObject => some (finish (.object []) frames)
  | (frames, .keyOrClose), .scalar (.text key) => some (frames, .colon [] key)
  | (frames, .key members), .scalar (.text key) => some (frames, .colon members key)
  | (frames, .colon members key), .colon => some (.object members key :: frames, .value)
  | (frames, .commaOrClose (.array items)), .comma => some (.array items :: frames, .value)
  | (frames, .commaOrClose (.array items)), .closeArray => some (finish (.array items.reverse) frames)
  | (frames, .commaOrClose (.object members _)), .comma => some (frames, .key members)
  | (frames, .commaOrClose (.object members _)), .closeObject => some (finish (.object members) frames)
  | _, _ => none

def read? (s : String) : Option Tree := do
  match ← (← tokens? s.toList).foldlM takeToken ([], .value) with
  | ([], .done value) => some value
  | _ => none

end Json

def Tree.ofJson (s : String) : Except Fault Tree :=
  match Json.read? s with
  | some t => .ok t
  | none => .error .malformedText

def Tree.ofJsonBytes (bytes : ByteArray) : Except Fault Tree :=
  match String.fromUTF8? bytes with
  | some s => Tree.ofJson s
  | none => .error .malformedBytes

end ApiRecords
