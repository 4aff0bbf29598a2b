import ApiRecords.Text.Split

/-!
Paths of files as they are written: names between slashes, relative or from the root. Empty names and
single dots are dropped, double dots are kept until the path is made normal.
-/

namespace ApiRecords

/-- Where a path starts: `""`, `"/"` or `"//"`. -/
inductive Anchor where
  | here
  | root
  | doubleRoot
  deriving DecidableEq

structure Path where
  anchor : Anchor
  names : List String
  deriving DecidableEq

namespace Anchor

def text : Anchor → String
  | here => ""
  | root => "/"
  | doubleRoot => "//"

/-- Exactly two slashes at the start are told apart from one and from more. -/
def ofChars : List Char → Anchor
  | '/' :: '/' :: '/' :: _ => root
  | '/' :: '/' :: _ => doubleRoot
  | '/' :: _ => root
  | _ => here

end Anchor

namespace Path

def here : Path := ⟨.here, []⟩

def ofText (s : String) : Path :=
  ⟨.ofChars s.toList, (Text.parts '/' s).filter fun n => n ≠ "" && n ≠ "."⟩

def text (p : Path) : String :=
  if p.anchor = .here ∧ p.names = [] then "."
  else p.anchor.text ++ "/".intercalate p.names

def isAbsolute (p : Path) : Bool := p.anchor ≠ .here

def join (p q : Path) : Path := if q.isAbsolute then q else ⟨p.anchor, p.names ++ q.names⟩

def child (p : Path) (name : String) : Path := p.join (ofText name)

def parent (p : Path) : Path := ⟨p.anchor, p.names.dropLast⟩

/-- Names without double dots, from the root: each double dot takes away the name before it. -/
def normalNames (names : List String) : List String :=
  names.foldl (fun acc n => if n = ".." then acc.dropLast else acc ++ [n]) []

/-- The path from the root that `p` stands for in the folder `current`. -/
def normal (current p : Path) : Path :=
  let q := current.join p
  ⟨q.anchor, normalNames q.names⟩

/-- Names left of each list after those they share at the start. -/
def dropShared : List String → List String → List String × List String
  | a :: as, b :: bs => if a = b then dropShared as bs else (a :: as, b :: bs)
  | as, bs => (as, bs)

def relative (current start target : Path) : Path :=
  let (up, down) := dropShared (normal current start).names (normal current target).names
  ⟨.here, up.map (fun _ => "..") ++ down⟩

end Path

end ApiRecords
