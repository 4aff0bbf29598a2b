import ApiRecords.Source.Item

/-!
Parts of the generated files that a user may put texts of their own in place of, by file name.
-/

namespace ApiRecords.Source

inductive Part where
  | model
  | override
  | index
  | head
  | unionEntry
  | dependency
  deriving DecidableEq

def Part.fileName : Part → String
  | model => "model.js.jinja2"
  | override => "override.js.jinja2"
  | index => "models.js.jinja2"
  | head => "head.js.jinja2"
  | unionEntry => "one_of.js.jinja2"
  | dependency => "dependency.js.jinja2"

def Part.isWhole : Part → Bool
  | model | override | index => true
  | head | unionEntry | dependency => false

/-- The text with every end of line as a single line feed. -/
def unixLines : List Char → List Char
  | '\r' :: '\n' :: cs => '\n' :: unixLines cs
  | '\r' :: cs => '\n' :: unixLines cs
  | c :: cs => c :: unixLines cs
  | [] => []

structure Templates where
  given : Part → Option String

namespace Templates

def builtin : Templates := ⟨fun _ => none⟩

def ofParts (found : Part → Option String) : Templates :=
  ⟨fun part => (found part).map fun s => String.ofList (unixLines s.toList)⟩

/-- Those of `s` for the parts that are whole files, those of `t` for the parts within them. -/
def within (s t : Templates) : Templates :=
  ⟨fun part => if part.isWhole then s.given part else t.given part⟩

/-- The text given for a part, or else its own items. -/
def fill (t : Templates) (part : Part) (own : List Item) : List Item :=
  match t.given part with
  | some s => [.verbatim s]
  | none => own

@[simp] theorem fill_builtin (part : Part) (own : List Item) : builtin.fill part own = own := rfl

end Templates

end ApiRecords.Source
