import ApiRecords.Model.Blueprint

/-!
What is reported on the way.
-/

namespace ApiRecords

inductive Level where
  | debug
  | info
  | warning
  deriving DecidableEq

def Level.name : Level → String
  | debug => "DEBUG"
  | info => "INFO"
  | warning => "WARNING"

structure Notice where
  level : Level
  text : String

/-- The warning about a definition that is given no files. -/
def Identity.notices (name : Tree) (i : Identity) : List Notice :=
  if name.truthy then ((i.warning? name).map fun text => ⟨.warning, text⟩).toList else []

namespace Graph

/-- What is reported while a model is described, a failure included. -/
def notices (g : Graph) (name : Tree) (model : Value) : List Notice :=
  match g.identity model with
  | .error _ => []
  | .ok (.found identity) =>
    match g.survey model identity with
    | .error _ => []
    | .ok s => [⟨.debug, s.summary name⟩]
  | .ok i => i.notices name

end Graph

end ApiRecords
