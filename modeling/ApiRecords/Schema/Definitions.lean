import ApiRecords.Schema.Marker

/-!
The schema definitions of a document, of the current form (`components.schemas`) or of the second
version (`definitions`, or the document itself), and the models among them.
-/

namespace ApiRecords

namespace Document

def schemaTable (doc : Document) (v2 : Bool) : Except Fault Value := do
  let g := doc.graph
  let root ←
    if v2 then
      let some _ := g.object? doc.root | throw .notMapping
      pure ((g.member? doc.root "definitions").getD doc.root)
    else
      let some schemas := (g.member? doc.root "components").bind (g.member? · "schemas")
        | throw (.spec .noSchemas)
      pure schemas
  let some _ := g.object? root | throw (.spec .definitionsNotMapping)
  return root

def definitions (doc : Document) (v2 : Bool) : Except Fault (List (String × Value)) := do
  return (doc.graph.object? (← doc.schemaTable v2)).getD []

/-- The named models by name. Of those that share a name the last one counts, in the place of the
first. -/
def models (doc : Document) (v2 : Bool) : Except Fault (List (Scalar × Value)) := do
  (← doc.definitions v2).foldlM (fun acc (_, v) => do
    let name := doc.graph.modelName v
    if name.truthy then return putBy Scalar.same (← name.key?) v acc else return acc) []

end Document

end ApiRecords
