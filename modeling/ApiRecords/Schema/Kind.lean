import ApiRecords.Schema.Marker

/-!
The kinds of schema nodes. Each node has one kind, and what is done with it depends on the kind only.
-/

namespace ApiRecords

inductive Kind where
  | model
  /-- Alternatives told apart by a property. -/
  | discriminatedUnion
  /-- Alternatives without a property to tell them apart. -/
  | alternatives
  | object
  | array
  | mapping
  | opaqueValue
  deriving DecidableEq

def Kind.name : Kind → String
  | model => "model"
  | discriminatedUnion => "discriminated_union"
  | alternatives => "polymorphic_ref_list"
  | object => "object_shape"
  | array => "array_shape"
  | mapping => "mapping"
  | opaqueValue => "primitive_or_opaque"

namespace Graph

def shapeKind (g : Graph) (v : Value) : Kind :=
  if (g.array? (g.get v "oneOf")).isSome then
    if g.truthy (g.get v "discriminator") then .discriminatedUnion else .alternatives
  else if g.get v "type" = .scalar (.text "object") then .object
  else if g.get v "type" = .scalar (.text "array") then .array
  else .mapping

def kind (g : Graph) (v : Value) : Except Fault Kind :=
  match g.node? v with
  | none => .ok .opaqueValue
  | some (.array _) => .ok .mapping
  | some (.object _) => do return if ← g.standsForModel v then .model else g.shapeKind v

end Graph

end ApiRecords
