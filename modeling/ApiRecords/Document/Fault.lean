import ApiRecords.Document.Shown

/-!
Causes of failure, and the texts of those that are reported with one.
-/

namespace ApiRecords

inductive SpecFault where
  | noSchemas
  | definitionsNotMapping
  | notLocal (ref : String)
  | unresolvable (ref : String)
  | notSchema (ref : String)
  | circularChain (ref : String)

inductive UnionFault where
  | discriminatorNotMapping (found : Tree)
  | unnamedBranch (index : Nat) (property : Tree)
  | branchWithoutIdentity (name property : Tree)
  /-- An entry of the mapping fits `found` branches instead of one. -/
  | ambiguousEntry (key : String) (target : Tree) (found : Nat)

inductive FileFault where
  | present
  | isFolder
  | notFolder
  | missing
  | busy
  | unnameable
  deriving DecidableEq

inductive Fault where
  /-- A mapping is asked for its members, and the value is none. -/
  | notMapping
  /-- A text is asked for its parts, and the value is none. -/
  | notText
  | fixedSetting (name : String)
  | unsuitableSetting (name : String)
  | hiddenOperation (name : String)
  | notIterable
  | notSearchable
  | notIndexable
  | notKey
  /-- A value other than a text among texts to be joined, or to be written. -/
  | notJoinable
  | missingKey (key : String)
  | missingIndex (index : Nat)
  | notPair
  /-- The value leads back into itself and has no finite text. -/
  | endlessValue
  /-- The references of the document unfold forever. -/
  | endlessExpansion
  | malformedText
  | malformedBytes
  | missingField (name : String)
  | unknownCase (found : Tree)
  | spec (fault : SpecFault)
  | union (fault : UnionFault)
  | file (fault : FileFault)

def SpecFault.message : SpecFault → String
  | noSchemas => "OpenAPI document has no components.schemas"
  | definitionsNotMapping => "Schema definitions must be a mapping"
  | notLocal ref => "Only local references are supported: " ++ ref
  | unresolvable ref => "Unresolvable reference " ++ ref
  | notSchema ref => "Reference " ++ ref ++ " does not point at a schema"
  | circularChain ref => "Circular reference chain at " ++ ref

def UnionFault.message : UnionFault → String
  | discriminatorNotMapping found => "Discriminator must be an object, got " ++ found.shown
  | unnamedBranch index property =>
    "oneOf branch #" ++ toString index ++ " of discriminator " ++ property.shown ++
      " is not a named model"
  | branchWithoutIdentity name property =>
    "oneOf branch " ++ name.display ++ " of discriminator " ++ property.shown ++
      " has no identity attribute"
  | ambiguousEntry key target found =>
    "Discriminator mapping " ++ Text.shown key ++ " -> " ++ target.shown ++ " matches " ++
      (if found = 0 then "no branch" else toString found ++ " branches") ++ " of the oneOf"

/-- The text reported with a failure, for those that have one. -/
def Fault.message? : Fault → Option String
  | spec fault => some fault.message
  | union fault => some fault.message
  | unknownCase found =>
    some ("Unknown attribute_case " ++ found.shown ++
      ", expected one of ['camel', 'none', 'snake']")
  | _ => none

end ApiRecords
