import ApiRecords.Source.Base

/-!
The override file of a model: it passes on what the base file makes known, and gives a class to be
extended by hand.
-/

namespace ApiRecords.Source

/-- `basePath` leads from the override file to the folder of base files. -/
def override (d : Blueprint) (templates : Templates) (basePath : String) : List Item :=
  let source := basePath ++ "/" ++ d.fileName
  templates.fill .override [
    .comment "// Generated once by openapi_to_models. Add custom behavior here; this file is never overwritten.",
    .importDefault (className d.name) source,
    .blank,
    .exportNames
      ([entityName d.name] ++
        (if d.options.usePropTypes.truthy then [propTypeName d.name] else []) ++ d.constantNames)
      source,
    .blank,
    .exportClass d.name.display (className d.name) []]

end ApiRecords.Source
