import ApiRecords.Source.Templates

/-!
The lines at the top of every file that is written anew each time.
-/

namespace ApiRecords.Source

/-- `date` is the time of generation, where it is to be shown. -/
def head (templates : Templates) (date : Option String) : List Item :=
  templates.fill .head (
    [.comment "/* eslint-disable */",
     .comment "// This file is generated by openapi_to_models. Do not edit it by hand."] ++
    (date.map fun d => .comment ("// Generated at " ++ d)).toList)

end ApiRecords.Source
