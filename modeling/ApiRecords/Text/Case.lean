import ApiRecords.Text.Words

/-!
The spellings that can be asked for by name. A conversion of attribute names need not be one of them.
-/

namespace ApiRecords

inductive Case where
  | plain
  | camel
  | snake
  deriving DecidableEq

namespace Case

def name : Case → String
  | plain => "none"
  | camel => "camel"
  | snake => "snake"

def ofName? (s : String) : Option Case := [plain, camel, snake].find? fun c => c.name = s

/-- The name in this spelling. The plain one leaves names as they are. -/
def convert : Case → String → String
  | plain => id
  | camel => Text.camelCase
  | snake => Text.snakeCase

instance : Coe Case (String → String) := ⟨convert⟩

@[simp] theorem ofName?_name (c : Case) : ofName? c.name = some c := by cases c <;> decide

@[simp] theorem convert_plain (s : String) : plain.convert s = s := rfl

end Case

end ApiRecords
