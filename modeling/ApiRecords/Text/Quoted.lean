/-!
String literals between single quotes. Backslash, quote, line feed and carriage return are escaped
by a backslash, all other characters stand for themselves.
-/

namespace ApiRecords.Text

def quoteChar : Char → List Char
  | '\\' => ['\\', '\\']
  | '\'' => ['\\', '\'']
  | '\n' => ['\\', 'n']
  | '\r' => ['\\', 'r']
  | c => [c]

def singleQuoted (s : String) : String :=
  String.ofList ('\'' :: s.toList.flatMap quoteChar ++ ['\''])

end ApiRecords.Text
