/-! Texts one after another. -/

namespace StackCode.Text

/-- Texts with a comma and a blank between them. -/
def commaSeparated : List String → String
  | [] => ""
  | [last] => last
  | first :: second :: rest => first ++ ", " ++ commaSeparated (second :: rest)

end StackCode.Text
