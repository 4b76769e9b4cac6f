/-!
# Joined texts
-/

namespace WhereClause.Text

/-- The text `x₁ ++ separator ++ x₂ ++ separator ++ …`. -/
def joinWith (separator : List Char) : List (List Char) → List Char
  | [] => []
  | [x] => x
  | x :: y :: rest => x ++ separator ++ joinWith separator (y :: rest)

/-- The text in parentheses. -/
def parenthesized (text : List Char) : List Char :=
  '(' :: text ++ [')']

end WhereClause.Text
