namespace YulBackend

inductive ValueSort
  | int
  | bool
deriving DecidableEq, Repr

def ValueSort.name : ValueSort → String
  | int => "int"
  | bool => "bool"

/-- Terms over unbounded integers and truth values, the questions that the optimiser puts to a prover. -/
inductive Formula
  | int (value : Int)
  | bool (value : Bool)
  | var (name : String) (sort : ValueSort)
  | add (a b : Formula)
  | lt (a b : Formula)
  | gt (a b : Formula)
  | eq (a b : Formula)
  | not (a : Formula)
  | ite (condition yes no : Formula)
deriving DecidableEq, Inhabited

namespace Formula

def notEq (a b : Formula) : Formula := .not (.eq a b)

/-- What a formula denotes, read off its head. -/
def sort : Formula → ValueSort
  | int _ | add .. => .int
  | bool _ | lt .. | gt .. | eq .. | not _ => .bool
  | var _ sort => sort
  | ite _ yes _ => yes.sort

/-- Names of the variables in a formula, each as often as it occurs. -/
def variableNames : Formula → List String
  | int _ | bool _ => []
  | var name _ => [name]
  | add a b | lt a b | gt a b | eq a b => a.variableNames ++ b.variableNames
  | not a => a.variableNames
  | ite condition yes no => condition.variableNames ++ yes.variableNames ++ no.variableNames

/-- The formula as it is logged: operator first, in parentheses. -/
def text : Formula → String
  | int value => toString value
  | bool value => if value then "true" else "false"
  | var name _ => name
  | add a b => "(+ " ++ a.text ++ " " ++ b.text ++ ")"
  | lt a b => "(< " ++ a.text ++ " " ++ b.text ++ ")"
  | gt a b => "(> " ++ a.text ++ " " ++ b.text ++ ")"
  | eq a b => "(= " ++ a.text ++ " " ++ b.text ++ ")"
  | not a => "(not " ++ a.text ++ ")"
  | ite condition yes no => "(ite " ++ condition.text ++ " " ++ yes.text ++ " " ++ no.text ++ ")"

end Formula

end YulBackend
