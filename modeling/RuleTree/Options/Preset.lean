import RuleTree.Value

/-! # SQL presets

How the SQL databases quote names, join texts and mark parameters.
-/
namespace RuleTree
namespace Preset

/-- The settings that a preset makes, by option name. -/
def settings (openQuote closeQuote concat paramPrefix : String) (numbered : Bool) :
    List (String × Value) :=
  [("quote_field_names_with", .list [.text openQuote, .text closeQuote]),
    ("concat_operator", .text concat), ("param_prefix", .text paramPrefix)]
    ++ (if numbered then [("numbered_params", .bool true)] else [])

def ansi : List (String × Value) := settings "" "" "||" ":" false

def sqlite : List (String × Value) := settings "\"" "\"" "||" ":" false

/-- Double quotes and numbered placeholders. -/
def postgresql : List (String × Value) := settings "\"" "\"" "||" "$" true

/-- Backticks, and a function that joins texts. -/
def mysql : List (String × Value) := settings "`" "`" "CONCAT" ":" false

/-- Brackets, a plus that joins texts, and parameters marked by an at sign. -/
def mssql : List (String × Value) := settings "[" "]" "+" "@" false

def oracle : List (String × Value) := settings "\"" "\"" "||" ":" false

/-- The preset of a name. -/
def ofName? : String → Option (List (String × Value))
  | "ansi" => some ansi
  | "sqlite" => some sqlite
  | "postgresql" => some postgresql
  | "mysql" => some mysql
  | "mssql" => some mssql
  | "oracle" => some oracle
  | _ => none

end Preset
end RuleTree
