/-!
TOML values. A table lists its keys in ascending order.
-/
namespace SemanticLayer

inductive Toml where
  | string (text : String)
  | integer (value : Int)
  | float (text : String)
  | bool (value : Bool)
  | moment (text : String)
  | array (elements : List Toml)
  | table (entries : List (String × Toml))

namespace Toml

def entry? (name : String) : Toml → Option Toml
  | .table entries => entries.lookup name
  | _ => none

end Toml

end SemanticLayer
