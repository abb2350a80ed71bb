import SemanticLayer.Sorted
import SemanticLayer.Toml.Basic

/-!
Tables while a document is read. Which of them may still grow, and by what, depends on how they came
about; a finished tree forgets that.
-/
namespace SemanticLayer.Toml

inductive Growth where
  | header
  | implied
  | dotted
  deriving DecidableEq, Repr

inductive Node where
  | value (value : Toml)
  | table (growth : Growth) (entries : List (String × Node))
  /-- An array of tables, each with a header of its own. Only the last one grows. -/
  | tables (earlier : List (List (String × Node))) (last : List (String × Node))

abbrev Entries := List (String × Node)

namespace Entries

/-- Gives a value to a dotted key. It may name parts of tables that have no header of their own, but the
innermost table must have come about by dotted keys. -/
def assign (value : Toml) : List String → Entries → Option Entries
  | [], _ => none
  | [key], entries =>
    if (entries.lookup key).isSome then none else some (putSorted key (.value value) entries)
  | key :: path, entries =>
    match entries.lookup key with
    | none => (assign value path []).map fun inner => putSorted key (.table .dotted inner) entries
    | some (.table growth inner) =>
      if growth = .header ∨ growth = .implied ∧ path.length = 1 then none
      else (assign value path inner).map fun inner => putSorted key (.table growth inner) entries
    | some _ => none

/-- Opens the table that a header names; a table is opened at most once. -/
def openTable : List String → Entries → Option Entries
  | [], _ => none
  | [key], entries =>
    match entries.lookup key with
    | none => some (putSorted key (.table .header []) entries)
    | some (.table .implied inner) => some (putSorted key (.table .header inner) entries)
    | some _ => none
  | key :: path, entries =>
    match entries.lookup key with
    | none =>
      (openTable path []).map fun inner => putSorted key (.table .implied inner) entries
    | some (.table growth inner) =>
      (openTable path inner).map fun inner => putSorted key (.table growth inner) entries
    | some (.tables earlier last) =>
      (openTable path last).map fun last => putSorted key (.tables earlier last) entries
    | some (.value _) => none

def openElement : List String → Entries → Option Entries
  | [], _ => none
  | [key], entries =>
    match entries.lookup key with
    | none => some (putSorted key (.tables [] []) entries)
    | some (.tables earlier last) => some (putSorted key (.tables (earlier ++ [last]) []) entries)
    | some _ => none
  | key :: path, entries =>
    match entries.lookup key with
    | none =>
      (openElement path []).map fun inner => putSorted key (.table .implied inner) entries
    | some (.table growth inner) =>
      (openElement path inner).map fun inner => putSorted key (.table growth inner) entries
    | some (.tables earlier last) =>
      (openElement path last).map fun last => putSorted key (.tables earlier last) entries
    | some (.value _) => none

def within (change : Entries → Option Entries) : List String → Entries → Option Entries
  | [], entries => change entries
  | key :: path, entries =>
    match entries.lookup key with
    | some (.table growth inner) =>
      (within change path inner).map fun inner => putSorted key (.table growth inner) entries
    | some (.tables earlier last) =>
      (within change path last).map fun last => putSorted key (.tables earlier last) entries
    | _ => none

end Entries

mutual

def Node.toToml : Node → Toml
  | .value value => value
  | .table _ entries => .table (finished entries)
  | .tables earlier last => .array (finishedAll earlier ++ [.table (finished last)])

def finished : List (String × Node) → List (String × Toml)
  | [] => []
  | (key, node) :: rest => (key, node.toToml) :: finished rest

def finishedAll : List (List (String × Node)) → List Toml
  | [] => []
  | entries :: rest => .table (finished entries) :: finishedAll rest

end

end SemanticLayer.Toml
