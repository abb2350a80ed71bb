/-!
Ordered maps from names to fields in which a field can be hidden. A hidden field cannot be named in
new expressions, while definitions that were written against it still find it.
-/
namespace SemanticLayer

structure Slot (φ : Type) where
  name : String
  field : φ
  hidden : Bool

structure Slots (φ : Type) where
  entries : List (Slot φ)

namespace Slots

def empty : Slots φ := ⟨[]⟩

def slot? (s : Slots φ) (name : String) : Option (Slot φ) :=
  s.entries.find? fun slot => slot.name == name

def lookup? (s : Slots φ) (name : String) : Option φ := (s.slot? name).map Slot.field

def get? (s : Slots φ) (name : String) : Option φ :=
  match s.slot? name with
  | some slot => if slot.hidden then none else some slot.field
  | none => none

def contains (s : Slots φ) (name : String) : Bool := (s.get? name).isSome

def defines (s : Slots φ) (name : String) : Bool := (s.slot? name).isSome

def visible (s : Slots φ) : List (Slot φ) := s.entries.filter fun slot => !slot.hidden

def names (s : Slots φ) : List String := s.visible.map Slot.name

def put (entries : List (Slot φ)) (slot : Slot φ) : List (Slot φ) :=
  match entries with
  | [] => [slot]
  | first :: rest => if first.name == slot.name then slot :: rest else first :: put rest slot

/-- Makes a field visible under a name. A field that had the name is replaced where it stands. -/
def insert (s : Slots φ) (name : String) (field : φ) : Slots φ :=
  ⟨put s.entries ⟨name, field, false⟩⟩

def ofList (fields : List (String × φ)) : Slots φ :=
  fields.foldl (fun slots (name, field) => slots.insert name field) empty

def restrict (s : Slots φ) (keep : String → Bool) : Slots φ :=
  ⟨s.entries.map fun slot => { slot with hidden := slot.hidden || !keep slot.name }⟩

/-- Exposes a visible field under a new name in the same place; the old name stays behind, hidden, at
the end. -/
def rename (s : Slots φ) (old new : String) : Slots φ :=
  let moved := s.entries.foldl (fun entries slot =>
    put entries (if slot.name == old && !slot.hidden then ⟨new, slot.field, false⟩ else slot)) []
  match s.get? old with
  | some field => ⟨put moved ⟨old, field, true⟩⟩
  | none => ⟨moved⟩

def shares (same : φ → φ → Bool) (s t : Slots φ) (name other : String) : Bool :=
  match s.get? name, t.get? other with
  | some a, some b => same a b
  | _, _ => false

def map (f : φ → ψ) (s : Slots φ) : Slots ψ :=
  ⟨s.entries.map fun slot => ⟨slot.name, f slot.field, slot.hidden⟩⟩

end Slots

end SemanticLayer
