/-!
Finite maps that remember the order in which their keys first arrived.
-/

namespace Stepwise

structure Dict (κ α : Type) where
  entries : List (κ × α)

namespace Dict

variable {κ α β : Type} [DecidableEq κ]

def empty : Dict κ α := ⟨[]⟩

instance : EmptyCollection (Dict κ α) := ⟨empty⟩
instance : Inhabited (Dict κ α) := ⟨empty⟩

def keys (d : Dict κ α) : List κ := d.entries.map Prod.fst

def values (d : Dict κ α) : List α := d.entries.map Prod.snd

def size (d : Dict κ α) : Nat := d.entries.length

/-- The value behind the first entry of a key. -/
def lookup (k : κ) : List (κ × α) → Option α
  | [] => none
  | (k', a) :: es => if k' = k then some a else lookup k es

def get? (d : Dict κ α) (k : κ) : Option α := lookup k d.entries

def contains (d : Dict κ α) (k : κ) : Bool := (d.get? k).isSome

/-- Replaces the value behind a key, or puts a new key at the end. -/
def insert (k : κ) (a : α) : List (κ × α) → List (κ × α)
  | [] => [(k, a)]
  | (k', a') :: es => if k' = k then (k, a) :: es else (k', a') :: insert k a es

def set (d : Dict κ α) (k : κ) (a : α) : Dict κ α := ⟨insert k a d.entries⟩

/-- Changes the value behind a key, if the key is there. -/
def modify (d : Dict κ α) (k : κ) (f : α → α) : Dict κ α :=
  match d.get? k with
  | some a => d.set k (f a)
  | none => d

def ofList (es : List (κ × α)) : Dict κ α := es.foldl (fun d e => d.set e.1 e.2) empty

def mapValues (f : α → β) (d : Dict κ α) : Dict κ β := ⟨d.entries.map fun e => (e.1, f e.2)⟩

end Dict

end Stepwise
