import PathLedger.Entries

/-!
# Tables in key order

`Dict κ α` is a finite map whose entries are kept in strictly increasing key order. The order is a
proof field, so equal contents are equal tables, and listing a table lists it in key order.
-/

namespace PathLedger

/-- A finite map, listed in increasing key order. -/
structure Dict (κ α : Type) [Ord κ] where
  entries : Entries κ α
  ordered : entries.Ordered
deriving DecidableEq

namespace Dict

variable {κ α β : Type} [Ord κ]

instance [Repr κ] [Repr α] : Repr (Dict κ α) := ⟨fun d n => reprPrec d.entries n⟩

def empty : Dict κ α := ⟨[], Entries.ordered_nil⟩

instance : Inhabited (Dict κ α) := ⟨empty⟩

instance : EmptyCollection (Dict κ α) := ⟨empty⟩

def get? (d : Dict κ α) (k : κ) : Option α := Entries.get? k d.entries

def has (d : Dict κ α) (k : κ) : Bool := (d.get? k).isSome

def erase (d : Dict κ α) (k : κ) : Dict κ α := ⟨Entries.erase k d.entries, d.ordered.erase k⟩

def filter (d : Dict κ α) (p : κ → α → Bool) : Dict κ α :=
  ⟨d.entries.filter fun e => p e.1 e.2, d.ordered.filter _⟩

def mapValues (d : Dict κ α) (f : α → β) : Dict κ β :=
  ⟨Entries.mapValues f d.entries, d.ordered.mapValues f⟩

/-- The keys in order. -/
def keys (d : Dict κ α) : List κ := Entries.keys d.entries

def size (d : Dict κ α) : Nat := d.entries.length

def isEmpty (d : Dict κ α) : Bool := d.entries.isEmpty

@[simp] theorem get?_empty (k : κ) : (empty : Dict κ α).get? k = none := rfl

section Lookup

variable [Std.LawfulEqOrd κ]

theorem get?_erase (d : Dict κ α) (k k' : κ) :
    (d.erase k).get? k' = if compare k' k = .eq then none else d.get? k' :=
  Entries.get?_erase k k' d.entries

theorem get?_eq_some_iff_mem {d : Dict κ α} {k : κ} {a : α} :
    d.get? k = some a ↔ (k, a) ∈ d.entries :=
  Entries.get?_eq_some_iff_mem d.ordered

end Lookup

variable [Std.TransOrd κ]

/-- The table with the content at a key added or replaced. -/
def insert (d : Dict κ α) (k : κ) (a : α) : Dict κ α := ⟨Entries.put k a d.entries, d.ordered.put k a⟩

/-- The table of the listed entries; of two at one key the later stays. -/
def ofList (l : List (κ × α)) : Dict κ α := l.foldl (fun d e => d.insert e.1 e.2) empty

theorem get?_insert [Std.LawfulEqOrd κ] (d : Dict κ α) (k k' : κ) (a : α) :
    (d.insert k a).get? k' = if compare k' k = .eq then some a else d.get? k' :=
  Entries.get?_put k k' a d.entries

/-- Tables with the same look-ups are equal. -/
theorem ext_of_get? [Std.LawfulEqOrd κ] {d₁ d₂ : Dict κ α} (h : ∀ k, d₁.get? k = d₂.get? k) : d₁ = d₂ := by
  cases d₁; cases d₂
  congr
  exact Entries.ext_of_get? ‹_› ‹_› h

end Dict

end PathLedger
