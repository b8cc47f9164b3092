import Emend.Commit.Change

namespace Emend

/-- Values by key, in the order in which the keys came. -/
abbrev Ledger (κ α : Type) := List (κ × α)

namespace Ledger

variable {κ α : Type} [DecidableEq κ]

/-- A key that is there already keeps its place. -/
def set (l : Ledger κ α) (k : κ) (v : α) : Ledger κ α :=
  match l with
  | [] => [(k, v)]
  | (k', v') :: l => if k' = k then (k, v) :: l else (k', v') :: set l k v

def remove (l : Ledger κ α) (k : κ) : Ledger κ α := l.filter (·.1 ≠ k)

def keys (l : Ledger κ α) : List κ := l.map (·.1)

def setAll (l m : Ledger κ α) : Ledger κ α := m.foldl (fun l (k, v) => l.set k v) l

theorem mem_keys_set (l : Ledger κ α) (k : κ) (v : α) (x : κ) :
    x ∈ (l.set k v).keys ↔ x = k ∨ x ∈ l.keys := by
  induction l with
  | nil => simp [set, keys]
  | cons p l ih =>
    obtain ⟨k', v'⟩ := p
    unfold set
    split
    · next h => subst h; simp [keys]
    · simp only [keys, List.map_cons, List.mem_cons] at ih ⊢
      rw [ih]
      constructor
      · rintro (h | h | h)
        · exact .inr (.inl h)
        · exact .inl h
        · exact .inr (.inr h)
      · rintro (h | h | h)
        · exact .inr (.inl h)
        · exact .inl h
        · exact .inr (.inr h)

theorem mem_keys_setAll (l m : Ledger κ α) (x : κ) :
    x ∈ (l.setAll m).keys ↔ x ∈ l.keys ∨ x ∈ m.keys := by
  induction m generalizing l with
  | nil => simp [setAll, keys]
  | cons p m ih =>
    have := ih (l.set p.1 p.2)
    simp only [setAll, List.foldl_cons] at this ⊢
    rw [this, mem_keys_set]
    simp only [keys, List.map_cons, List.mem_cons]
    constructor
    · rintro ((h | h) | h)
      · exact .inr (.inl h)
      · exact .inl h
      · exact .inr (.inr h)
    · rintro (h | h | h)
      · exact .inl (.inr h)
      · exact .inl (.inl h)
      · exact .inr h

end Ledger

structure Summary where
  success : List Text
  failed : List Text
  errors : Ledger Text Text
  fuzz : Ledger Text Nat := []
  dryRun : Bool
deriving DecidableEq, Repr

/-- The summary of what succeeded and of what failed. Of several failures at a path, the last one's
message is kept. -/
def Summary.of (dryRun : Bool) (success : List Text) (failures : List (Text × Failure)) : Summary where
  success := success
  failed := failures.map (·.1)
  errors := Ledger.setAll [] (failures.map fun (p, e) => (p, e.message))
  dryRun := dryRun

theorem Summary.mem_keys_errors_of (dryRun : Bool) (success : List Text)
    (failures : List (Text × Failure)) (p : Text) :
    p ∈ (Summary.of dryRun success failures).errors.keys ↔
      p ∈ (Summary.of dryRun success failures).failed := by
  have h := Ledger.mem_keys_setAll [] (failures.map fun (p, e) => (p, e.message)) p
  simp only [Summary.of]
  rw [h]
  simp [Ledger.keys]

end Emend
