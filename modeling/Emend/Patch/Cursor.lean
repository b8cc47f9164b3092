import Emend.Patch.Marker

namespace Emend

/-- The lines still to be read, and the number of those before them. -/
structure Cursor where
  index : Nat
  rest : List Line
deriving DecidableEq, Repr

namespace Cursor

def ofLines (ls : List Line) : Cursor := ⟨0, ls⟩

def line (c : Cursor) : Line := c.rest.headD []

def advance (c : Cursor) (n : Nat) : Cursor := ⟨c.index + n, c.rest.drop n⟩

def isDone (c : Cursor) (leads : List Text) : Bool :=
  match c.rest with
  | [] => true
  | l :: _ => Text.startsWithAny leads l

/-- Passes the next line if it starts with `lead`, and gives what follows there. -/
def readAfter (c : Cursor) (lead : Text) : Text × Cursor :=
  match c.rest with
  | [] => ([], c)
  | l :: _ =>
    match Text.after? lead l with
    | some t => (t, c.advance 1)
    | none => ([], c)

theorem length_advance_le (c : Cursor) (n : Nat) : (c.advance n).rest.length ≤ c.rest.length := by
  simp [advance]

end Cursor

end Emend
