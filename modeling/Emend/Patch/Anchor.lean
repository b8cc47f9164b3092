import Emend.Text.Blank
import Emend.Text.Quoted
import Emend.Patch.Cursor

namespace Emend

/-- The first line at or after `cursor` whose normal form is `target`, unless one before it has that
form. -/
def firstUnpassed (normal : Line → Line) (target : Line) (doc : List Line) (cursor : Nat) :
    Option Nat :=
  if (doc.take cursor).any fun l => normal l = target then none
  else ((doc.drop cursor).findIdx? fun l => normal l = target).map (cursor + ·)

/-- A move of the document position to the line after the one that a header names. -/
structure Jump where
  anchor : Text
  source : Nat
  target : Nat
  fuzz : Nat
deriving DecidableEq, Repr

namespace Jump

/-- A line equal to the anchor is looked for first, then one that differs in surrounding blanks,
at a fuzz of one. If there is neither, the position stays. -/
def seek (anchor : Text) (doc : List Line) (cursor : Nat) : Jump :=
  match firstUnpassed id anchor doc cursor with
  | some i => ⟨anchor, cursor, i + 1, 0⟩
  | none =>
    match firstUnpassed Text.trim anchor.trim doc cursor with
    | some i => ⟨anchor, cursor, i + 1, 1⟩
    | none => ⟨anchor, cursor, cursor, 0⟩

def logLine (j : Jump) : Text :=
  "anchor ".toList ++ j.anchor.quoted ++ ": cursor ".toList ++ Text.ofNat j.source ++
    " -> ".toList ++ Text.ofNat j.target

end Jump

inductive Opening
  | absent
  /-- The header line ends after the blank behind its signs. -/
  | unnamed
  /-- The header line is the two signs alone, possibly after an unnamed header. -/
  | bare
  | anchored (anchor : Text)
deriving DecidableEq, Repr

namespace Opening

def bareLine : Line := ['@', '@']

def anchorLead : Text := ['@', '@', ' ']

/-- Reads the header lines in front of a section's body. -/
def read (c : Cursor) : Opening × Cursor :=
  match c.rest with
  | [] => (.absent, c)
  | l :: rest =>
    match Text.after? anchorLead l with
    | some [] =>
      if rest.head? = some bareLine then (.bare, c.advance 2) else (.unnamed, c.advance 1)
    | some anchor => (.anchored anchor, c.advance 1)
    | none => if l = bareLine then (.bare, c.advance 1) else (.absent, c)

/-- Only a section read at the document's start needs no header. -/
def admits (o : Opening) (cursor : Nat) : Bool :=
  match o with
  | .absent | .unnamed => cursor = 0
  | .bare | .anchored _ => true

/-- The move that the header asks for. A header that names only blanks asks for none. -/
def jump? (o : Opening) (doc : List Line) (cursor : Nat) : Option Jump :=
  match o with
  | .anchored anchor => if anchor.trim = [] then none else some (Jump.seek anchor doc cursor)
  | _ => none

theorem read_eq_advance (c : Cursor) : ∃ n, (read c).2 = c.advance n := by
  unfold read
  split
  · exact ⟨0, rfl⟩
  · split
    · split
      · exact ⟨2, rfl⟩
      · exact ⟨1, rfl⟩
    · exact ⟨1, rfl⟩
    · split
      · exact ⟨1, rfl⟩
      · exact ⟨0, rfl⟩

theorem length_read_le (c : Cursor) : (read c).2.rest.length ≤ c.rest.length := by
  obtain ⟨n, h⟩ := read_eq_advance c
  rw [h]
  exact c.length_advance_le n

end Opening

end Emend
