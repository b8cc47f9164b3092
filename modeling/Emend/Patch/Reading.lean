import Emend.Patch.Section
import Emend.Patch.Context
import Emend.Patch.Anchor

namespace Emend

/-- A section with the place where its context stands. -/
structure Hunk where
  opening : Opening
  jump : Option Jump
  /-- The index of the first body line in the patch. -/
  start : Nat
  body : Section
  position : Nat
  fuzz : Nat
deriving DecidableEq, Repr

namespace Hunk

def chunks (h : Hunk) : List Chunk := h.body.chunks.map (·.shift h.position)

def totalFuzz (h : Hunk) : Nat := (h.jump.map Jump.fuzz).getD 0 + h.fuzz

def finish (h : Hunk) : Nat := h.position + h.body.context.length

def logLine (h : Hunk) : Text :=
  "section at patch line ".toList ++ Text.ofNat h.start ++ ": context found at ".toList ++
    Text.ofNat h.position ++ " (fuzz=".toList ++ Text.ofNat h.fuzz ++ ", eof=".toList ++
    Text.ofBool h.body.eof ++ ", chunks=".toList ++ Text.ofNat h.body.chunks.length ++ [')']

end Hunk

/-- The sections that were read, up to the end of the update or the first that fails. -/
inductive Reading
  | finished
  | failed (jump : Option Jump) (cause : PatchError)
  | hunk (h : Hunk) (rest : Reading)
deriving DecidableEq, Repr

namespace Reading

/-- Reads sections from `c` on. The document before line `cursor` is passed. -/
def read (doc : List Line) (cursor : Nat) (c : Cursor) : Reading :=
  if c.isDone Marker.updateEnds then .finished
  else
    let opening := (Opening.read c).1
    let body := (Opening.read c).2
    if opening.admits cursor then
      let jump := opening.jump? doc cursor
      let cursor := (jump.map Jump.target).getD cursor
      match _h : Section.read body with
      | .error e => .failed jump e
      | .ok (s, next) =>
        let place := Placement.find doc s.context cursor s.eof
        match place.position with
        | none => .failed jump (.contextNotFound cursor s.context s.eof)
        | some i =>
          .hunk ⟨opening, jump, body.index, s, i, place.fuzz⟩ (read doc (i + s.context.length) next)
    else .failed none (.missingHeader body.line)
termination_by c.rest.length
decreasing_by exact Nat.lt_of_lt_of_le (Section.length_of_read _h) (Opening.length_read_le c)

/-- The reading of a whole update. The end of the patch is read as a line of its own. -/
def ofLines (ls : List Line) (doc : List Line) : Reading :=
  read doc 0 (Cursor.ofLines (ls ++ [Marker.endPatch]))

def hunks : Reading → List Hunk
  | finished => []
  | failed _ _ => []
  | hunk h rest => h :: rest.hunks

def error? : Reading → Option PatchError
  | finished => none
  | failed _ e => some e
  | hunk _ rest => rest.error?

def log : Reading → List Text
  | finished => []
  | failed j _ => j.toList.map Jump.logLine
  | hunk h rest => h.jump.toList.map Jump.logLine ++ h.logLine :: rest.log

def chunks (r : Reading) : List Chunk := r.hunks.flatMap Hunk.chunks

def fuzz : Reading → Nat
  | finished => 0
  | failed _ _ => 0
  | hunk h rest => h.totalFuzz + rest.fuzz

def result (r : Reading) : Except PatchError (List Chunk × Nat) :=
  match r.error? with
  | some e => .error e
  | none => .ok (r.chunks, r.fuzz)

end Reading

end Emend
