import Emend.Patch.Chunk
import Emend.Text.Quoted

namespace Emend

inductive Role
  | keep
  | insert
  | delete
deriving DecidableEq, Repr

namespace Role

def lead : Role → Char
  | keep => ' '
  | insert => '+'
  | delete => '-'

def ofLead? (c : Char) : Option Role :=
  if c = '+' then some insert else if c = '-' then some delete else if c = ' ' then some keep else none

def name : Role → Text
  | keep => "keep".toList
  | insert => "add".toList
  | delete => "delete".toList

def ofName? (n : Text) : Option Role := [keep, insert, delete].find? (·.name = n)

def unknown (n : Text) : Text := n.quoted ++ " is not a valid LineMode".toList

theorem ofLead?_lead (r : Role) : ofLead? r.lead = some r := by
  cases r <;> decide

theorem ofLead?_eq_some {c : Char} {r : Role} : ofLead? c = some r ↔ c = r.lead := by
  constructor
  · intro h
    unfold ofLead? at h
    split at h
    · next hc => cases h; exact hc
    · split at h
      · next hc => cases h; exact hc
      · split at h
        · next hc => cases h; exact hc
        · cases h
  · rintro rfl
    exact ofLead?_lead r

/-- A kept line after another ends the run of edits that is pending. -/
def endsRun (previous current : Role) (pending : Bool) : Bool :=
  current = keep && previous ≠ keep && pending

end Role

/-- A body line: what it does, and the line that it does it with. -/
structure Step where
  role : Role
  content : Line
deriving DecidableEq, Repr

namespace Step

def toLine (s : Step) : Line := s.role.lead :: s.content

/-- The step that a body line states. An empty line keeps an empty line. -/
def ofLine? : Line → Option Step
  | [] => some ⟨.keep, []⟩
  | c :: content => (Role.ofLead? c).map (⟨·, content⟩)

@[simp] theorem ofLine?_toLine (s : Step) : ofLine? s.toLine = some s := by
  simp [ofLine?, toLine, Role.ofLead?_lead]

/-- The lines that the document has to hold. -/
def context (steps : List Step) : List Line :=
  (steps.filter (·.role ≠ .insert)).map content

/-- The lines that stand there afterwards. -/
def outcome (steps : List Step) : List Line :=
  (steps.filter (·.role ≠ .delete)).map content

end Step

/-- Edits that no kept line separates. -/
structure Run where
  deleted : List Line := []
  inserted : List Line := []
deriving DecidableEq, Repr

namespace Run

def isEmpty (r : Run) : Bool := r.deleted.isEmpty && r.inserted.isEmpty

/-- The chunk of the run at a place, before other chunks. A run without edits makes none. -/
def before (r : Run) (place : Nat) (later : List Chunk) : List Chunk :=
  if r.isEmpty then later else ⟨place, r.deleted, r.inserted⟩ :: later

/-- The run that the steps begin with, and the chunks after it; `place` counts the context lines before
the steps. A kept line begins no run. -/
def read (place : Nat) : List Step → Run × List Chunk
  | [] => ({}, [])
  | s :: steps =>
    match s.role with
    | .keep =>
      let (next, later) := read (place + 1) steps
      ({}, next.before (place + 1) later)
    | .delete =>
      let (run, later) := read (place + 1) steps
      ({ run with deleted := s.content :: run.deleted }, later)
    | .insert =>
      let (run, later) := read place steps
      ({ run with inserted := s.content :: run.inserted }, later)

end Run

def Step.chunks (steps : List Step) : List Chunk :=
  let (run, later) := Run.read 0 steps
  run.before 0 later

end Emend
