import Emend.Patch.Step
import Emend.Patch.Cursor

namespace Emend

/-- The steps of one part of an update, and whether they are said to end the document. -/
structure Section where
  steps : List Step
  eof : Bool
deriving DecidableEq, Repr

namespace Section

/-- The lines that have to stand in the document. -/
def context (s : Section) : List Line := Step.context s.steps

def chunks (s : Section) : List Chunk := Step.chunks s.steps

def isEnd (l : Line) : Bool := Text.startsWithAny Marker.sectionEnds l || l = ['*', '*', '*']

def readSteps : List Line → Except PatchError (List Step × List Line)
  | [] => .ok ([], [])
  | l :: rest =>
    if isEnd l then .ok ([], l :: rest)
    else if ['*', '*', '*'].isPrefixOf l then .error (.invalidLine l)
    else match Step.ofLine? l with
      | none => .error (.invalidLine l)
      | some s => (readSteps rest).map fun (steps, rest) => (s :: steps, rest)

/-- Reads one section. A line that is the end-of-file marker belongs to it; without that, it has
at least one step. -/
def read (c : Cursor) : Except PatchError (Section × Cursor) :=
  match readSteps c.rest with
  | .error e => .error e
  | .ok (steps, rest) =>
    let stop : Cursor := ⟨c.index + steps.length, rest⟩
    if rest.head? = some Marker.endOfFile then .ok (⟨steps, true⟩, stop.advance 1)
    else if steps.isEmpty then .error (.emptySection c.index stop.line)
    else .ok (⟨steps, false⟩, stop)

theorem length_of_readSteps {ls rest : List Line} {steps : List Step}
    (h : readSteps ls = .ok (steps, rest)) : steps.length + rest.length = ls.length := by
  induction ls generalizing steps rest with
  | nil => cases h; rfl
  | cons l ls ih =>
    unfold readSteps at h
    split at h
    · cases h; simp
    · split at h
      · cases h
      · split at h
        · cases h
        · cases hr : readSteps ls with
          | error e => rw [hr] at h; cases h
          | ok p =>
            rw [hr] at h
            cases h
            simp only [List.length_cons]
            have := @ih p.2 p.1 hr
            omega

theorem length_of_read {c c' : Cursor} {s : Section} (h : read c = .ok (s, c')) :
    c'.rest.length < c.rest.length := by
  unfold read at h
  split at h
  · cases h
  · next steps rest hs =>
    have hl := length_of_readSteps hs
    simp only at h
    split at h
    · next he =>
      cases h
      cases rest with
      | nil => cases he
      | cons l rest => simp only [Cursor.advance, List.drop_one, List.tail_cons]; simp at hl; omega
    · split at h
      · cases h
      · next hne =>
        cases h
        cases steps with
        | nil => simp at hne
        | cons s steps => simp at hl; show rest.length < _; omega

end Section

end Emend
