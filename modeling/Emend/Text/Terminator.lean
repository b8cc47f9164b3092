import Emend.Text.Basic

namespace Emend

inductive Terminator
  | lf
  | crlf
  | cr
deriving DecidableEq, Repr

namespace Terminator

def text : Terminator → Text
  | lf => ['\n']
  | crlf => ['\r', '\n']
  | cr => ['\r']

def hasPair : Text → Bool
  | [] => false
  | '\r' :: '\n' :: _ => true
  | _ :: t => hasPair t

/-- The terminator of a text: a pair if one occurs, else a carriage return if one occurs. -/
def detect (t : Text) : Terminator :=
  if hasPair t then crlf else if '\r' ∈ t then cr else lf

/-- Each pair becomes a line feed; other carriage returns stay. -/
def joinPairs : Text → Text
  | [] => []
  | '\r' :: '\n' :: t => '\n' :: joinPairs t
  | c :: t => c :: joinPairs t

def toLf : Terminator → Text → Text
  | lf, t => t
  | crlf, t => joinPairs t
  | cr, t => t.map fun c => if c = '\r' then '\n' else c

def fromLf (e : Terminator) (t : Text) : Text :=
  t.flatMap fun c => if c = '\n' then e.text else [c]

@[simp] theorem fromLf_nil (e : Terminator) : e.fromLf [] = [] := rfl

theorem fromLf_lf (t : Text) : lf.fromLf t = t := by
  induction t with
  | nil => rfl
  | cons c t ih =>
    have hc : (if c = '\n' then lf.text else [c]) = [c] := by
      split
      · next h => rw [h]; rfl
      · rfl
    simp only [fromLf, List.flatMap_cons, hc] at ih ⊢
    simp [ih]

theorem joinPairs_fromLf {t : Text} (h : '\r' ∉ t) : joinPairs (crlf.fromLf t) = t := by
  induction t with
  | nil => rfl
  | cons c t ih =>
    rw [List.mem_cons, not_or] at h
    obtain ⟨hc, ht⟩ := h
    by_cases hn : c = '\n'
    · subst hn
      simpa [fromLf, text, joinPairs] using ih ht
    · have ih := ih ht
      simp only [fromLf, List.flatMap_cons, if_neg hn, List.singleton_append] at ih ⊢
      rw [joinPairs, ih]
      · intro _ h'
        exact absurd h'.symm hc

end Terminator

end Emend
