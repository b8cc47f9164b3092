import Emend.Commit.Change

namespace Emend

/-- What a pass leaves: the last state, the results of the steps that succeeded, and the failures of
the others with their paths. -/
structure Pass (σ β : Type) where
  state : σ
  done : List β
  failures : List (Text × Failure)
  /-- Why the whole batch was given up. -/
  abort? : Option Abort := none

namespace Pass

variable {σ α β : Type}

/-- Takes the step for each item. Each step is told the paths that have failed before it. Under the
fail-fast policy the first failure ends the pass. A call that was not made ends it under any policy,
and does not count among the failures. -/
def run (policy : Policy) (path : α → Text) (step : List Text → α → EStateM Failure σ β)
    (failed : List Text) (items : List α) (s : σ) : Pass σ β :=
  match items with
  | [] => { state := s, done := [], failures := [] }
  | a :: rest =>
    match step failed a s with
    | .ok b s =>
      let later := run policy path step failed rest s
      { later with done := b :: later.done }
    | .error e s =>
      match e.abort? with
      | some a => { state := s, done := [], failures := [], abort? := some a }
      | none =>
        match policy with
        | .failFast => { state := s, done := [], failures := [(path a, e)] }
        | .bestEffort =>
          let later := run policy path step (failed ++ [path a]) rest s
          { later with failures := (path a, e) :: later.failures }

def halted (policy : Policy) (p : Pass σ β) : Bool :=
  policy = .failFast && !p.failures.isEmpty

theorem run_length (path : α → Text) (step : List Text → α → EStateM Failure σ β)
    (failed : List Text) (items : List α) (s : σ)
    (h : (run .bestEffort path step failed items s).abort? = none) :
    (run .bestEffort path step failed items s).done.length +
      (run .bestEffort path step failed items s).failures.length = items.length := by
  induction items generalizing failed s with
  | nil => rfl
  | cons a rest ih =>
    unfold run at h ⊢
    split
    · next b s' hs =>
      simp only [hs] at h
      have := ih failed s' h
      simp only [List.length_cons]
      omega
    · next e s' hs =>
      simp only [hs] at h
      split
      · next a he => simp [he] at h
      · next he =>
        simp only [he] at h
        have := ih (failed ++ [path a]) s' h
        simp only [List.length_cons]
        omega

end Pass

end Emend
